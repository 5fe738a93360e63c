import DesignTokens.Legacy.Prune
import DesignTokens.Proofs.Extraction

/-!
# What pruning removes

Names are classified by the scan of the whole text, and lines are removed by a matcher that sees one line at a time. A
line whose declaration the scan does not find is removed with the others of its name, whatever its value.
-/

namespace DesignTokens.Declaration

/-! ## The declaration of a line -/

theorem Fills.readName_trimStart {d : Declaration} {line : List Char} (h : d.Fills line) :
    ∃ after, readName (Text.trimStart line) = some ((d.stem, d.gap), d.content ++ ';' :: after) := by
  obtain ⟨hd, before, after, rfl, hb, _⟩ := h
  have htrim : Text.trimStart (before ++ d.text ++ after) = d.text ++ after := by
    rw [List.append_assoc]
    exact Text.dropWhile_append_of_stop hb fun c hc => by cases hc; rfl
  refine ⟨after, ?_⟩
  rw [htrim]
  exact readName_eq_some_iff.2 ⟨by simp [text], hd.stem_legal, hd.gap_blank⟩

theorem Fills.unique {d e : Declaration} {line : List Char} (hd : d.Fills line) (he : e.Fills line) : d = e := by
  obtain ⟨a, ha⟩ := hd.readName_trimStart
  obtain ⟨b, hb⟩ := he.readName_trimStart
  rw [ha] at hb
  have htake : ∀ {f : Declaration} {s : List Char}, f.WellFormed →
      (f.content ++ ';' :: s).takeWhile (· != ';') = f.content := by
    intro f s hf
    refine Text.takeWhile_append_of_stop (fun c hc => ?_) (fun c hc => by cases hc; rfl)
    simpa using fun he : c = ';' => hf.content_closed (he ▸ hc)
  have hcontent : d.content = e.content := by
    rw [← htake (s := a) hd.1, ← htake (s := b) he.1]
    simp only [Option.some.injEq, Prod.mk.injEq] at hb
    rw [hb.2]
  cases d
  cases e
  simp_all

end DesignTokens.Declaration

namespace DesignTokens.Legacy

theorem keepsLine_eq_false_iff {names : List String} {line : List Char} :
    keepsLine names line = false ↔ ∃ d : Declaration, d.Fills line ∧ d.name ∈ names := by
  unfold keepsLine
  split
  · next name h =>
      obtain ⟨d, hd, rfl⟩ := Declaration.declaredBy?_eq_some_iff.1 h
      constructor
      · intro hn
        exact ⟨d, hd, by simpa using hn⟩
      · rintro ⟨e, he, hn⟩
        rw [he.unique hd] at hn
        simpa using hn
  · next h =>
      constructor
      · intro hn
        cases hn
      · rintro ⟨d, hd, _⟩
        rw [Declaration.declaredBy?_eq_some_iff.2 ⟨d, hd, rfl⟩] at h
        cases h

/-- Each line that pruning removes is a declaration with the value that the generated text declares last. -/
def PrunesFaithfully (legacy generated : String) : Prop :=
  ∀ line ∈ Text.fields '\n' legacy.toList, keepsLine (Classification.ofTexts legacy generated).covered line = false →
    ∃ d : Declaration, d.Fills line ∧ (Declaration.lastValues generated).lookup d.name = some d.value

/-- Pruning is faithful exactly if each removed line has a value that the scan of the text found for its name. The scan
finds the value of a line if it comes to rest before the line and the value is not empty. -/
theorem prunesFaithfully_iff (legacy generated : String) :
    (PrunesFaithfully legacy generated ↔
      ∀ line ∈ Text.fields '\n' legacy.toList, ∀ d : Declaration, d.Fills line →
        d.name ∈ (Classification.ofTexts legacy generated).covered →
          d.value ∈ Declaration.valuesFor (Declaration.all legacy) d.name) ∧
    ∀ before line rest, legacy.toList = before ++ (line ++ rest) → Declaration.pattern.RestsAt before (line ++ rest) →
      ∀ d : Declaration, d.Fills line → d.content ≠ [] →
        d.value ∈ Declaration.valuesFor (Declaration.all legacy) d.name := by
  refine ⟨⟨?_, ?_⟩, ?_⟩
  · intro h line hl d hd hc
    obtain ⟨e, he, hv⟩ := h line hl (keepsLine_eq_false_iff.2 ⟨d, hd, hc⟩)
    rw [he.unique hd] at hv
    obtain ⟨hne, v, hv', hall⟩ := Classification.mem_covered_ofTexts.1 hc
    obtain ⟨w, hw⟩ := List.exists_mem_of_ne_nil _ hne
    have hdv : d.value = v := Option.some.inj (hv.symm.trans hv')
    rw [hdv, ← hall w hw]
    exact hw
  · intro h line hl hk
    obtain ⟨d, hd, hc⟩ := keepsLine_eq_false_iff.1 hk
    obtain ⟨_, v, hv, hall⟩ := Classification.mem_covered_ofTexts.1 hc
    refine ⟨d, hd, ?_⟩
    rw [hv, hall _ (h line hl d hd hc)]
  · intro before line rest hs hrest d hd hne
    obtain ⟨items, hitems⟩ := hrest.hits_append
    refine Declaration.mem_valuesFor ?_
    rw [Declaration.all, hs, hitems, hd.hits_append hne]
    exact List.mem_append_right _ (List.mem_cons_self ..)

/-- A comment that looks like the beginning of a declaration, between two values of one name. -/
private def hidden : String := r":root {
  --a: 1px;
  /* --b: see below */
  --a: 2px;
}
"

private def covering : String := r":root {
  --a: 1px;
}
"

/-- The comment hides the declaration in the next line, whose other value is removed as well. -/
theorem not_prunesFaithfully_hidden : ¬PrunesFaithfully hidden covering := by
  intro h
  obtain ⟨d, hd, hv⟩ := h "  --a: 2px;".toList (by decide +kernel) (by decide +kernel)
  have hfill : (⟨['a'], [], [' ', '2', 'p', 'x']⟩ : Declaration).Fills "  --a: 2px;".toList := by
    refine ⟨⟨by decide, List.all_eq_true.1 rfl, List.all_eq_true.1 rfl, by decide⟩, [' ', ' '], [], by decide +kernel,
      List.all_eq_true.1 rfl, List.all_eq_true.1 rfl⟩
  rw [hd.unique hfill] at hv
  revert hv
  decide +kernel

end DesignTokens.Legacy
