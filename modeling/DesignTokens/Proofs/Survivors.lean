import DesignTokens.Proofs.Fields
import DesignTokens.Proofs.Prune

/-!
# What pruning leaves

The declarations that stay are those that were there, if no line is removed within a declaration that another line has
begun. Otherwise the declaration runs on to the next semicolon, whatever stands before it.
-/

namespace DesignTokens

namespace Declaration

/-! ## Texts that end within a declaration -/

/-- An end part of the text is the beginning of a declaration, but not all of it. -/
def BreaksOff (s : List Char) : Prop :=
  ∃ y d, y ≠ [] ∧ y <:+ s ∧ d.WellFormed ∧ y <+: text d ∧ y ≠ text d

theorem BreaksOff.of_suffix {s t : List Char} (h : BreaksOff s) (hst : s <:+ t) : BreaksOff t := by
  obtain ⟨y, d, hne, hs, hd, hp, hy⟩ := h
  exact ⟨y, d, hne, hs.trans hst, hd, hp, hy⟩

theorem semicolon_mem_text (d : Declaration) : ';' ∈ d.text := by
  simp [text]

theorem read_eq_none_of_no_semicolon {s : List Char} (h : ';' ∉ s) : read s = none := by
  cases hr : read s with
  | none => rfl
  | some x =>
      obtain ⟨d, r⟩ := x
      obtain ⟨rfl, _⟩ := read_eq_some_iff.1 hr
      exact absurd (List.mem_append_left r d.semicolon_mem_text) h

/-- Where a text does not end within a declaration, the scan starts anew. -/
theorem hits_append_of_not_breaksOff {s : List Char} (h : ¬BreaksOff s) (rest : List Char) :
    pattern.hits (s ++ rest) = pattern.hits s ++ pattern.hits rest := by
  refine Text.Pattern.hits_append fun y hne hy => ?_
  change read (y ++ rest) = (read y).map _
  by_cases hsemi : ';' ∈ y
  · exact read_append_of_semicolon hsemi rest
  rw [read_eq_none_of_no_semicolon hsemi]
  cases hr : read (y ++ rest) with
  | none => rfl
  | some x =>
      obtain ⟨d, r⟩ := x
      obtain ⟨he, hd, _⟩ := read_eq_some_iff.1 hr
      rcases List.append_eq_append_iff.1 he with ⟨w, hw, _⟩ | ⟨w, hw, _⟩
      · have hy' : y ≠ d.text := fun he => hsemi (he ▸ d.semicolon_mem_text)
        exact absurd ⟨y, d, hne, hy, hd, ⟨w, hw.symm⟩, hy'⟩ h
      · exact absurd (hw ▸ List.mem_append_left w d.semicolon_mem_text) hsemi

theorem hits_append_newline (s : List Char) : pattern.hits (s ++ ['\n']) = pattern.hits s := by
  have hbreak : pattern.hits ['\n'] = [] := (hits_newline_cons []).trans Text.Pattern.hits_nil
  refine (Text.Pattern.hits_append fun y _ _ => ?_).trans ?_
  · change read (y ++ ['\n']) = (read y).map _
    by_cases hsemi : ';' ∈ y
    · exact read_append_of_semicolon hsemi _
    · rw [read_eq_none_of_no_semicolon hsemi, read_eq_none_of_no_semicolon (by simp [hsemi])]
      rfl
  · rw [hbreak, List.append_nil]

/-! ## Lines that are removed -/

theorem WellFormed.colon_notMem {d : Declaration} (h : d.WellFormed) : ':' ∉ '-' :: '-' :: d.stem ++ d.gap := by
  intro hm
  simp only [List.cons_append, List.mem_cons, List.mem_append] at hm
  rcases hm with hm | hm | hm | hm
  · cases hm
  · cases hm
  · cases h.stem_legal _ hm
  · cases h.gap_blank _ hm

/-- Nothing is read where a declaration without a value begins, nor within it. -/
theorem read_eq_none_of_empty {d : Declaration} (hd : d.WellFormed) (he : d.content = []) {y : List Char}
    (hne : y ≠ []) (hy : y <:+ d.text) (rest : List Char) : read (y ++ rest) = none := by
  cases hr : read (y ++ rest) with
  | none => rfl
  | some x =>
      obtain ⟨e, r⟩ := x
      obtain ⟨hsplit, hwf, hcontent⟩ := read_eq_some_iff.1 hr
      have htext : d.text = ('-' :: '-' :: d.stem ++ d.gap ++ [':']) ++ [';'] := by simp [text, he]
      rw [htext] at hy
      obtain rfl | ⟨t, rfl, ht⟩ := List.suffix_concat_iff.1 hy
      · exact absurd rfl hne
      obtain rfl | ⟨u, rfl, hu⟩ := List.suffix_concat_iff.1 ht
      · cases (List.cons.inj hsplit).1
      -- The colon of the one declaration is that of the other, and the semicolon follows it.
      have hcolon : ':' ∉ u := fun hm => hd.colon_notMem (hu.mem hm)
      have hsplit : u ++ ':' :: ';' :: rest =
          ('-' :: '-' :: e.stem ++ e.gap) ++ ':' :: (e.content ++ ';' :: r) := by
        simpa [text] using hsplit
      have hrest := congrArg (List.dropWhile (· != ':')) hsplit
      rw [Text.dropWhile_append_cons hcolon, Text.dropWhile_append_cons hwf.colon_notMem] at hrest
      cases hc : e.content with
      | nil => exact absurd hc hcontent
      | cons c cs =>
          have hsemi : ';' = c := by simpa [hc] using congrArg List.head? (List.cons.inj hrest).2
          exact absurd (hc ▸ hsemi ▸ List.mem_cons_self ..) hwf.content_closed

/-- A declaration without a value is not found, nor is any part of it. -/
theorem hits_text_append_of_empty {d : Declaration} (hd : d.WellFormed) (he : d.content = []) (rest : List Char) :
    pattern.hits (d.text ++ rest) = pattern.hits rest :=
  Text.Pattern.hits_append_of_none fun _ hne hy => read_eq_none_of_empty hd he hne hy rest

/-- Where a line that holds a declaration begins with the scan at rest, nothing else is found in it. -/
theorem Fills.exists_hits_append {d : Declaration} {line : List Char} (h : d.Fills line) (rest : List Char) :
    ∃ items, (∀ e ∈ items, e.name = d.name) ∧ pattern.hits (line ++ rest) = items ++ pattern.hits rest := by
  by_cases he : d.content = []
  · obtain ⟨hd, before, after, rfl, hb, ha⟩ := h
    refine ⟨[], by simp, ?_⟩
    rw [List.append_assoc, List.append_assoc, hits_append_of_no_dash (dash_notMem_of_blank hb),
      hits_text_append_of_empty hd he, hits_append_of_no_dash (dash_notMem_of_blank ha), List.nil_append]
  · exact ⟨[d], by simp, h.hits_append he rest⟩

end Declaration

namespace Legacy

open Declaration

/-! ## Lines and their scan -/

/-- Lines, each with its line break. -/
def ended (lines : List (List Char)) : List Char := lines.flatMap (· ++ ['\n'])

theorem hits_join (lines : List (List Char)) : pattern.hits (Text.join ['\n'] lines) = pattern.hits (ended lines) := by
  obtain rfl | ⟨front, last, rfl⟩ := List.eq_nil_or_concat lines
  · rfl
  · rw [List.concat_eq_append, Text.join_concat, ← hits_append_newline]
    simp [ended]

/-- The declarations of other names than those given. -/
def others (names : List String) (ds : List Declaration) : List Declaration := ds.filter fun d => !names.contains d.name

theorem others_append (names : List String) (ds es : List Declaration) :
    others names (ds ++ es) = others names ds ++ others names es := List.filter_append ..

theorem valuesFor_others {names : List String} {name : String} (h : name ∉ names) (ds : List Declaration) :
    valuesFor (others names ds) name = valuesFor ds name := by
  rw [valuesFor, valuesFor, others, List.filter_filter]
  refine congrArg _ (List.filter_congr fun d _ => ?_)
  by_cases hd : d.name = name <;> simp [hd, h]

/-- Whatever lines are removed, none of them stands within a declaration that another line has begun. -/
def CutsBetween (names : List String) (start : List Char) (lines : List (List Char)) : Prop :=
  ∀ before line after, lines = before ++ line :: after → keepsLine names line = false →
    ¬BreaksOff (start ++ ended before)

theorem others_hits_filter {names : List String} {start : List Char} {lines : List (List Char)}
    (h : CutsBetween names start lines) :
    others names (pattern.hits (start ++ ended (lines.filter (keepsLine names)))) =
      others names (pattern.hits (start ++ ended lines)) := by
  induction lines generalizing start with
  | nil => rfl
  | cons line lines ih =>
      have hcons : ∀ lines, start ++ ended (line :: lines) = (start ++ (line ++ ['\n'])) ++ ended lines := by
        intro lines
        simp [ended]
      cases hk : keepsLine names line with
      | true =>
          rw [List.filter_cons_of_pos hk, hcons, hcons]
          refine ih fun before l after hl hkl => ?_
          rw [← hcons]
          exact h (line :: before) l after (congrArg _ hl) hkl
      | false =>
          have hstart : ¬BreaksOff start := by
            simpa [ended] using h [] line lines rfl hk
          have hrest : CutsBetween names [] lines := by
            intro before l after hl hkl hb
            refine h (line :: before) l after (congrArg _ hl) hkl (hb.of_suffix ?_)
            rw [hcons, List.nil_append]
            exact List.suffix_append ..
          obtain ⟨d, hd, hname⟩ := keepsLine_eq_false_iff.1 hk
          obtain ⟨items, hitems, hline⟩ := hd.exists_hits_append ('\n' :: ended lines)
          have hnone : others names items = [] := by
            rw [others, List.filter_eq_nil_iff]
            intro e he
            simpa [hitems e he] using hname
          have hended : ended (line :: lines) = line ++ '\n' :: ended lines := by simp [ended]
          have hih := ih hrest
          rw [List.nil_append, List.nil_append] at hih
          rw [List.filter_cons_of_neg (by simp [hk]), hits_append_of_not_breaksOff hstart,
            hits_append_of_not_breaksOff hstart, hended, hline, hits_newline_cons, others_append,
            others_append, others_append, hih, hnone, List.nil_append]

/-- If no line is cut out of a declaration, those of other names stay as they were. -/
theorem others_all_prune {text : String} {names : List String}
    (h : CutsBetween names [] (Text.fields '\n' text.toList)) :
    others names (all (prune text names)) = others names (all text) := by
  have hpruned : all (prune text names) =
      pattern.hits (ended ((Text.fields '\n' text.toList).filter (keepsLine names))) := by
    rw [all, prune, String.toList_ofList, hits_join]
  have htext : all text = pattern.hits (ended (Text.fields '\n' text.toList)) := by
    rw [all, ← hits_join, Text.join_fields]
  rw [hpruned, htext]
  exact others_hits_filter h

/-! ## Runs that find nothing to remove -/

theorem keepsLine_of_mem_prune {text : String} {names : List String} {line : List Char}
    (h : line ∈ Text.fields '\n' (prune text names).toList) : keepsLine names line = true := by
  rw [prune, String.toList_ofList] at h
  by_cases hnil : (Text.fields '\n' text.toList).filter (keepsLine names) = []
  · -- Even a text without any line left has one line, which is empty.
    rw [hnil, Text.join, Text.fields, List.mem_singleton] at h
    rw [h]
    rfl
  · rw [Text.fields_join_filter hnil] at h
    exact (List.mem_filter.1 h).2

theorem prune_eq_self {text : String} {names : List String}
    (h : ∀ line ∈ Text.fields '\n' text.toList, keepsLine names line = true) : prune text names = text := by
  rw [prune, List.filter_eq_self.2 h, Text.join_fields, String.ofList_toList]

theorem keepsLine_of_subset {names more : List String} (h : names ⊆ more) {line : List Char}
    (hk : keepsLine more line = true) : keepsLine names line = true := by
  by_contra hn
  obtain ⟨d, hd, hname⟩ := keepsLine_eq_false_iff.1 (by simpa using hn)
  rw [keepsLine_eq_false_iff.2 ⟨d, hd, h hname⟩] at hk
  cases hk

/-! ## Stable runs -/

/-- What is left of a text when the names that are covered by another one are removed. -/
def pruned (legacy generated : String) : String := prune legacy (Classification.ofTexts legacy generated).covered

/-- Names in conflict and missing ones keep their values, no name appears, and a second run removes nothing. -/
structure PrunesStably (legacy generated : String) : Prop where
  conflicts : ∀ c ∈ (Classification.ofTexts legacy generated).conflicts,
    (allValues (pruned legacy generated)).lookup c.name = (allValues legacy).lookup c.name
  missing : ∀ name ∈ (Classification.ofTexts legacy generated).missing,
    (allValues (pruned legacy generated)).lookup name = (allValues legacy).lookup name
  no_new : ∀ name, (allValues legacy).lookup name = none → (allValues (pruned legacy generated)).lookup name = none
  stable : pruned (pruned legacy generated) generated = pruned legacy generated

/-- The values of names that are not covered stay as they were. -/
def KeepsValues (legacy generated : String) : Prop :=
  ∀ name ∉ (Classification.ofTexts legacy generated).covered,
    valuesFor (all (pruned legacy generated)) name = valuesFor (all legacy) name

theorem PrunesStably.keepsValues {legacy generated : String} (h : PrunesStably legacy generated) :
    KeepsValues legacy generated := by
  intro name hname
  rw [← getD_lookup_allValues, ← getD_lookup_allValues]
  by_cases hnone : valuesFor (all legacy) name = []
  · have hl : (allValues legacy).lookup name = none := by rw [lookup_allValues, if_pos hnone]
    rw [h.no_new name hl, hl]
  · rcases (Classification.notMem_covered_ofTexts_iff hnone).1 hname with ⟨c, hc, rfl⟩ | hm
    · rw [h.conflicts c hc]
    · rw [h.missing name hm]

theorem KeepsValues.prunesStably {legacy generated : String} (h : KeepsValues legacy generated) :
    PrunesStably legacy generated := by
  have hlookup : ∀ name ∉ (Classification.ofTexts legacy generated).covered,
      (allValues (pruned legacy generated)).lookup name = (allValues legacy).lookup name := by
    intro name hname
    rw [lookup_allValues, lookup_allValues, h name hname]
  refine ⟨fun c hc => ?_, fun name hm => ?_, fun name hnone => ?_, ?_⟩
  · obtain ⟨hne, _⟩ := Classification.mem_conflicts_ofTexts.1 ⟨c, hc, rfl⟩
    exact hlookup _ ((Classification.notMem_covered_ofTexts_iff hne).2 (.inl ⟨c, hc, rfl⟩))
  · obtain ⟨hne, _⟩ := Classification.mem_missing_ofTexts.1 hm
    exact hlookup _ ((Classification.notMem_covered_ofTexts_iff hne).2 (.inr hm))
  · refine (hlookup name fun hc => ?_).trans hnone
    obtain ⟨hne, _⟩ := Classification.mem_covered_ofTexts.1 hc
    rw [lookup_allValues, if_neg hne] at hnone
    cases hnone
  · -- Whatever is covered in what is left was covered before, and its lines are gone.
    have hsubset : (Classification.ofTexts (pruned legacy generated) generated).covered ⊆
        (Classification.ofTexts legacy generated).covered := by
      intro name hc
      by_contra hname
      rw [Classification.mem_covered_ofTexts, h name hname, ← Classification.mem_covered_ofTexts] at hc
      exact hname hc
    exact prune_eq_self fun line hline => keepsLine_of_subset hsubset (keepsLine_of_mem_prune hline)

/-- Pruning is stable exactly if it keeps the values of all names that are not covered. It does so, and keeps their
declarations as they are, if no line that it removes stands within a declaration that another line has begun. -/
theorem prunesStably_iff (legacy generated : String) :
    (PrunesStably legacy generated ↔
      ∀ name ∉ (Classification.ofTexts legacy generated).covered,
        valuesFor (all (pruned legacy generated)) name = valuesFor (all legacy) name) ∧
    (CutsBetween (Classification.ofTexts legacy generated).covered [] (Text.fields '\n' legacy.toList) →
      others (Classification.ofTexts legacy generated).covered (all (pruned legacy generated)) =
        others (Classification.ofTexts legacy generated).covered (all legacy) ∧
      PrunesStably legacy generated) := by
  refine ⟨⟨PrunesStably.keepsValues, KeepsValues.prunesStably⟩, fun h => ?_⟩
  have hothers : others _ (all (pruned legacy generated)) = others _ (all legacy) := others_all_prune h
  refine ⟨hothers, KeepsValues.prunesStably fun name hname => ?_⟩
  rw [← valuesFor_others hname, hothers, valuesFor_others hname]

/-- A comment that looks like the beginning of a declaration, with a covered name and one in conflict after it. -/
private def commented : String := r":root {
  --c: 1px;
  --x: 1px;
  /* --b: see below */
  --c: 1px;
  --x: 2px;
}
"

private def commentFree : String := r":root {
  --c: 1px;
  --x: 1px;
}
"

private def uncovered : String := r":root {
  --x: 1px;
  /* --b: see below */
  --x: 2px;
}
"

/-- When the covered line is gone, the comment runs on into the line in conflict: the name has lost the value that
differs, and a second run removes both of its lines. -/
theorem not_prunesStably_comment :
    ¬PrunesStably commented commentFree ∧
      pruned (pruned commented commentFree) commentFree ≠ pruned commented commentFree := by
  have hpruned : pruned commented commentFree = uncovered := by decide +kernel
  have hagain : pruned (pruned commented commentFree) commentFree ≠ pruned commented commentFree := by
    rw [hpruned]
    decide +kernel
  exact ⟨fun h => hagain h.stable, hagain⟩

end Legacy

end DesignTokens
