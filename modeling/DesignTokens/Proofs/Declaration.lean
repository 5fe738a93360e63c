import DesignTokens.Legacy.Declaration
import DesignTokens.Proofs.Blank
import DesignTokens.Proofs.Scan
import DesignTokens.Text.Word

/-!
# The grammar of declarations

What the readers of declarations accept, said by concatenation: the scan of a whole text and the matcher of single lines
read declarations of the same form, apart from the value, which only the matcher allows to be empty.
-/

namespace DesignTokens

theorem Name.isBlank_of_isLegal {c : Char} (h : Name.isLegal c = true) : Text.isBlank c = false := by
  have hr : c.toNat = 45 ∨ (48 ≤ c.toNat ∧ c.toNat ≤ 122) := by
    simp only [Name.isLegal, Bool.or_eq_true, beq_iff_eq] at h
    rcases h with (h | rfl) | rfl
    · obtain ⟨hlo, hhi⟩ := Text.val_bounds_of_isAlphanum h
      exact .inr ⟨UInt32.le_iff_toNat_le.1 hlo, UInt32.le_iff_toNat_le.1 hhi⟩
    · exact .inl rfl
    · exact .inr (by decide)
  simp only [Text.isBlank, Bool.or_eq_false_iff, Bool.and_eq_false_iff, decide_eq_false_iff_not, beq_eq_false_iff_ne]
  omega

namespace Declaration

/-! ## Names -/

theorem readName_eq_some_iff {s stem gap r : List Char} :
    readName s = some ((stem, gap), r) ↔
      s = '-' :: '-' :: stem ++ gap ++ ':' :: r ∧ (∀ c ∈ stem, Name.isLegal c = true) ∧
        ∀ c ∈ gap, Text.isBlank c = true := by
  constructor
  · intro h
    refine ⟨(append_of_readName h).symm, ?_⟩
    unfold readName at h
    split at h
    · dsimp only at h
      split at h
      · cases h
        exact ⟨fun c hc => List.mem_takeWhile_imp hc, fun c hc => List.mem_takeWhile_imp hc⟩
      · cases h
    · cases h
  · rintro ⟨rfl, hs, hg⟩
    have hl : ∀ c ∈ (gap ++ ':' :: r).head?, Name.isLegal c = false := by
      intro c hc
      cases gap with
      | nil => cases hc; rfl
      | cons g gap =>
          cases hc
          by_contra hn
          have hb := hg c (List.mem_cons_self ..)
          rw [Name.isBlank_of_isLegal (by simpa using hn)] at hb
          cases hb
    have hc : ∀ c ∈ (':' :: r).head?, Text.isBlank c = false := by
      intro c hc
      cases hc
      rfl
    simp only [List.cons_append, List.append_assoc, readName, Text.takeWhile_append_of_stop hs hl,
      Text.dropWhile_append_of_stop hs hl, Text.takeWhile_append_of_stop hg hc, Text.dropWhile_append_of_stop hg hc]

/-- No name is read where something else than a name comes before the first colon. -/
theorem readName_eq_none_of_barrier {u v : List Char} {c : Char} (hu : ':' ∉ u) (hl : Name.isLegal c = false)
    (hb : Text.isBlank c = false) (hc : c ≠ ':') : readName (u ++ c :: v) = none := by
  cases h : readName (u ++ c :: v) with
  | none => rfl
  | some x =>
      obtain ⟨⟨stem, gap⟩, r⟩ := x
      obtain ⟨he, hs, hg⟩ := readName_eq_some_iff.1 h
      have hmem : c ∉ '-' :: '-' :: stem ++ gap := by
        intro hm
        simp only [List.cons_append, List.mem_cons, List.mem_append] at hm
        rcases hm with rfl | rfl | hm | hm
        · cases hl
        · cases hl
        · rw [hs c hm] at hl
          cases hl
        · rw [hg c hm] at hb
          cases hb
      rcases List.append_eq_append_iff.1 he with ⟨w, hw, hr⟩ | ⟨w, hw, hr⟩
      · cases w with
        | nil => exact absurd (List.cons.inj hr).1 hc
        | cons d w =>
            obtain ⟨rfl, _⟩ := List.cons.inj hr
            exact absurd (hw ▸ by simp) hmem
      · cases w with
        | nil => exact absurd (List.cons.inj hr).1.symm hc
        | cons d w =>
            obtain ⟨rfl, _⟩ := List.cons.inj hr
            exact absurd (hw ▸ by simp) hu

/-! ## Declarations in a text -/

/-- The parts of a declaration consist of the characters that may stand in their places. -/
structure WellFormed (d : Declaration) : Prop where
  stem_ne_nil : d.stem ≠ []
  stem_legal : ∀ c ∈ d.stem, Name.isLegal c = true
  gap_blank : ∀ c ∈ d.gap, Text.isBlank c = true
  content_closed : ';' ∉ d.content

theorem read_eq_some_iff {s r : List Char} {d : Declaration} :
    read s = some (d, r) ↔ s = d.text ++ r ∧ d.WellFormed ∧ d.content ≠ [] := by
  constructor
  · intro h
    refine ⟨(text_append_of_read h).symm, ?_⟩
    unfold read at h
    split at h
    · next stem gap r' hn =>
        obtain ⟨_, hs, hg⟩ := readName_eq_some_iff.1 hn
        split at h
        · dsimp only at h
          split at h
          · cases h
          · next hne =>
              cases h
              simp only [Bool.or_eq_true, decide_eq_true_eq, not_or] at hne
              refine ⟨⟨hne.1, hs, hg, fun hc => ?_⟩, hne.2⟩
              have := List.mem_takeWhile_imp hc
              simp at this
        · cases h
    · cases h
  · rintro ⟨rfl, hd, hne⟩
    have hn : readName (d.text ++ r) = some ((d.stem, d.gap), d.content ++ ';' :: r) :=
      readName_eq_some_iff.2 ⟨by simp [text], hd.stem_legal, hd.gap_blank⟩
    simp [read, hn, Text.takeWhile_append_cons hd.content_closed, Text.dropWhile_append_cons hd.content_closed,
      hd.stem_ne_nil, hne]

theorem WellFormed.semicolon_notMem {d : Declaration} (h : d.WellFormed) :
    ';' ∉ '-' :: '-' :: d.stem ++ d.gap ++ ':' :: d.content := by
  intro hm
  simp only [List.cons_append, List.append_assoc, List.mem_cons, List.mem_append] at hm
  rcases hm with hm | hm | hm | hm | hm | hm
  · cases hm
  · cases hm
  · have := h.stem_legal _ hm
    cases this
  · have := h.gap_blank _ hm
    cases this
  · cases hm
  · exact h.content_closed hm

theorem closedBy_pattern : pattern.ClosedBy ';' where
  text_eq {_ d _} h :=
    ⟨'-' :: '-' :: d.stem ++ d.gap ++ ':' :: d.content, by simp [pattern, text],
      (read_eq_some_iff.1 h).2.1.semicolon_notMem⟩
  read_text h _ := read_eq_some_iff.2 ⟨rfl, (read_eq_some_iff.1 h).2⟩

/-- Behind a semicolon nothing matters to what is read before it. -/
theorem read_append_of_semicolon {y : List Char} (hy : ';' ∈ y) (rest : List Char) :
    read (y ++ rest) = (read y).map fun x => (x.1, x.2 ++ rest) :=
  closedBy_pattern.read_append hy rest

/-! ## The scan for declarations -/

theorem read_eq_none_of_not_dash {c : Char} {s : List Char} (hc : c ≠ '-') : read (c :: s) = none := by
  cases h : read (c :: s) with
  | none => rfl
  | some x =>
      obtain ⟨d, r⟩ := x
      obtain ⟨he, _⟩ := read_eq_some_iff.1 h
      exact absurd (List.cons.inj he).1 hc

theorem wellFormed_of_mem_all {s : String} {d : Declaration} (h : d ∈ all s) : d.WellFormed := by
  obtain ⟨t, r, hread⟩ := Text.Pattern.exists_read_of_mem_hits h
  exact (read_eq_some_iff.1 hread).2.1

theorem hits_append_of_no_dash {before : List Char} (h : '-' ∉ before) (rest : List Char) :
    pattern.hits (before ++ rest) = pattern.hits rest := by
  refine Text.Pattern.hits_append_of_none fun y hy hs => ?_
  cases y with
  | nil => exact absurd rfl hy
  | cons c y => exact read_eq_none_of_not_dash fun hc => h (hs.mem (hc ▸ List.mem_cons_self ..))

theorem hits_newline_cons (s : List Char) : pattern.hits ('\n' :: s) = pattern.hits s :=
  hits_append_of_no_dash (show '-' ∉ ['\n'] by decide) s

/-- Up to a character that no name goes past, a text without colons declares nothing. -/
theorem hits_append_of_no_colon {before rest : List Char} {c : Char} (h : ':' ∉ before)
    (hl : Name.isLegal c = false) (hb : Text.isBlank c = false) (hc : c ≠ ':') :
    pattern.hits (before ++ c :: rest) = pattern.hits (c :: rest) := by
  refine Text.Pattern.hits_append_of_none fun y _ hs => ?_
  have hy : ':' ∉ y := fun hm => h (hs.mem hm)
  have hread : read (y ++ c :: rest) = none := by
    rw [read, readName_eq_none_of_barrier hy hl hb hc]
  exact hread

theorem hits_text_append {d : Declaration} (hd : d.WellFormed) (hne : d.content ≠ []) (rest : List Char) :
    pattern.hits (d.text ++ rest) = d :: pattern.hits rest :=
  Text.Pattern.hits_of_read (p := pattern) (read_eq_some_iff.2 ⟨rfl, hd, hne⟩)

/-- After a semicolon the scan starts anew. -/
theorem hits_append_of_semicolon (s rest : List Char) :
    pattern.hits (s ++ ';' :: rest) = pattern.hits (s ++ [';']) ++ pattern.hits rest :=
  closedBy_pattern.hits_append s rest

/-! ## Declarations that fill a line -/

/-- A line holds a declaration and nothing else but white space. -/
def Fills (d : Declaration) (line : List Char) : Prop :=
  d.WellFormed ∧ ∃ before after, line = before ++ d.text ++ after ∧
    (∀ c ∈ before, Text.isBlank c = true) ∧ ∀ c ∈ after, Text.isBlank c = true

theorem declaredBy?_eq_some_iff {line : List Char} {name : String} :
    declaredBy? line = some name ↔ ∃ d : Declaration, d.Fills line ∧ d.name = name := by
  constructor
  · intro h
    unfold declaredBy? at h
    split at h
    · next stem gap r hn =>
        split at h
        · next c rest hd =>
            split at h
            · next hcond =>
                cases h
                simp only [Bool.and_eq_true, bne_iff_ne, ne_eq, List.all_eq_true] at hcond
                obtain ⟨he, hs, hg⟩ := readName_eq_some_iff.1 hn
                have hc : c = ';' := by simpa [hd] using List.head?_dropWhile_not (· != ';') r
                have hr : r.takeWhile (· != ';') ++ ';' :: rest = r := by
                  have := List.takeWhile_append_dropWhile (p := (· != ';')) (l := r)
                  rwa [hd, hc] at this
                have hm : ';' ∉ r.takeWhile (· != ';') := by
                  intro hm
                  have := List.mem_takeWhile_imp hm
                  simp at this
                generalize r.takeWhile (· != ';') = content at hr hm
                refine ⟨⟨stem, gap, content⟩, ⟨⟨hcond.1, hs, hg, hm⟩, line.takeWhile Text.isBlank, rest, ?_,
                  fun c hc => List.mem_takeWhile_imp hc, hcond.2⟩, rfl⟩
                calc
                  line = line.takeWhile Text.isBlank ++ Text.trimStart line := List.takeWhile_append_dropWhile.symm
                  _ = line.takeWhile Text.isBlank ++ (⟨stem, gap, content⟩ : Declaration).text ++ rest := by
                    rw [he, ← hr]
                    simp [text]
            · cases h
        · cases h
    · cases h
  · rintro ⟨d, ⟨hd, before, after, rfl, hb, ha⟩, rfl⟩
    have htrim : Text.trimStart (before ++ d.text ++ after) = d.text ++ after := by
      rw [List.append_assoc]
      exact Text.dropWhile_append_of_stop hb fun c hc => by cases hc; rfl
    have hn : readName (d.text ++ after) = some ((d.stem, d.gap), d.content ++ ';' :: after) :=
      readName_eq_some_iff.2 ⟨by simp [text], hd.stem_legal, hd.gap_blank⟩
    simp only [declaredBy?, htrim, hn, Text.dropWhile_append_cons hd.content_closed]
    rw [if_pos (by simpa [hd.stem_ne_nil] using ha), name]

theorem dash_notMem_of_blank {s : List Char} (h : ∀ c ∈ s, Text.isBlank c = true) : '-' ∉ s := by
  intro hm
  cases h _ hm

/-- Where a line begins with the scan at rest, its declaration is found if its value is not empty. -/
theorem Fills.hits_append {d : Declaration} {line : List Char} (h : d.Fills line) (hne : d.content ≠ [])
    (rest : List Char) : pattern.hits (line ++ rest) = d :: pattern.hits rest := by
  obtain ⟨hd, before, after, rfl, hb, ha⟩ := h
  rw [List.append_assoc, List.append_assoc, hits_append_of_no_dash (dash_notMem_of_blank hb), hits_text_append hd hne,
    hits_append_of_no_dash (dash_notMem_of_blank ha)]

end Declaration

end DesignTokens
