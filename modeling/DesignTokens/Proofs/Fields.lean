import DesignTokens.Text.Fields

/-!
# Fields and their separators

No field contains the separator, a text put together from such fields has them back, and a separator between two texts
divides their fields.
-/

namespace DesignTokens.Text

variable {sep : Char}

theorem fields_of_notMem {f : List Char} (h : sep ∉ f) : fields sep f = [f] := by
  induction f with
  | nil => rfl
  | cons c f ih =>
      obtain ⟨hc, hf⟩ : sep ≠ c ∧ sep ∉ f := by simpa using h
      rw [fields, if_neg (Ne.symm hc), ih hf]

theorem fields_append_sep (s t : List Char) : fields sep (s ++ sep :: t) = fields sep s ++ fields sep t := by
  induction s with
  | nil => simp [fields]
  | cons c s ih =>
      rw [List.cons_append, fields, fields, ih]
      by_cases hc : c = sep
      · rw [if_pos hc, if_pos hc, List.cons_append]
      · obtain ⟨f, fs, hf⟩ := List.exists_cons_of_ne_nil (fields_ne_nil sep s)
        simp only [hf, if_neg hc, List.cons_append]

theorem fields_append_cons {f : List Char} (h : sep ∉ f) (s : List Char) :
    fields sep (f ++ sep :: s) = f :: fields sep s := by
  rw [fields_append_sep, fields_of_notMem h, List.singleton_append]

theorem fields_join {fs : List (List Char)} (hne : fs ≠ []) (h : ∀ f ∈ fs, sep ∉ f) :
    fields sep (join [sep] fs) = fs := by
  induction fs with
  | nil => exact absurd rfl hne
  | cons f fs ih =>
      obtain ⟨hf, hfs⟩ := List.forall_mem_cons.1 h
      cases fs with
      | nil => rw [join, fields_of_notMem hf]
      | cons g gs =>
          rw [join, List.append_assoc, List.singleton_append, fields_append_cons hf, ih (List.cons_ne_nil g gs) hfs]

theorem notMem_of_mem_fields {f s : List Char} (h : f ∈ fields sep s) : sep ∉ f := by
  induction s generalizing f with
  | nil =>
      rw [fields, List.mem_singleton] at h
      simp [h]
  | cons c s ih =>
      rw [fields] at h
      split at h
      · rcases List.mem_cons.1 h with rfl | h
        · simp
        · exact ih h
      · next hc =>
          split at h
          · next hnil => exact absurd hnil (fields_ne_nil sep s)
          · next g gs hg =>
              rcases List.mem_cons.1 h with rfl | h
              · have hm : sep ∉ g := ih (hg ▸ List.mem_cons_self ..)
                simp [Ne.symm hc, hm]
              · exact ih (hg ▸ List.mem_cons_of_mem _ h)

/-- The fields that are picked out of a text are the fields of the text they make. -/
theorem fields_join_filter {keep : List Char → Bool} {s : List Char} (h : (fields sep s).filter keep ≠ []) :
    fields sep (join [sep] ((fields sep s).filter keep)) = (fields sep s).filter keep :=
  fields_join h fun _ hf => notMem_of_mem_fields (List.mem_filter.1 hf).1

theorem exists_append_cons_notMem {s : List Char} (h : sep ∈ s) : ∃ a b, s = a ++ sep :: b ∧ sep ∉ b := by
  obtain ⟨a, b, hs, ha⟩ := List.eq_append_cons_of_mem (List.mem_reverse.2 h)
  exact ⟨b.reverse, a.reverse, by simpa using congrArg List.reverse hs, by simpa using ha⟩

/-- Wherever a text is cut, a field lies across. -/
theorem exists_mem_fields_append (sep : Char) (s t : List Char) :
    ∃ before a b after, s = before ++ a ∧ t = b ++ after ∧ a ++ b ∈ fields sep (s ++ t) ∧
      ∀ c ∈ after.head?, c = sep := by
  obtain ⟨before, a, rfl, ha, hfields⟩ : ∃ before a, s = before ++ a ∧ sep ∉ a ∧
      ∀ f ∈ fields sep (a ++ t), f ∈ fields sep (s ++ t) := by
    by_cases hs : sep ∈ s
    · obtain ⟨before, a, rfl, ha⟩ := exists_append_cons_notMem hs
      refine ⟨before ++ [sep], a, by simp, ha, fun f hf => ?_⟩
      rw [List.append_assoc, List.cons_append, fields_append_sep]
      exact List.mem_append_right _ hf
    · exact ⟨[], s, rfl, hs, fun _ => id⟩
  by_cases ht : sep ∈ t
  · obtain ⟨b, after, rfl, hb⟩ := List.eq_append_cons_of_mem ht
    refine ⟨before, a, b, sep :: after, rfl, rfl, hfields _ ?_, fun c hc => by cases hc; rfl⟩
    rw [← List.append_assoc, fields_append_cons (by simp [ha, hb])]
    exact List.mem_cons_self ..
  · refine ⟨before, a, t, [], rfl, by simp, hfields _ ?_, nofun⟩
    rw [fields_of_notMem (by simp [ha, ht])]
    exact List.mem_singleton.2 rfl

theorem join_concat (sep : List Char) (fs : List (List Char)) (last : List Char) :
    join sep (fs ++ [last]) = fs.flatMap (· ++ sep) ++ last := by
  induction fs with
  | nil => rfl
  | cons f fs ih =>
      have hne : fs ++ [last] ≠ [] := List.append_ne_nil_of_right_ne_nil fs (List.cons_ne_nil last [])
      obtain ⟨g, gs, hg⟩ := List.exists_cons_of_ne_nil hne
      rw [List.cons_append, hg, join, ← hg, ih]
      simp

theorem length_le_length_join (sep : List Char) {f : List Char} {fs : List (List Char)} (h : f ∈ fs) :
    f.length ≤ (join sep fs).length := by
  induction fs with
  | nil => cases h
  | cons g gs ih =>
      cases gs with
      | nil =>
          obtain rfl := List.mem_singleton.1 h
          exact Nat.le_refl _
      | cons g' gs =>
          rw [join, List.length_append, List.length_append]
          rcases List.mem_cons.1 h with rfl | h
          · omega
          · have := ih h
            omega

theorem length_le_length_join_singleton (sep : Char) (fs : List (List Char)) :
    fs.length ≤ (join [sep] fs).length + 1 := by
  induction fs with
  | nil => exact Nat.zero_le _
  | cons f fs ih =>
      cases fs with
      | nil => simp
      | cons g gs =>
          simp only [join, List.length_append, List.length_cons, List.length_nil] at ih ⊢
          omega

end DesignTokens.Text
