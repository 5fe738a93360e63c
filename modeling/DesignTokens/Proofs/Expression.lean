import DesignTokens.Proofs.Blank
import DesignTokens.Proofs.Names
import DesignTokens.Sheet.Expression

/-!
# Kinds of expressions

Which texts are lookups and which are numbers, and what becomes of a text that is neither and has a dash.
-/

namespace DesignTokens

namespace Sheet

open Text

variable {s : List Char}

/-! ## Lookups -/

theorem isLookup_iff : isLookup s = true ↔
    ∃ stem, s = ['v', 'a', 'r', '(', '-', '-'] ++ stem ++ [')'] ∧ stem ≠ [] ∧ ∀ c ∈ stem, Name.isLegal c = true := by
  constructor
  · intro h
    unfold isLookup at h
    split at h
    · next r hr =>
        simp only [Bool.and_eq_true, bne_iff_ne, beq_iff_eq] at h
        refine ⟨r.takeWhile Name.isLegal, ?_, h.1, fun c hc => List.mem_takeWhile_imp hc⟩
        rw [dropLit?_eq_some_iff.1 hr, List.append_assoc, ← h.2, List.takeWhile_append_dropWhile]
    · cases h
  · rintro ⟨stem, rfl, hne, hlegal⟩
    have hclose : ∀ c ∈ [')'].head?, Name.isLegal c = false := by
      intro c hc
      cases hc
      rfl
    have hdrop : dropLit? ['v', 'a', 'r', '(', '-', '-'] (['v', 'a', 'r', '(', '-', '-'] ++ stem ++ [')']) =
        some (stem ++ [')']) := dropLit?_eq_some_iff.2 (List.append_assoc ..)
    rw [isLookup, hdrop]
    simp [takeWhile_append_of_stop hlegal hclose, dropWhile_append_of_stop hlegal hclose, hne]

theorem isLookup_lookup (a : Address) : isLookup a.lookup.toList = true := by
  obtain ⟨stem, hstem, hne, hlegal⟩ := a.isProper_variableName
  refine isLookup_iff.2 ⟨stem, ?_, hne, hlegal⟩
  rw [Address.lookup, hstem]
  simp

theorem trimmed_of_isLookup (h : isLookup s = true) : Trimmed s := by
  obtain ⟨stem, rfl, _⟩ := isLookup_iff.1 h
  exact .of_cons_concat rfl rfl

theorem dash_mem_of_isLookup (h : isLookup s = true) : '-' ∈ s := by
  obtain ⟨stem, rfl, _⟩ := isLookup_iff.1 h
  simp

/-! ## Numbers -/

theorem dash_notMem_of_isNumber (h : isNumber s = true) : '-' ∉ s := by
  have hdigits : ∀ {t : List Char}, t.all Char.isDigit = true → '-' ∉ t := fun ht hm => by
    cases List.all_eq_true.1 ht _ hm
  have htake : '-' ∉ s.takeWhile Char.isDigit := fun hm => by cases List.mem_takeWhile_imp hm
  rw [← List.takeWhile_append_dropWhile (p := Char.isDigit) (l := s)]
  rw [isNumber, Bool.and_eq_true] at h
  refine List.not_mem_append htake ?_
  cases hdrop : s.dropWhile Char.isDigit with
  | nil => simp
  | cons c places =>
      simp only [hdrop, Bool.and_eq_true, beq_iff_eq] at h
      obtain ⟨_, ⟨rfl, _⟩, hplaces⟩ := h
      simpa using hdigits hplaces

/-! ## What becomes of a text -/

theorem expression_of_isLookup (h : isLookup (trim s) = true) : expression s = trim s := if_pos h

theorem expression_of_dash (h : ¬isLookup (trim s) = true) (hdash : '-' ∈ s) :
    expression s = ['c', 'a', 'l', 'c', '('] ++ s ++ [')'] := by
  have hnumber : ¬isNumber (trim s) = true := fun hn => dash_notMem_of_isNumber hn ((mem_trim rfl).2 hdash)
  have hoperator : s.any isOperator = true := List.any_eq_true.2 ⟨'-', hdash, rfl⟩
  simp only [expression, if_neg h, if_neg hnumber, if_pos hoperator]

end Sheet

end DesignTokens
