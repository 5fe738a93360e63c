import DesignTokens.Text.Blank
import Mathlib.Data.List.TakeWhile

/-!
# Stretches of characters and the white space around a text

A stretch of characters ends where another one begins. Trimming takes off the blank stretches at both ends of a text and
nothing else.
-/

namespace DesignTokens.Text

/-! ## Stretches -/

section Stretches

variable {q : Char → Bool} {a b : List Char}

theorem takeWhile_append_of_stop (ha : ∀ c ∈ a, q c = true) (hb : ∀ c ∈ b.head?, q c = false) :
    (a ++ b).takeWhile q = a := by
  rw [List.takeWhile_append_of_pos ha]
  cases b with
  | nil => simp
  | cons c b => simp [hb c rfl]

theorem dropWhile_append_of_stop (ha : ∀ c ∈ a, q c = true) (hb : ∀ c ∈ b.head?, q c = false) :
    (a ++ b).dropWhile q = b := by
  rw [List.dropWhile_append_of_pos ha]
  cases b with
  | nil => rfl
  | cons c b => simp [hb c rfl]

theorem takeWhile_append_cons {c : Char} (ha : c ∉ a) : (a ++ c :: b).takeWhile (· != c) = a :=
  takeWhile_append_of_stop (fun d hd => bne_iff_ne.2 fun he => ha (he ▸ hd)) fun d hd => by cases hd; simp

theorem dropWhile_append_cons {c : Char} (ha : c ∉ a) : (a ++ c :: b).dropWhile (· != c) = c :: b :=
  dropWhile_append_of_stop (fun d hd => bne_iff_ne.2 fun he => ha (he ▸ hd)) fun d hd => by cases hd; simp

end Stretches

/-! ## White space around a text -/

variable {c : Char} {s before after : List Char}

/-- What is trimmed off on either side is blank. -/
theorem exists_eq_trim (s : List Char) : ∃ before after, s = before ++ trim s ++ after ∧
    (∀ c ∈ before, isBlank c = true) ∧ ∀ c ∈ after, isBlank c = true := by
  refine ⟨s.takeWhile isBlank, ((trimStart s).reverse.takeWhile isBlank).reverse, ?_,
    fun c hc => List.mem_takeWhile_imp hc, fun c hc => List.mem_takeWhile_imp (List.mem_reverse.1 hc)⟩
  have hend : trim s ++ ((trimStart s).reverse.takeWhile isBlank).reverse = trimStart s := by
    rw [trim, trimEnd, ← List.reverse_append, List.takeWhile_append_dropWhile, List.reverse_reverse]
  rw [List.append_assoc, hend, trimStart, List.takeWhile_append_dropWhile]

theorem mem_trim (hc : isBlank c = false) : c ∈ trim s ↔ c ∈ s := by
  obtain ⟨before, after, hs, hbefore, hafter⟩ := exists_eq_trim s
  have hne : ∀ {t : List Char}, (∀ d ∈ t, isBlank d = true) → c ∉ t := fun ht hm => by
    rw [ht c hm] at hc
    cases hc
  constructor
  · intro h
    rw [hs]
    exact List.mem_append_left _ (List.mem_append_right _ h)
  · intro h
    rw [hs] at h
    simpa [hne hbefore, hne hafter] using h

/-- No white space stands at either end of the text. -/
structure Trimmed (s : List Char) : Prop where
  head : ∀ c ∈ s.head?, isBlank c = false
  last : ∀ c ∈ s.getLast?, isBlank c = false

theorem Trimmed.of_cons_concat {d : Char} (hc : isBlank c = false) (hd : isBlank d = false) :
    Trimmed (c :: s ++ [d]) := by
  refine ⟨fun e he => ?_, fun e he => ?_⟩
  · cases he
    exact hc
  · rw [List.getLast?_concat] at he
    cases he
    exact hd

theorem Trimmed.trim_eq (h : Trimmed s) (hbefore : ∀ c ∈ before, isBlank c = true)
    (hafter : ∀ c ∈ after, isBlank c = true) : trim (before ++ s ++ after) = s := by
  cases s with
  | nil =>
      have hblank : ∀ c ∈ before ++ [] ++ after, isBlank c = true := by
        rw [List.append_nil]
        exact fun c hc => (List.mem_append.1 hc).elim (hbefore c) (hafter c)
      rw [trim, trimStart, List.dropWhile_eq_nil_iff.2 hblank]
      rfl
  | cons d s =>
      have hstart : trimStart (before ++ (d :: s ++ after)) = d :: s ++ after :=
        dropWhile_append_of_stop hbefore h.head
      have hlast : ∀ c ∈ (d :: s).reverse.head?, isBlank c = false := by
        rw [List.head?_reverse]
        exact h.last
      rw [trim, List.append_assoc, hstart, trimEnd, List.reverse_append,
        dropWhile_append_of_stop (fun c hc => hafter c (List.mem_reverse.1 hc)) hlast, List.reverse_reverse]

end DesignTokens.Text
