import DesignTokens.Json.Reader
import DesignTokens.Json.Writer

/-!
# Lexemes that were written

Integers of the exact range are read back in front of a text, and the text is left, which must not go on as a number
does. Strings are read character by character, escape by escape.
-/

namespace DesignTokens.Json

variable {α β : Type} {rest : List Char}

/-! ## Readers in a row -/

theorem Reader.bind_of_ok {x : Reader α} {f : α → Reader β} {s s' : List Char} {a : α} (h : x s = .ok (a, s')) :
    (x >>= f) s = f a s' := by
  simp only [bind, StateT.bind, Except.bind, h]

theorem peek_cons {c : Char} (h : isSpace c = false) (s : List Char) : peek (c :: s) = .ok (some c, c :: s) := by
  simp [peek, h]

theorem advance_cons (c : Char) (s : List Char) : advance (c :: s) = .ok ((), s) := rfl

/-! ## Integers -/

/-- The text does not go on as a number does. -/
def EndsNumber (s : List Char) : Prop := ∀ c ∈ s.head?, c.isDigit = false ∧ c ≠ '.' ∧ c ≠ 'e' ∧ c ≠ 'E'

theorem endsNumber_nil : EndsNumber [] := by simp [EndsNumber]

theorem exists_toDigits_eq_cons (n : Nat) : ∃ d ds, Nat.toDigits 10 n = d :: ds ∧ d.isDigit = true := by
  obtain ⟨d, ds, hd⟩ := List.exists_cons_of_ne_nil (Nat.toDigits_ne_nil (n := n) (b := 10))
  exact ⟨d, ds, hd, Nat.isDigit_of_mem_toDigits (by decide : 0 < 10) (by decide) (hd ▸ List.mem_cons_self ..)⟩

theorem head?_toDigits_ne_zero {n : Nat} (h : 0 < n) : (Nat.toDigits 10 n).head? ≠ some '0' := by
  induction n using Nat.strongRecOn with
  | ind n ih =>
      rcases Nat.lt_or_ge n 10 with hlt | hge
      · rw [Nat.toDigits_of_lt_base hlt, List.head?_cons, ne_eq, Option.some_inj, Nat.digitChar_eq_zero]
        omega
      · have hfirst := ih (n / 10) (by omega) (by omega)
        obtain ⟨d, ds, hd, _⟩ := exists_toDigits_eq_cons (n / 10)
        rw [Nat.toDigits_of_base_le (by decide) hge, hd]
        rwa [hd] at hfirst

theorem digits_append {ds : List Char} (hne : ds ≠ []) (hds : ∀ c ∈ ds, c.isDigit = true)
    (h : ∀ c ∈ rest.head?, c.isDigit = false) : digits (ds ++ rest) = .ok (ds, rest) := by
  have htake : rest.takeWhile Char.isDigit = [] := by
    cases rest with
    | nil => rfl
    | cons c s => rw [List.takeWhile_cons_of_neg (by simp [h c rfl])]
  have hdrop : rest.dropWhile Char.isDigit = rest := by
    cases rest with
    | nil => rfl
    | cons c s => rw [List.dropWhile_cons_of_neg (by simp [h c rfl])]
  obtain ⟨d, ds', rfl⟩ := List.exists_cons_of_ne_nil hne
  rw [digits, List.takeWhile_append_of_pos hds, List.dropWhile_append_of_pos hds, htake, hdrop, List.append_nil]

theorem wholeDigits_toDigits (n : Nat) (h : EndsNumber rest) :
    wholeDigits (Nat.toDigits 10 n ++ rest) = .ok (Nat.toDigits 10 n, rest) := by
  rcases Nat.eq_zero_or_pos n with rfl | hpos
  · have hany : rest.head?.any Char.isDigit = false := by
      cases rest with
      | nil => rfl
      | cons c s => exact (h c rfl).1
    simp [wholeDigits, hany]
  · have hzero := head?_toDigits_ne_zero hpos
    have hdigit : ∀ c ∈ Nat.toDigits 10 n, c.isDigit = true := fun c hc =>
      Nat.isDigit_of_mem_toDigits (by decide : 0 < 10) (by decide) hc
    rw [← digits_append Nat.toDigits_ne_nil hdigit fun c hc => (h c hc).1]
    obtain ⟨d, ds, hd, _⟩ := exists_toDigits_eq_cons n
    rw [hd] at hzero ⊢
    have hd0 : d ≠ '0' := by simpa using hzero
    rw [List.cons_append, wholeDigits]
    simpa using hd0

theorem fractionDigits_of_endsNumber (h : EndsNumber rest) : fractionDigits rest = .ok (none, rest) := by
  cases rest with
  | nil => rfl
  | cons c s =>
      rw [fractionDigits]
      simpa using (h c rfl).2.1

theorem exponentDigits_of_endsNumber (h : EndsNumber rest) : exponentDigits rest = .ok (none, rest) := by
  cases rest with
  | nil => rfl
  | cons c s =>
      obtain ⟨_, _, he, hE⟩ := h c rfl
      simp [exponentDigits, he, hE]

theorem digitsValue_toDigits (n : Nat) : digitsValue (Nat.toDigits 10 n) = n := by
  rw [digitsValue, ← Nat.ofDigitChars_eq_foldl]
  exact Nat.ofDigitChars_ten_toDigits

/-- The integers that are kept as they are. -/
def IsExact (n : Int) : Prop := -9223372036854775808 ≤ n ∧ n < 18446744073709551616

theorem isExact_of_value? {n : Numeral} {i : Int} (h : n.value? = some (.integer i)) : IsExact i := by
  have hbinary : ∀ (negative : Bool) (m : Nat) (e : Int),
      (Number.Binary64.ofDecimal? negative m e).map Number.binary ≠ some (.integer i) := by
    intro _ _ _ hi
    obtain ⟨_, _, hi⟩ := Option.map_eq_some_iff.1 hi
    cases hi
  simp only [Numeral.value?] at h
  split at h
  · split at h
    · split at h
      · next hrange =>
          simp only [Bool.and_eq_true, decide_eq_true_eq] at hrange
          cases h
          constructor <;> omega
      · exact absurd h (hbinary _ _ _)
    · split at h
      · cases h
        constructor <;> omega
      · exact absurd h (hbinary _ _ _)
  · exact absurd h (hbinary _ _ _)
  · exact absurd h (hbinary _ _ _)

/-- How an integer is written. -/
def integerNumeral (n : Int) : Numeral := ⟨decide (n < 0), Nat.toDigits 10 n.natAbs, none, none⟩

theorem numeral_text (n : Int) (h : EndsNumber rest) :
    numeral ((Number.integer n).text ++ rest) = .ok (integerNumeral n, rest) := by
  have hparts : ∀ negative : Bool,
      (do return ⟨negative, ← wholeDigits, ← fractionDigits, ← exponentDigits⟩ : Reader Numeral)
        (Nat.toDigits 10 n.natAbs ++ rest) = .ok (⟨negative, Nat.toDigits 10 n.natAbs, none, none⟩, rest) := by
    intro negative
    rw [Reader.bind_of_ok (wholeDigits_toDigits _ h), Reader.bind_of_ok (fractionDigits_of_endsNumber h),
      Reader.bind_of_ok (exponentDigits_of_endsNumber h)]
    rfl
  by_cases hneg : n < 0
  · simp only [Number.text, numeral, integerNumeral, hneg, if_true, decide_true, List.cons_append]
    exact hparts true
  · obtain ⟨d, ds, hd, hdigit⟩ := exists_toDigits_eq_cons n.natAbs
    have hminus : d ≠ '-' := by
      rintro rfl
      simp at hdigit
    have hparts := hparts false
    simp only [Number.text, numeral, integerNumeral, hneg, if_false, decide_false]
    rw [hd, List.cons_append] at hparts ⊢
    split
    · next heq => exact absurd (List.cons.inj heq).1 hminus
    · exact hparts

theorem value?_integerNumeral {n : Int} (h : IsExact n) : (integerNumeral n).value? = some (.integer n) := by
  obtain ⟨hlow, hhigh⟩ := h
  simp only [Numeral.value?, integerNumeral, digitsValue_toDigits]
  by_cases hneg : n < 0
  · have hrange : 0 < n.natAbs ∧ n.natAbs ≤ 9223372036854775808 := by omega
    simp only [hneg, decide_true, if_true, hrange.1, hrange.2, Bool.and_self, Option.some_inj, Number.integer.injEq]
    omega
  · have hrange : n.natAbs < 18446744073709551616 := by omega
    simp only [hneg, decide_false, Bool.false_eq_true, if_false, hrange, if_true, Option.some_inj, Number.integer.injEq]
    omega

theorem numberLexeme_text {n : Int} (hn : IsExact n) (h : EndsNumber rest) :
    numberLexeme ((Number.integer n).text ++ rest) = .ok (.integer n, rest) := by
  rw [numberLexeme, Reader.bind_of_ok (numeral_text n h), value?_integerNumeral hn]
  rfl

/-! ## Strings -/

theorem contents_cons {c : Char} (hquote : c ≠ '"') (hslash : c ≠ '\\') (h : ¬c.toNat < 0x20) (s : List Char) :
    contents (c :: s) = (contents s).map fun p => (c :: p.1, p.2) := by
  rw [contents]
  · rw [if_neg h]
  · simpa using hquote
  · simpa using hslash

theorem contents_escape {c : Char} {s s' : List Char} (h : escapeLexeme s = .ok (c, s')) :
    contents ('\\' :: s) = (contents s').map fun p => (c :: p.1, p.2) := by
  rw [contents]
  split
  · next heq => rw [h] at heq; cases heq; rfl
  · next heq => rw [h] at heq; cases heq

theorem length_le_utf8ByteSize (cs : List Char) : cs.length ≤ (String.ofList cs).utf8ByteSize := by
  induction cs with
  | nil => exact Nat.zero_le _
  | cons c cs ih =>
      have hc : 0 < c.utf8Size := c.utf8Size_pos
      rw [String.ofList_cons, String.utf8ByteSize_append, String.utf8ByteSize_singleton, List.length_cons]
      omega

theorem hexValue?_hexDigit {n : Nat} (h : n < 16) : hexValue? (hexDigit n) = some n := by
  decide +revert

theorem hexUnit_cons {a b c d : Char} {i j k l : Nat} (ha : hexValue? a = some i) (hb : hexValue? b = some j)
    (hc : hexValue? c = some k) (hd : hexValue? d = some l) (s : List Char) :
    hexUnit (a :: b :: c :: d :: s) = .ok (((i * 16 + j) * 16 + k) * 16 + l, s) := by
  have hsize : ¬(String.ofList [a, b, c, d]).utf8ByteSize < 4 := Nat.not_lt.2 (length_le_utf8ByteSize [a, b, c, d])
  simp only [hexUnit, List.take_succ_cons, List.take_zero, hsize, if_false, ha, hb, hc, hd]

end DesignTokens.Json
