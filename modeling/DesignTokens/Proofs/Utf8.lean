import DesignTokens.Text.Utf8
import Mathlib.Data.List.Basic

/-!
# Texts read from bytes

The bytes of a text are read as that text. In whatever else is read from bytes, characters of one byte stand for bytes
that are there.
-/

namespace DesignTokens.Text

variable {s t : String} {cs : List Char} {bs : List UInt8} {c : Char} {n : Nat}

/-! ## Characters -/

/-- A character is written as the byte of its number, or else with bytes that are not those of such characters. -/
theorem utf8EncodeChar_cases (c : Char) :
    c.toNat < 128 ∧ String.utf8EncodeChar c = [c.toUInt8] ∨
      128 ≤ c.toNat ∧ ∀ b ∈ String.utf8EncodeChar c, 128 ≤ b.toNat := by
  have hc : c.val.toNat = c.toNat := rfl
  rw [String.utf8EncodeChar, hc]
  split
  · next h => exact .inl ⟨by omega, rfl⟩
  · next h =>
    refine .inr ⟨by omega, ?_⟩
    split
    on_goal 2 => split
    all_goals
      simp only [List.forall_mem_cons, List.not_mem_nil, false_imp_iff, implies_true, and_true, UInt8.toNat_ofNat']
      omega

theorem decodeChar?_eq_some_iff : decodeChar? bs = some c ↔ ∃ rest, bs = String.utf8EncodeChar c ++ rest := by
  constructor
  · intro h
    obtain ⟨rest, hrest⟩ := ByteArray.exists_of_utf8DecodeChar?_eq_some h
    have hdata := congrArg (fun b : ByteArray => b.data.toList) hrest
    exact ⟨rest.data.toList, by simpa using hdata⟩
  · rintro ⟨rest, rfl⟩
    rw [decodeChar?, List.toByteArray_append]
    exact ByteArray.utf8DecodeChar?_utf8EncodeChar_append

/-! ## Texts -/

theorem decodeAfter_eq_drop (n : Nat) (bs : List UInt8) : decodeAfter n bs = decodeAfter 0 (bs.drop n) := by
  induction n generalizing bs with
  | zero => rfl
  | succ n ih =>
      cases bs with
      | nil => rfl
      | cons b bs => exact ih bs

theorem decodeAfter_utf8EncodeChar_append (c : Char) (bs : List UInt8) :
    decodeAfter 0 (String.utf8EncodeChar c ++ bs) = c :: decodeAfter 0 bs := by
  obtain ⟨b, tail, htail⟩ := List.exists_cons_of_ne_nil (String.utf8EncodeChar_ne_nil (c := c))
  have hchar : decodeChar? (b :: (tail ++ bs)) = some c := decodeChar?_eq_some_iff.2 ⟨bs, by rw [htail]; rfl⟩
  have hlength : tail.length = c.utf8Size - 1 := by
    rw [← String.length_utf8EncodeChar, htail, List.length_cons, Nat.add_sub_cancel]
  rw [htail, List.cons_append, decodeAfter, hchar]
  dsimp only
  rw [decodeAfter_eq_drop, ← hlength, List.drop_left]

theorem decode_utf8 (s : String) : decode (utf8 s) = s := by
  have hchars : ∀ cs : List Char, decodeAfter 0 (cs.flatMap String.utf8EncodeChar) = cs := by
    intro cs
    induction cs with
    | nil => rfl
    | cons c cs ih => rw [List.flatMap_cons, decodeAfter_utf8EncodeChar_append, ih]
  rw [decode, utf8, hchars, String.ofList_toList]

theorem utf8_inj : utf8 s = utf8 t ↔ s = t := by
  refine ⟨fun h => ?_, congrArg utf8⟩
  rw [← decode_utf8 s, h, decode_utf8]

theorem toUInt8_mem_of_mem_decodeAfter (hc : c.toNat < 128) (h : c ∈ decodeAfter n bs) : c.toUInt8 ∈ bs := by
  fun_induction decodeAfter n bs with
  | case1 => cases h
  | case2 n b bs ih => exact List.mem_cons_of_mem b (ih h)
  | case3 b bs d hd ih =>
      rcases List.mem_cons.1 h with rfl | h
      · obtain ⟨rest, hrest⟩ := decodeChar?_eq_some_iff.1 hd
        rcases utf8EncodeChar_cases c with ⟨_, hone⟩ | ⟨hmany, _⟩
        · rw [hrest, hone]
          exact List.mem_cons_self ..
        · omega
      · exact List.mem_cons_of_mem b (ih h)
  | case4 b bs hd ih =>
      rcases List.mem_cons.1 h with rfl | h
      · exact absurd hc (by decide)
      · exact List.mem_cons_of_mem b (ih h)

theorem toUInt8_mem_of_mem_decode (hc : c.toNat < 128) (h : c ∈ (decode bs).toList) : c.toUInt8 ∈ bs :=
  toUInt8_mem_of_mem_decodeAfter hc (by simpa [decode] using h)

example : decode [0xE2, 0x82, 0x41, 0xF0, 0x9F, 0xFF] = "\uFFFDA\uFFFD\uFFFD" := by decide +kernel

end DesignTokens.Text
