import DesignTokens.Proofs.JsonTexts
import DesignTokens.Proofs.Readings

/-!
# Values that were written

The text of a value without blanks is read back as the value, if the value is held for texts and all its numbers are
integers. Arrays and objects are both parts with commas between them, which are read back if each part is.
-/

namespace DesignTokens.Json

variable {α : Type} {rest : List Char}

mutual

/-- Whether all numbers of a value are integers. -/
def isIntegral : Json → Bool
  | number (.binary _) => false
  | array items => areIntegral items
  | object members => holdIntegral members
  | _ => true

/-- Whether all numbers of items are integers. -/
def areIntegral : List Json → Bool
  | [] => true
  | j :: rest => isIntegral j && areIntegral rest

/-- Whether all numbers of members are integers. -/
def holdIntegral : List (String × Json) → Bool
  | [] => true
  | (_, j) :: rest => isIntegral j && holdIntegral rest

end

theorem areIntegral_iff {items : List Json} : areIntegral items = true ↔ ∀ j ∈ items, j.isIntegral = true := by
  induction items with
  | nil => simp [areIntegral]
  | cons j rest ih => simp [areIntegral, ih]

theorem holdIntegral_iff {members : List (String × Json)} :
    holdIntegral members = true ↔ ∀ m ∈ members, m.2.isIntegral = true := by
  induction members with
  | nil => simp [holdIntegral]
  | cons m rest ih => simp [holdIntegral, ih]

/-! ## Texts as joined parts -/

/-- The text of a member of an object. -/
def memberText (m : String × Json) : List Char := quote m.1 ++ ':' :: compact m.2

theorem compactItems_eq_join (items : List Json) : compactItems items = Text.join [','] (items.map compact) := by
  induction items with
  | nil => rfl
  | cons j rest ih =>
      cases rest with
      | nil => rfl
      | cons k rest => simp only [compactItems, ih, List.map_cons, Text.join, List.append_assoc, List.singleton_append]

theorem compactMembers_eq_join (members : List (String × Json)) :
    compactMembers members = Text.join [','] (members.map memberText) := by
  induction members with
  | nil => rfl
  | cons m rest ih =>
      cases rest with
      | nil => rfl
      | cons n rest =>
          simp only [compactMembers, ih, List.map_cons, Text.join, memberText, List.append_assoc, List.cons_append,
            List.nil_append]

theorem compact_array (items : List Json) : compact (array items) = '[' :: Text.join [','] (items.map compact) ++ [']'] := by
  rw [compact, compactItems_eq_join]

theorem compact_object (members : List (String × Json)) :
    compact (object members) = '{' :: Text.join [','] (members.map memberText) ++ ['}'] := by
  rw [compact, compactMembers_eq_join]

/-! ## Values -/

theorem begins_numberText (n : Int) :
    ∃ c s, (Number.integer n).text = c :: s ∧ (c = '-' ∨ c.isDigit = true) := by
  obtain ⟨d, ds, hd, hdigit⟩ := exists_toDigits_eq_cons n.natAbs
  by_cases hneg : n < 0
  · exact ⟨'-', _, by rw [Number.text, if_pos hneg], .inl rfl⟩
  · exact ⟨d, ds, by rw [Number.text, if_neg hneg, hd], .inr hdigit⟩

theorem begins_compact {j : Json} (h : j.isIntegral = true) : Begins (compact j) := by
  cases j with
  | null => exact ⟨'n', _, rfl, by decide⟩
  | bool b => cases b <;> exact ⟨_, _, rfl, by decide⟩
  | number n =>
      cases n with
      | binary x => cases h
      | integer n =>
          obtain ⟨c, s, htext, rfl | hdigit⟩ := begins_numberText n
          · exact ⟨_, s, htext, by decide⟩
          · exact ⟨c, s, htext, isSpace_of_isDigit hdigit, ne_of_isDigit hdigit rfl, ne_of_isDigit hdigit rfl⟩
  | text s => exact ⟨'"', _, rfl, by decide⟩
  | array items => exact ⟨'[', _, compact_array items, by decide⟩
  | object members => exact ⟨'{', _, compact_object members, by decide⟩

theorem begins_memberText (m : String × Json) : Begins (memberText m) := ⟨'"', _, rfl, by decide⟩

theorem skips_value (size depth : Nat) : Skips (value size depth) := by
  cases depth with
  | zero => exact skips_peek _
  | succ depth => exact skips_peek _

theorem skips_member (item : Reader α) : Skips (member item) := Skips.bind (skips_peek _) _

theorem value_atom {c : Char} (hspace : isSpace c = false) (hbracket : c ≠ '[') (hbrace : c ≠ '{')
    (size depth : Nat) (s : List Char) : value size depth (c :: s) = atom c (c :: s) := by
  cases depth with
  | zero => rw [value, Reader.bind_of_ok (peek_cons hspace s)]
  | succ depth =>
      rw [value, Reader.bind_of_ok (peek_cons hspace s)]
      simp only [hbracket, hbrace, if_false]

theorem value_bracket (size depth : Nat) (s : List Char) :
    value size (depth + 1) ('[' :: s) =
      (do return array (← listUntil ']' (size + 1) (value size depth)) : Reader Json) s := by
  rw [value, Reader.bind_of_ok (peek_cons rfl s)]
  simp only [if_true]
  exact Reader.bind_of_ok (advance_cons '[' s)

theorem value_brace (size depth : Nat) (s : List Char) :
    value size (depth + 1) ('{' :: s) =
      (do return object (Assoc.ofList (← listUntil '}' (size + 1) (member (value size depth)))) : Reader Json) s := by
  have hne : '{' ≠ '[' := by decide
  rw [value, Reader.bind_of_ok (peek_cons rfl s)]
  simp only [hne, if_false, if_true]
  exact Reader.bind_of_ok (advance_cons '{' s)

theorem value_number {n : Int} (hn : IsExact n) (size depth : Nat) (h : EndsNumber rest) :
    value size depth ((Number.integer n).text ++ rest) = .ok (number (.integer n), rest) := by
  have hnumber := numberLexeme_text hn h
  obtain ⟨c, s, htext, hc⟩ := begins_numberText n
  rw [htext, List.cons_append] at hnumber ⊢
  have hne : ∀ d : Char, d ≠ '-' → d.isDigit = false → c ≠ d := by
    rintro d hminus hdigit rfl
    rcases hc with rfl | hc
    · exact hminus rfl
    · rw [hdigit] at hc; cases hc
  have hspace : isSpace c = false := by
    rcases hc with rfl | hc
    · rfl
    · exact isSpace_of_isDigit hc
  have hlead : (c = '-' || c.isDigit) = true := by simpa using hc
  rw [value_atom hspace (hne _ (by decide) rfl) (hne _ (by decide) rfl), atom, if_neg (hne _ (by decide) rfl),
    if_neg (hne _ (by decide) rfl), if_neg (hne _ (by decide) rfl), if_neg (hne _ (by decide) rfl), if_pos hlead,
    Reader.bind_of_ok hnumber]
  rfl

theorem value_quote (s : String) (size depth : Nat) : value size depth (quote s ++ rest) = .ok (text s, rest) := by
  rw [quote, List.cons_append, List.cons_append, List.append_assoc, List.singleton_append,
    value_atom rfl (by decide) (by decide), atom, if_neg (by decide), if_neg (by decide), if_neg (by decide), if_pos rfl,
    Reader.bind_of_ok (advance_cons ..), Reader.bind_of_ok (stringLexeme_append (spells_flatMap s.toList) rest)]
  rfl

theorem member_memberText {item : Reader Json} {m : String × Json}
    (h : item (compact m.2 ++ rest) = .ok (m.2, rest)) : member item (memberText m ++ rest) = .ok (m, rest) := by
  have hkey : key (quote m.1 ++ ':' :: (compact m.2 ++ rest)) = .ok (m.1, ':' :: (compact m.2 ++ rest)) := by
    have hread := key_append (spells_flatMap m.1.toList) (':' :: (compact m.2 ++ rest))
    rwa [quote, List.cons_append, List.cons_append, List.append_assoc, List.singleton_append]
  have hcolon : colon (':' :: (compact m.2 ++ rest)) = .ok ((), compact m.2 ++ rest) := colon_append blanks_nil _
  rw [member, memberText, List.append_assoc, List.cons_append, Reader.bind_of_ok hkey, Reader.bind_of_ok hcolon,
    Reader.bind_of_ok h]
  rfl

/-- An array is read back if its items are. -/
theorem value_compact_array {size depth : Nat} {items : List Json} (hsize : (compact (array items)).length ≤ size)
    (hbegin : ∀ j ∈ items, Begins (compact j))
    (hitem : ∀ j ∈ items, (compact j).length ≤ size →
      ∀ s, EndsNumber s → value size depth (compact j ++ s) = .ok (j, s)) :
    value size (depth + 1) (compact (array items) ++ rest) = .ok (array items, rest) := by
  rw [compact_array] at hsize ⊢
  simp only [List.length_cons, List.length_append, List.length_nil] at hsize
  -- The commas alone make the text as long as the fuel has to be.
  have hfuel : items.length ≤ size + 1 := by
    have := Text.length_le_length_join_singleton ',' (items.map compact)
    rw [List.length_map] at this
    omega
  have hlength : ∀ j ∈ items, (compact j).length ≤ size := by
    intro j hj
    have := Text.length_le_length_join [','] (List.mem_map_of_mem (f := compact) hj)
    omega
  have hlist := listUntil_join (.inl rfl) (skips_value size depth) hfuel hbegin
    (fun j hj => hitem j hj (hlength j hj)) rest
  rw [List.cons_append, List.cons_append, List.append_assoc, List.singleton_append, value_bracket,
    Reader.bind_of_ok hlist]
  rfl

/-- An object whose keys increase is read back if its values are. -/
theorem value_compact_object {size depth : Nat} {members : List (String × Json)}
    (hsize : (compact (object members)).length ≤ size) (hsorted : Assoc.Sorted members)
    (hitem : ∀ m ∈ members, (compact m.2).length ≤ size →
      ∀ s, EndsNumber s → value size depth (compact m.2 ++ s) = .ok (m.2, s)) :
    value size (depth + 1) (compact (object members) ++ rest) = .ok (object members, rest) := by
  rw [compact_object] at hsize ⊢
  simp only [List.length_cons, List.length_append, List.length_nil] at hsize
  have hfuel : members.length ≤ size + 1 := by
    have := Text.length_le_length_join_singleton ',' (members.map memberText)
    rw [List.length_map] at this
    omega
  have hlength : ∀ m ∈ members, (compact m.2).length ≤ size := by
    intro m hm
    have := Text.length_le_length_join [','] (List.mem_map_of_mem (f := memberText) hm)
    simp only [memberText, List.length_append, List.length_cons] at this
    omega
  have hlist := listUntil_join (.inr rfl) (skips_member _) hfuel (fun m _ => begins_memberText m)
    (fun m hm s hs => member_memberText (hitem m hm (hlength m hm) s hs)) rest
  -- The members were written in the order of their keys, so they are bound again as they stand.
  rw [List.cons_append, List.cons_append, List.append_assoc, List.singleton_append, value_brace,
    Reader.bind_of_ok hlist, Assoc.ofList_eq_self hsorted]
  rfl

/-- A value is read back from its text. -/
theorem value_compact {size depth : Nat} {j : Json} (hj : Held depth j) (hi : j.isIntegral = true)
    (hsize : (compact j).length ≤ size) (h : EndsNumber rest) :
    value size depth (compact j ++ rest) = .ok (j, rest) := by
  induction hj generalizing rest with
  | null => exact (value_atom rfl (by decide) (by decide) ..).trans rfl
  | bool b => cases b <;> exact (value_atom rfl (by decide) (by decide) ..).trans rfl
  | integer hn => exact value_number hn size _ h
  | binary x => cases hi
  | text s => exact value_quote s size _
  | array _ ih =>
      rw [isIntegral, areIntegral_iff] at hi
      exact value_compact_array hsize (fun j hj => begins_compact (hi j hj))
        fun j hj hlength s hs => ih j hj (hi j hj) hlength hs
  | object hsorted _ ih =>
      rw [isIntegral, holdIntegral_iff] at hi
      exact value_compact_object hsize hsorted fun m hm hlength s hs => ih m hm (hi m hm) hlength hs

end DesignTokens.Json
