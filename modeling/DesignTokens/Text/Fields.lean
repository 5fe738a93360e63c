/-!
Texts as fields between separators. Main statement: joining the fields with the separator gives the text back.
-/

namespace DesignTokens.Text

/-- The stretches between separators, empty ones included: one more than there are separators. -/
def fields (sep : Char) : List Char → List (List Char)
  | [] => [[]]
  | c :: s =>
    if c = sep then [] :: fields sep s
    else
      match fields sep s with
      | [] => [[c]]
      | f :: fs => (c :: f) :: fs

theorem fields_ne_nil (sep : Char) (s : List Char) : fields sep s ≠ [] := by
  cases s with
  | nil => simp [fields]
  | cons c s => simp only [fields]; split <;> (try split) <;> simp

/-- The texts in order, with `sep` between them. -/
def join (sep : List Char) : List (List Char) → List Char
  | [] => []
  | [f] => f
  | f :: g :: fs => f ++ sep ++ join sep (g :: fs)

theorem join_fields (sep : Char) (s : List Char) : join [sep] (fields sep s) = s := by
  induction s with
  | nil => rfl
  | cons c s ih =>
    simp only [fields]
    split
    · next h =>
      obtain ⟨f, fs, hf⟩ := List.exists_cons_of_ne_nil (fields_ne_nil sep s)
      rw [hf] at ih ⊢
      simp [join, ih, h]
    · split
      · next hf => exact absurd hf (fields_ne_nil sep s)
      · next f fs hf =>
        rw [hf] at ih
        cases fs with
        | nil => simpa [join] using ih
        | cons g fs => simpa [join] using ih

/-- The fields of a string. -/
def fieldsOf (sep : Char) (s : String) : List String := (fields sep s.toList).map String.ofList

/-- Strings in order, with `sep` between them. -/
def joinWith (sep : Char) (ss : List String) : String := .ofList (join [sep] (ss.map String.toList))

theorem joinWith_fieldsOf (sep : Char) (s : String) : joinWith sep (fieldsOf sep s) = s := by
  have h : (fieldsOf sep s).map String.toList = fields sep s.toList := by simp [fieldsOf, Function.comp_def]
  rw [joinWith, h, join_fields, String.ofList_toList]

end DesignTokens.Text
