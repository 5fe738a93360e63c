import DesignTokens.Assoc
import DesignTokens.Text.Blank
import DesignTokens.Text.Fields
import DesignTokens.Text.Scan
import DesignTokens.Token.Name

/-!
Declarations of custom properties in stylesheets written by hand: `--name: value;`, wherever it stands.
-/

namespace DesignTokens

/-- A declaration in a text: the name after its two dashes, the white space before the colon, and all characters
from the colon to the semicolon. -/
structure Declaration where
  stem : List Char
  gap : List Char
  content : List Char
  deriving DecidableEq

namespace Declaration

/-- The declared name. -/
def name (d : Declaration) : String := .ofList ('-' :: '-' :: d.stem)

/-- The declared value, trimmed and with single spaces for white space. -/
def value (d : Declaration) : String := .ofList (Text.collapse (Text.trim d.content))

/-- The declaration as it stands in the text. -/
def text (d : Declaration) : List Char := '-' :: '-' :: d.stem ++ d.gap ++ ':' :: d.content ++ [';']

/-- A name, the white space after it and what follows the colon. -/
def readName : List Char → Option ((List Char × List Char) × List Char)
  | '-' :: '-' :: s =>
    let rest := s.dropWhile Name.isLegal
    match rest.dropWhile Text.isBlank with
    | ':' :: r => some ((s.takeWhile Name.isLegal, rest.takeWhile Text.isBlank), r)
    | _ => none
  | _ => none

/-- A declaration with a name of at least one character and at least one character before the semicolon. -/
def read (s : List Char) : Option (Declaration × List Char) :=
  match readName s with
  | some ((stem, gap), r) =>
    match r.dropWhile (· != ';') with
    | _ :: rest =>
      let content := r.takeWhile (· != ';')
      if stem = [] || content = [] then none else some (⟨stem, gap, content⟩, rest)
    | [] => none
  | none => none

theorem append_of_readName {s stem gap r : List Char} (h : readName s = some ((stem, gap), r)) :
    '-' :: '-' :: stem ++ gap ++ ':' :: r = s := by
  unfold readName at h
  split at h
  · next s =>
    dsimp only at h
    split at h
    · next r' hr =>
      cases h
      simp only [List.cons_append, List.append_assoc]
      rw [← hr, List.takeWhile_append_dropWhile, List.takeWhile_append_dropWhile]
    · cases h
  · cases h

theorem text_append_of_read {s r : List Char} {d : Declaration} (h : read s = some (d, r)) : d.text ++ r = s := by
  unfold read at h
  split at h
  · next stem gap r' hn =>
    split at h
    · next c rest hd =>
      dsimp only at h
      split at h
      · cases h
      · cases h
        have hc : c = ';' := by simpa [hd] using List.head?_dropWhile_not (· != ';') r'
        have hr := List.takeWhile_append_dropWhile (p := (· != ';')) (l := r')
        rw [hd, hc] at hr
        rw [← append_of_readName hn]
        simp [text, hr]
    · cases h
  · cases h

/-- Declarations as a pattern of texts. -/
def pattern : Text.Pattern Declaration where
  read := read
  text := text
  text_append := text_append_of_read
  text_ne_nil _ := by simp [text]

/-- The declarations of a text. -/
def all (s : String) : List Declaration := pattern.hits s.toList

/-- The last value that a text declares for each name. -/
def lastValues (s : String) : List (String × String) := Assoc.ofList ((all s).map fun d => (d.name, d.value))

/-- All values that a text declares for each name, in order. -/
def allValues (s : String) : List (String × List String) :=
  (all s).foldl (fun m d => Assoc.insert d.name ((m.lookup d.name).getD [] ++ [d.value]) m) []

/-- The name that a line declares if it holds one declaration and nothing else but white space; the value may be
empty here. -/
def declaredBy? (line : List Char) : Option String :=
  match readName (Text.trimStart line) with
  | some ((stem, _), r) =>
    match r.dropWhile (· != ';') with
    | _ :: rest => if stem != [] && rest.all Text.isBlank then some (.ofList ('-' :: '-' :: stem)) else none
    | [] => none
  | none => none

end Declaration

end DesignTokens
