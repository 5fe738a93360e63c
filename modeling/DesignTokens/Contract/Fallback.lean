import DesignTokens.Disk.Basic
import DesignTokens.Layout.Basic
import DesignTokens.Text.Blank
import DesignTokens.Text.Scan
import DesignTokens.Text.Search

/-!
Lookups of variables with fallbacks, `var(--name, fallback)`, in texts and in the files of a disk.
-/

namespace DesignTokens

/-- A lookup with a fallback: white space before the dashes, the name after them, white space before the comma, and
all characters from the comma to the closing bracket. -/
structure FallbackLookup where
  lead : List Char
  stem : List Char
  gap : List Char
  fallback : List Char
  deriving DecidableEq

namespace FallbackLookup

/-- How lookups begin. -/
def opening : List Char := ['v', 'a', 'r', '(']

/-- The lookup as it stands in the text. -/
def text (l : FallbackLookup) : List Char :=
  opening ++ l.lead ++ '-' :: '-' :: l.stem ++ l.gap ++ ',' :: l.fallback ++ [')']

/-- Characters of names: all but commas, closing brackets and white space. -/
def isStem (c : Char) : Bool := !(c == ',' || c == ')' || Text.isBlank c)

/-- What stands before the comma, after the opening bracket. -/
def readName (s : List Char) : Option ((List Char × List Char × List Char) × List Char) :=
  match s.dropWhile Text.isBlank with
  | '-' :: '-' :: r =>
    let rest := r.dropWhile isStem
    match rest.dropWhile Text.isBlank with
    | ',' :: r' => some ((s.takeWhile Text.isBlank, r.takeWhile isStem, rest.takeWhile Text.isBlank), r')
    | _ => none
  | _ => none

/-- A lookup whose name and fallback have at least one character. -/
def read (s : List Char) : Option (FallbackLookup × List Char) :=
  match Text.dropLit? opening s with
  | some s =>
    match readName s with
    | some ((lead, stem, gap), r) =>
      match r.dropWhile (· != ')') with
      | _ :: rest =>
        let fallback := r.takeWhile (· != ')')
        if stem = [] || fallback = [] then none else some (⟨lead, stem, gap, fallback⟩, rest)
      | [] => none
    | none => none
  | none => none

theorem append_of_readName {s lead stem gap r : List Char} (h : readName s = some ((lead, stem, gap), r)) :
    lead ++ '-' :: '-' :: stem ++ gap ++ ',' :: r = s := by
  unfold readName at h
  split at h
  · next r' hr =>
    dsimp only at h
    split at h
    · next r'' hr' =>
      cases h
      simp only [List.cons_append, List.append_assoc]
      rw [← hr', List.takeWhile_append_dropWhile, List.takeWhile_append_dropWhile, ← hr,
        List.takeWhile_append_dropWhile]
    · cases h
  · cases h

theorem text_append_of_read {s r : List Char} {l : FallbackLookup} (h : read s = some (l, r)) : l.text ++ r = s := by
  unfold read at h
  split at h
  · next s' hs =>
    split at h
    · next lead stem gap r' hn =>
      split at h
      · next c rest hd =>
        dsimp only at h
        split at h
        · cases h
        · cases h
          have hc : c = ')' := by simpa [hd] using List.head?_dropWhile_not (· != ')') r'
          have hr := List.takeWhile_append_dropWhile (p := (· != ')')) (l := r')
          rw [hd, hc] at hr
          rw [Text.dropLit?_eq_some_iff.1 hs, ← append_of_readName hn]
          simp [text, hr]
      · cases h
    · cases h
  · cases h

/-- Lookups with fallbacks as a pattern of texts. -/
def pattern : Text.Pattern FallbackLookup where
  read := read
  text := text
  text_append := text_append_of_read
  text_ne_nil _ := by simp [text]

/-- The lookups with fallbacks in a text, as they stand there. -/
def all (s : String) : List String := (pattern.hits s.toList).map fun l => .ofList l.text

end FallbackLookup

/-- A file with lookups that have fallbacks: the different ones in order of appearance, and how many there are. -/
structure FallbackHit where
  file : Path
  lookups : List String
  count : Nat
  deriving DecidableEq

/-- How many lookups the hits have together. -/
def FallbackHit.total (hits : List FallbackHit) : Nat := hits.foldr (fun h n => h.count + n) 0

namespace FallbackScope

/-- Whether a name's ending is asked for: endings may be written with points before them, and none stands for all. -/
def selects (extensions : List String) (file : Path) : Bool :=
  extensions.isEmpty ||
    match file.extension? with
    | some ending => extensions.any fun want => want.toList.dropWhile (· == '.') == ending.toList
    | none => false

end FallbackScope

namespace Disk

/-- The files at or below a path whose endings are asked for. -/
def filesBelow (d : Disk) (p : Path) (extensions : List String) : List (Path × ByteArray) :=
  (d.walk p).filter fun f => FallbackScope.selects extensions f.1

/-- The hit of a file below `root`; files without lookups and files that are no text have none. -/
def fallbackHit? (root : Path) (file : Path × ByteArray) : Option FallbackHit :=
  match listedText? file with
  | none => none
  | some s =>
    match FallbackLookup.all s with
    | [] => none
    | found => some ⟨(file.1.relativeTo? root).getD file.1, found.eraseDups, found.length⟩

/-- The hits of all directories of a scope, one after the other. -/
def scanFallbacks (d : Disk) (root : Path) (scope : FallbackScope) : List FallbackHit :=
  scope.dirs.flatMap fun dir => (d.filesBelow (root.join dir) scope.extensions).filterMap (fallbackHit? root)

end Disk

end DesignTokens
