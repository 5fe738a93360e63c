import DesignTokens.Fault
import DesignTokens.Text.Blank
import DesignTokens.Text.Fields
import DesignTokens.Text.Scan
import DesignTokens.Token.Graph
import DesignTokens.Token.Name

/-!
References in token texts: an address in braces, with or without its layer.
-/

namespace DesignTokens.Reference

/-- What stands in the braces of a reference: any characters but a closing brace, at least one. -/
def read : List Char → Option (List Char × List Char)
  | '{' :: s =>
    match s.takeWhile (· != '}'), s.dropWhile (· != '}') with
    | c :: inner, _ :: rest => some (c :: inner, rest)
    | _, _ => none
  | _ => none

/-- Something in braces. -/
def braced (inner : List Char) : List Char := '{' :: inner ++ ['}']

theorem braced_append_of_read {s inner r : List Char} (h : read s = some (inner, r)) : braced inner ++ r = s := by
  unfold read at h
  split at h
  · next s =>
    split at h
    · next c inner' d rest ht hd =>
      cases h
      have hd' : d = '}' := by
        have := List.head?_dropWhile_not (· != '}') s
        simpa [hd] using this
      have := List.takeWhile_append_dropWhile (p := (· != '}')) (l := s)
      rw [ht, hd, hd'] at this
      simp [braced, ← this]
    · cases h
  · cases h

/-- References as a pattern of texts. -/
def pattern : Text.Pattern (List Char) where
  read := read
  text := braced
  text_append := braced_append_of_read
  text_ne_nil _ := by simp [braced]

/-- The references of a text, with their braces. -/
def all (text : String) : List String := (pattern.hits text.toList).map fun inner => .ofList (braced inner)

/-- What a reference says between its braces, white space left out; the braces may be missing. -/
def clean (reference : List Char) : List Char :=
  let s := Text.trim reference
  let s := if s.head? = some '{' then s.drop 1 else s
  let s := if s.getLast? = some '}' then s.dropLast else s
  Text.trim s

/-- The addresses that keys may mean, in the order of search: the one of the layer that the first key names if more
keys follow, or else one in each layer. -/
def candidates (segments : List String) : List Address :=
  let anywhere := Layer.all.map fun layer => ⟨layer, segments⟩
  match segments with
  | first :: next :: rest =>
    match Layer.ofName? first with
    | some layer => [⟨layer, next :: rest⟩]
    | none => anywhere
  | _ => anywhere

end DesignTokens.Reference

namespace DesignTokens

namespace Graph

/-- The address of the token that a reference means; `context` is the path of the token it stands in. -/
def resolve (g : Graph) (reference context : String) : Except Fault Address :=
  let s := Reference.clean reference.toList
  let found :=
    if s.any fun c => c == '{' || c == '}' then none
    else
      (Reference.candidates ((Text.fields '.' s).map String.ofList)).find? fun a => (g.leaf? a).isSome
  match found with
  | some a => .ok a
  | none => .error (.unresolvedReference reference context)

/-- A text with each reference replaced by the lookup of its token. -/
def substitute (g : Graph) (text context : String) : Except Fault String := do
  let parts ← (Reference.pattern.pieces text.toList).mapM fun
    | .plain c => .ok [c]
    | .hit inner => (g.resolve (.ofList (Reference.braced inner)) context).map (·.lookup.toList)
  return .ofList parts.flatten

end Graph

end DesignTokens
