import DesignTokens.Text.Fields

/-!
Paths, kept as they are written. Repeated slashes and points in the middle are kept too, but they mean nothing: what
a path says are its components. All paths here are Unicode texts, as those of layouts and reports are; a path of other
bytes, which a system may have too, is a `RawPath`.
-/

namespace DesignTokens

/-- A path as it is written. -/
structure Path where
  text : String
  deriving DecidableEq

namespace Path

/-- The texts between the slashes. -/
def parts (p : Path) : List String := Text.fieldsOf '/' p.text

/-- The path of parts with slashes between them. -/
def ofParts (ps : List String) : Path := ⟨Text.joinWith '/' ps⟩

/-- Whether the path starts at the top and not at a given directory. -/
def isAbsolute (p : Path) : Bool := p.text.toList.head? == some '/'

/-- Parts that lead nowhere: nothing, and the point. -/
def isVacuous (part : String) : Bool := part == "" || part == "."

/-- A part that leads to what it names. -/
structure IsName (part : String) : Prop where
  not_vacuous : isVacuous part = false
  not_up : part ≠ ".."
  no_slash : '/' ∉ part.toList

instance (part : String) : Decidable (IsName part) :=
  decidable_of_iff (isVacuous part = false ∧ part ≠ ".." ∧ '/' ∉ part.toList)
    ⟨fun ⟨hv, hup, hs⟩ => ⟨hv, hup, hs⟩, fun ⟨hv, hup, hs⟩ => ⟨hv, hup, hs⟩⟩

/-- Where a path starts: at the top, at a point that is written, or at whatever it is joined to. -/
inductive Start where
  | top
  | point
  | joined
  deriving DecidableEq

/-- Where the path starts. -/
def start (p : Path) : Start :=
  if p.isAbsolute then .top else if p.parts.head? = some "." then .point else .joined

/-- The parts after the one that tells the start. -/
def body (p : Path) : List String := if p.start = .joined then p.parts else p.parts.drop 1

/-- The path of parts after a start. -/
def ofStart : Start → List String → Path
  | .top, ps => ⟨"/" ++ (ofParts ps).text⟩
  | .point, ps => ofParts ("." :: ps)
  | .joined, ps => ofParts ps

/-- What the path says: its start, if it tells one, and all parts that lead somewhere. -/
def components (p : Path) : List String :=
  let rest := p.body.filter fun part => !isVacuous part
  match p.start with
  | .top => "/" :: rest
  | .point => "." :: rest
  | .joined => rest

/-- The path with another one below it; an absolute one stands for itself. -/
def join (p q : Path) : Path :=
  if q.isAbsolute then q
  else if p.text = "" || p.text.toList.getLast? == some '/' then ⟨p.text ++ q.text⟩
  else ⟨p.text ++ "/" ++ q.text⟩

/-- The path with names below it, each one below the one before. -/
def descend (p : Path) (names : List String) : Path := names.foldl (fun q name => q.join ⟨name⟩) p

/-- The last component, if it is a name. -/
def fileName? (p : Path) : Option String :=
  p.components.getLast?.filter fun c => c != "/" && c != "." && c != ".."

/-- The parts up to the last one that leads somewhere. -/
def trimParts (ps : List String) : List String := (ps.reverse.dropWhile isVacuous).reverse

/-- The path without its last component. -/
def parent? (p : Path) : Option Path :=
  match trimParts p.body, p.start with
  | [], .point => some ⟨""⟩
  | [], _ => none
  | part :: ps, start => some (ofStart start (trimParts (part :: ps).dropLast))

/-- The path with another name in place of its last one, or below it if it has no name. -/
def withFileName (p : Path) (name : String) : Path :=
  if p.fileName?.isSome then (p.parent?.getD ⟨""⟩).join ⟨name⟩ else p.join ⟨name⟩

/-- The name's ending after its last point, unless that point comes first in the name. -/
def extension? (p : Path) : Option String :=
  p.fileName?.bind fun name =>
    match (Text.fieldsOf '.' name).reverse with
    | ending :: stem@(_ :: _) => if stem = [""] then none else some ending
    | _ => none

/-- The parts that follow given components. -/
def dropComponents : List String → List String → Option (List String)
  | parts, [] => some parts
  | parts, c :: rest =>
    match parts.dropWhile isVacuous with
    | part :: parts => if part = c then dropComponents parts rest else none
    | [] => none

/-- The path below `base`, without the parts at its ends that lead nowhere. -/
def relativeTo? (p base : Path) : Option Path :=
  if base.components = [] then some p
  else if p.start = base.start then
    (dropComponents p.body (base.body.filter fun part => !isVacuous part)).map fun ps =>
      ofParts (trimParts (ps.dropWhile isVacuous))
  else none

/-- The path and, one after the other, at most `fuel` paths above it. -/
def ancestorsWithin : (fuel : Nat) → Path → List Path
  | 0, p => [p]
  | fuel + 1, p =>
    match p.parent? with
    | some q => p :: ancestorsWithin fuel q
    | none => [p]

/-- The path and all paths above it, upwards. -/
def ancestors (p : Path) : List Path := ancestorsWithin p.components.length p

end Path

end DesignTokens
