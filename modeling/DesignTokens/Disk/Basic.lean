import DesignTokens.Assoc
import DesignTokens.Path

/-!
A disk: files and directories by location, and the directory that relative paths start from. Every item lies in a
directory of the disk, and the parts of its location are names; all operations keep this. Names and paths have a
greatest size. There are no symbolic links, and no second names of one file: a location is the only one of its item. Nor
are there permissions, and names are Unicode texts.
-/

namespace DesignTokens

/-- The names on the way from the top of the disk. -/
abbrev Location := List String

/-- A file with its bytes, or a directory. -/
inductive Item where
  | file (bytes : ByteArray)
  | directory

instance : DecidableEq Item
  | .file a, .file b =>
    match ByteArray.instDecidableEq a b with
    | isTrue h => isTrue (h ▸ rfl)
    | isFalse h => isFalse fun e => h (Item.file.inj e)
  | .directory, .directory => isTrue rfl
  | .file _, .directory => isFalse nofun
  | .directory, .file _ => isFalse nofun

/-- The item of a location; the top is a directory. -/
def Item.at? (items : List (Location × Item)) (loc : Location) : Option Item :=
  if loc = [] then some .directory else items.lookup loc

/-- Files and directories by location, and the directory that relative paths start from. -/
structure Disk where
  home : Location
  items : List (Location × Item)
  sorted : Assoc.Sorted items
  closed : ∀ b ∈ items, b.1 ≠ [] ∧ Item.at? items b.1.dropLast = some .directory
  named : ∀ b ∈ items, ∀ name ∈ b.1, Path.IsName name

namespace Disk

/-- Why a file or directory could not be used. -/
inductive Flaw where
  | notFound
  | isADirectory
  | notADirectory
  | alreadyExists
  | notEmpty
  | busy
  | nameTooLong
  | invalidPath
  | invalidText
  deriving DecidableEq

/-- The item of a location. -/
def item? (d : Disk) (loc : Location) : Option Item := Item.at? d.items loc

/-- A disk that holds nothing. -/
def empty (home : Location) : Disk := ⟨home, [], .nil, by simp, by simp⟩

/-- Puts an item into a directory, where no directory is replaced by a file. -/
def put (d : Disk) (dir : Location) (name : String) (item : Item) (hname : Path.IsName name)
    (hdir : d.item? dir = some .directory)
    (hitem : item = .directory ∨ d.item? (dir ++ [name]) ≠ some .directory) : Disk where
  home := d.home
  items := Assoc.insert (dir ++ [name]) item d.items
  sorted := Assoc.sorted_insert d.sorted
  closed := by
    have key : ∀ loc, Item.at? d.items loc = some .directory →
        Item.at? (Assoc.insert (dir ++ [name]) item d.items) loc = some .directory := by
      intro loc h
      simp only [Item.at?] at h ⊢
      split
      · rfl
      · next hne =>
        simp only [hne, if_false] at h
        rw [Assoc.lookup_insert _ _ _ d.sorted]
        split
        · next heq =>
          have heq := eq_of_beq heq
          subst heq
          rcases hitem with rfl | hitem
          · rfl
          · exact absurd (by simpa [Disk.item?, Item.at?] using h) hitem
        · exact h
    intro b hb
    rcases Assoc.mem_insert hb with rfl | hb
    · refine ⟨by simp, ?_⟩
      simp only [List.dropLast_concat]
      exact key dir hdir
    · exact ⟨(d.closed b hb).1, key _ (d.closed b hb).2⟩
  named := by
    have hnames : ∀ part ∈ dir, Path.IsName part := by
      intro part hpart
      simp only [item?, Item.at?, List.ne_nil_of_mem hpart, if_false] at hdir
      exact d.named _ (Assoc.mem_of_lookup_eq_some hdir) part hpart
    intro b hb part hpart
    rcases Assoc.mem_insert hb with rfl | hb
    · rcases List.mem_append.1 hpart with hpart | hpart
      · exact hnames part hpart
      · exact List.mem_singleton.1 hpart ▸ hname
    · exact d.named b hb part hpart

/-- Whether a location lies below `loc`, or with `self` is `loc`. -/
def covers (loc : Location) (self : Bool) (k : Location) : Bool := loc.isPrefixOf k && (self || k != loc)

theorem covers_of_covers_dropLast {loc k : Location} {self : Bool} (hk : k ≠ [])
    (h : covers loc self k.dropLast = true) : covers loc self k = true := by
  have hpre : loc <+: k.dropLast := by
    simp only [covers, Bool.and_eq_true, List.isPrefixOf_iff_prefix] at h
    exact h.1
  have hne : k ≠ loc := by
    rintro rfl
    have := hpre.length_le
    have := List.length_pos_iff.2 hk
    simp only [List.length_dropLast] at *
    omega
  simp [covers, hpre.trans (List.dropLast_prefix k), hne]

/-- Removes the items below a location, and with `self` the one at the location too. -/
def removeAt (d : Disk) (loc : Location) (self : Bool) : Disk where
  home := d.home
  items := d.items.filter fun b => !covers loc self b.1
  sorted := List.Pairwise.filter _ d.sorted
  closed := by
    intro b hb
    obtain ⟨hb, hkeep⟩ := List.mem_filter.1 hb
    obtain ⟨hne, hdir⟩ := d.closed b hb
    refine ⟨hne, ?_⟩
    simp only [Item.at?] at hdir ⊢
    split
    · rfl
    · next hd =>
      simp only [hd, if_false] at hdir
      rw [Assoc.lookup_filter (fun k => !covers loc self k), if_pos, hdir]
      cases h : covers loc self b.1.dropLast
      · rfl
      · simp [covers_of_covers_dropLast hne h] at hkeep
  named b hb := d.named b (List.mem_filter.1 hb).1

theorem item?_put (d : Disk) {dir : Location} {name : String} {item : Item} (hname : Path.IsName name)
    (hdir : d.item? dir = some .directory)
    (hitem : item = .directory ∨ d.item? (dir ++ [name]) ≠ some .directory) (loc : Location) :
    (d.put dir name item hname hdir hitem).item? loc = if loc = dir ++ [name] then some item else d.item? loc := by
  simp only [item?, Item.at?, put]
  by_cases h : loc = []
  · simp [h]
  · simp only [h, if_false, Assoc.lookup_insert _ _ _ d.sorted, beq_iff_eq]

theorem item?_removeAt (d : Disk) (loc : Location) (self : Bool) {k : Location} (hk : k ≠ []) :
    (d.removeAt loc self).item? k = if covers loc self k then none else d.item? k := by
  simp only [item?, Item.at?, removeAt, hk, if_false, Assoc.lookup_filter (fun k => !covers loc self k)]
  cases covers loc self k <;> rfl

/-- Disks with the same start of relative paths and the same items are equal. -/
theorem ext_item? {d e : Disk} (hhome : d.home = e.home) (h : ∀ loc, d.item? loc = e.item? loc) : d = e := by
  have hitems : d.items = e.items := by
    refine Assoc.ext_lookup d.sorted e.sorted fun loc => ?_
    by_cases hl : loc = []
    · have hnone : ∀ f : Disk, f.items.lookup [] = none := fun f => by
        cases hf : f.items.lookup [] with
        | none => rfl
        | some item => exact absurd rfl (f.closed _ (Assoc.mem_of_lookup_eq_some hf)).1
      rw [hl, hnone, hnone]
    · simpa [item?, Item.at?, hl] using h loc
  cases d
  cases e
  cases hhome
  cases hitems
  rfl

/-! ## Looking up -/

/-- The greatest size of a name, in bytes. -/
def maxNameSize : Nat := 255

/-- The greatest size of a path, in bytes. -/
def maxPathSize : Nat := 4095

/-- The location of a name in a directory. -/
def child (dir : Location) (name : String) : Except Flaw Location :=
  if maxNameSize < name.utf8ByteSize then .error .nameTooLong else .ok (dir ++ [name])

/-- Refuses paths that no disk looks up, whatever it holds: those with a zero character, those that are too long,
and the empty one. -/
def accept (p : Path) : Except Flaw Unit :=
  if p.text.toList.contains '\x00' then .error .invalidPath
  else if maxPathSize < p.text.utf8ByteSize then .error .nameTooLong
  else if p.text = "" then .error .notFound
  else .ok ()

/-- The location that one part of a path leads to from a directory. -/
def enter (d : Disk) (loc : Location) (part : String) : Except Flaw Location :=
  match d.item? loc with
  | none => .error .notFound
  | some (.file _) => .error .notADirectory
  | some .directory =>
    if Path.isVacuous part then .ok loc
    else if part = ".." then .ok loc.dropLast
    else child loc part

/-- The location that parts lead to; all but the last lead to directories. -/
def follow (d : Disk) (loc : Location) (parts : List String) : Except Flaw Location := parts.foldlM d.enter loc

/-- Where a path starts. -/
def origin (d : Disk) (p : Path) : Location := if p.isAbsolute then [] else d.home

/-- The location that a part of a path names from a location, whatever there is. -/
def step (loc : Location) (part : String) : Location :=
  if Path.isVacuous part then loc else if part = ".." then loc.dropLast else loc ++ [part]

/-- The location that a path names, whatever there is. -/
def locate (home : Location) (p : Path) : Location := p.parts.foldl step (if p.isAbsolute then [] else home)

/-- The item that a path leads to, with its location. -/
def find (d : Disk) (p : Path) : Except Flaw (Location × Item) := do
  accept p
  let loc ← d.follow (d.origin p) p.parts
  match d.item? loc with
  | some item => return (loc, item)
  | none => throw .notFound

/-- Whether a path leads to something. -/
def exists? (d : Disk) (p : Path) : Bool := (d.find p).isOk

/-- Whether a path leads to a directory. -/
def isDirectory (d : Disk) (p : Path) : Bool :=
  match d.find p with
  | .ok (_, .directory) => true
  | _ => false

/-- The bytes of a file. -/
def read (d : Disk) (p : Path) : Except Flaw ByteArray := do
  match ← d.find p with
  | (_, .file bytes) => return bytes
  | (_, .directory) => throw .isADirectory

/-- The text of a file in UTF-8. -/
def readText (d : Disk) (p : Path) : Except Flaw String := do
  match String.fromUTF8? (← d.read p) with
  | some s => return s
  | none => throw .invalidText

/-! ## Changing -/

/-- A place for an item: an existing directory, and a name. -/
structure Place (d : Disk) where
  dir : Location
  name : String
  isDir : d.item? dir = some .directory
  isName : Path.IsName name

/-- The flaws of paths whose last part is no name: there is none at the top of the disk, or it is one point or two. -/
structure Refusal where
  top : Flaw
  point : Flaw
  up : Flaw

/-- One flaw for all paths whose last part is no name. -/
def Refusal.always (flaw : Flaw) : Refusal := ⟨flaw, flaw, flaw⟩

/-- The parts before the slashes at the end. -/
def properParts (p : Path) : List String := (p.parts.reverse.dropWhile (· == "")).reverse

/-- The place that a path names. -/
def place (d : Disk) (p : Path) (refusal : Refusal) : Except Flaw (Place d) := do
  accept p
  match (properParts p).getLast? with
  | none => throw refusal.top
  | some name =>
    let dir ← d.follow (d.origin p) (properParts p).dropLast
    match hdir : d.item? dir with
    | none => throw .notFound
    | some (.file _) => throw .notADirectory
    | some .directory =>
      if hname : Path.IsName name then return ⟨dir, name, hdir, hname⟩
      else throw (if name = "." then refusal.point else refusal.up)

/-- Writes a whole file. -/
def write (d : Disk) (p : Path) (bytes : ByteArray) : Except Flaw Disk := do
  let place ← d.place p (.always .isADirectory)
  if p.parts.getLast? = some "" then throw .isADirectory
  discard (child place.dir place.name)
  if h : d.item? (place.dir ++ [place.name]) = some .directory then throw .isADirectory
  else return d.put place.dir place.name (.file bytes) place.isName place.isDir (.inr h)

/-- Makes one directory. -/
def makeDirectory (d : Disk) (p : Path) : Except Flaw Disk := do
  let place ← d.place p (.always .alreadyExists)
  match d.item? (← child place.dir place.name) with
  | some _ => throw .alreadyExists
  | none => return d.put place.dir place.name .directory place.isName place.isDir (.inl rfl)

/-- Makes the first of several paths, each above the one before it: the paths above are made where one is missing,
and a directory that exists is as good as a new one. What was made stays when a later step fails. -/
def makeFirst (d : Disk) : List Path → Disk × Except Flaw Unit
  | [] => (d, .error .notFound)
  | p :: above =>
    if p.text = "" then (d, .ok ())
    else
      match d.makeDirectory p with
      | .ok d => (d, .ok ())
      | .error .notFound =>
        match d.makeFirst above with
        | (d, .error e) => (d, .error e)
        | (d, .ok ()) =>
          match d.makeDirectory p with
          | .ok d => (d, .ok ())
          | .error e => if d.isDirectory p then (d, .ok ()) else (d, .error e)
      | .error e => if d.isDirectory p then (d, .ok ()) else (d, .error e)

/-- Makes a directory and those that are missing above it. -/
def makeDirectories (d : Disk) (p : Path) : Disk × Except Flaw Unit := d.makeFirst p.ancestors

/-- Removes one directory, which must hold nothing. -/
def removeEmpty (d : Disk) (p : Path) : Except Flaw Disk := do
  let place ← d.place p ⟨.busy, .invalidPath, .notEmpty⟩
  let loc ← child place.dir place.name
  match d.item? loc with
  | none => throw .notFound
  | some (.file _) => throw .notADirectory
  | some .directory =>
    if d.items.any fun b => covers loc false b.1 then throw .notEmpty else return d.removeAt loc true

/-- Removes a directory: first all below it, and then itself by the same path, which may have led through what is
gone by now. -/
def removeDirectory (d : Disk) (p : Path) : Disk × Except Flaw Unit :=
  match d.find p with
  | .error e => (d, .error e)
  | .ok (_, .file _) => (d, .error .notADirectory)
  | .ok (loc, .directory) =>
    let emptied := d.removeAt loc false
    match emptied.removeEmpty p with
    | .ok rest => (rest, .ok ())
    | .error e => (emptied, .error e)

/-! ## Listing -/

/-- The files at or below a path in the order of their locations: the path that leads to each, and its bytes. A
directory whose path has become too long is not listed. -/
def walk (d : Disk) (p : Path) : List (Path × ByteArray) :=
  match d.find p with
  | .error _ => []
  | .ok (_, .file bytes) => [(p, bytes)]
  | .ok (loc, .directory) =>
    d.items.filterMap fun
      | (below, .file bytes) =>
        let names := below.drop loc.length
        if loc.isPrefixOf below && (accept (p.descend names.dropLast)).isOk then some (p.descend names, bytes)
        else none
      | (_, .directory) => none

/-- The text of a listed file. A path may have become too long to be read by. -/
def listedText? (file : Path × ByteArray) : Option String :=
  if (accept file.1).isOk then String.fromUTF8? file.2 else none

end Disk

end DesignTokens
