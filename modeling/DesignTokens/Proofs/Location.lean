import DesignTokens.Proofs.Paths
import DesignTokens.Proofs.Steps
import Mathlib.Data.Set.Operations

/-!
# What operations do, and where

Whatever an operation finds at a path or does there, it finds or does at the location that the path names. Which one
that is depends on the path alone.
-/

namespace DesignTokens.Disk

variable {d e : Disk} {p : Path} {loc dir : Location} {name : String} {item : Item} {bytes : ByteArray}
  {parts : List String}

/-! ## Looking up -/

theorem child_eq_ok (h : child dir name = .ok loc) : loc = dir ++ [name] := by
  unfold child at h
  split at h
  · cases h
  · exact (Except.ok.inj h).symm

theorem enter_eq_ok {part : String} {there : Location} (h : d.enter loc part = .ok there) : there = step loc part := by
  unfold enter at h
  split at h
  · cases h
  · cases h
  · unfold step
    split at h
    · next hv => rw [if_pos hv]; exact (Except.ok.inj h).symm
    · next hv =>
        rw [if_neg hv]
        split at h
        · next hup => rw [if_pos hup]; exact (Except.ok.inj h).symm
        · next hup => rw [if_neg hup]; exact child_eq_ok h

theorem follow_eq_ok {there : Location} (h : d.follow loc parts = .ok there) : there = parts.foldl step loc := by
  induction parts generalizing loc with
  | nil => exact (Except.ok.inj h).symm
  | cons part parts ih =>
      rw [follow, List.foldlM_cons] at h
      obtain ⟨next, hnext, h⟩ := bind_eq_ok_iff.1 h
      rw [List.foldl_cons, ← enter_eq_ok hnext]
      exact ih h

theorem find_eq_ok (h : d.find p = .ok (loc, item)) : loc = locate d.home p ∧ d.item? loc = some item := by
  obtain ⟨_, _, h⟩ := bind_eq_ok_iff.1 h
  obtain ⟨there, hthere, h⟩ := bind_eq_ok_iff.1 h
  split at h
  · next found hfound =>
      cases h
      exact ⟨follow_eq_ok hthere, hfound⟩
  · cases h

theorem read_eq_ok (h : d.read p = .ok bytes) : d.item? (locate d.home p) = some (.file bytes) := by
  obtain ⟨⟨loc, item⟩, hfind, h⟩ := bind_eq_ok_iff.1 h
  obtain ⟨rfl, hitem⟩ := find_eq_ok hfind
  cases item with
  | file found =>
      cases h
      exact hitem
  | directory => cases h

theorem readText_eq_ok {text : String} (h : d.readText p = .ok text) :
    d.item? (locate d.home p) = some (.file text.toUTF8) := by
  obtain ⟨bytes, hbytes, h⟩ := bind_eq_ok_iff.1 h
  split at h
  · next s hs =>
      cases h
      unfold String.fromUTF8? at hs
      split at hs
      · cases hs
        exact read_eq_ok hbytes
      · cases hs
  · cases h

/-! ## Places -/

theorem isName_of_getLast?_properParts (h : (properParts p).getLast? = some name) (hpoint : name ≠ ".")
    (hup : name ≠ "..") : Path.IsName name := by
  have hne : properParts p ≠ [] := fun hnil => by simp [hnil] at h
  have hmem : name ∈ p.parts := (List.rdropWhile_prefix (· == "") p.parts).subset (List.mem_of_getLast? h)
  have hempty : name ≠ "" := by
    have hlast : ¬((properParts p).getLast hne == "") = true := List.rdropWhile_last_not (· == "") p.parts hne
    rw [List.getLast?_eq_some_getLast hne] at h
    simpa [← Option.some.inj h] using hlast
  exact ⟨by simp [Path.isVacuous, hpoint, hempty], hup, Path.notMem_of_mem_parts hmem⟩

theorem foldl_step_properParts (p : Path) : (properParts p).foldl step loc = p.parts.foldl step loc := by
  refine foldl_step_rdropWhile (fun part hpart => ?_) p.parts
  rw [Path.isVacuous, hpart, Bool.true_or]

/-- The last part of the path is a name, and the parts before it lead to a directory. -/
structure Reaches (d : Disk) (p : Path) (dir : Location) (name : String) : Prop where
  accepted : accept p = .ok ()
  last_eq : (properParts p).getLast? = some name
  isName : Path.IsName name
  follow_eq : d.follow (d.origin p) (properParts p).dropLast = .ok dir
  directory : d.item? dir = some .directory

theorem reaches_of_place {refusal : Refusal} {place : Place d} (h : d.place p refusal = .ok place) :
    d.Reaches p place.dir place.name := by
  obtain ⟨_, haccept, h⟩ := bind_eq_ok_iff.1 h
  split at h
  · cases h
  · next name hlast =>
      obtain ⟨dir, hdir, h⟩ := bind_eq_ok_iff.1 h
      split at h
      · cases h
      · cases h
      · next hitem =>
          split at h
          · next hname =>
              cases h
              exact ⟨haccept, hlast, hname, hdir, hitem⟩
          · cases h

theorem Reaches.exists_place (h : d.Reaches p dir name) (refusal : Refusal) :
    ∃ place, d.place p refusal = .ok place ∧ place.dir = dir ∧ place.name = name := by
  refine ⟨⟨dir, name, h.directory, h.isName⟩, ?_, rfl, rfl⟩
  rw [place, h.accepted]
  simp only [bind, Except.bind, h.last_eq, h.follow_eq]
  split
  · next hd => rw [h.directory] at hd; cases hd
  · next hd => rw [h.directory] at hd; cases hd
  · rw [dif_pos h.isName]
    rfl

theorem Reaches.location_eq (h : d.Reaches p dir name) : dir ++ [name] = locate d.home p := by
  rw [locate, ← foldl_step_properParts, ← List.dropLast_append_getLast? name h.last_eq, List.foldl_append,
    List.foldl_cons, List.foldl_nil, step_of_isName h.isName]
  simp only [follow_eq_ok h.follow_eq, origin]

/-- The place that a path names is the location that it names. -/
theorem place_eq_ok {refusal : Refusal} {place : Place d} (h : d.place p refusal = .ok place) :
    place.dir ++ [place.name] = locate d.home p :=
  (reaches_of_place h).location_eq

/-! ## What operations do -/

/-- `e` is `d` with a file at the location that a path names, where there was no directory. -/
structure Writes (d : Disk) (p : Path) (bytes : ByteArray) (e : Disk) : Prop where
  home_eq : e.home = d.home
  not_directory : d.item? (locate d.home p) ≠ some .directory
  item?_eq : ∀ loc, e.item? loc = if loc = locate d.home p then some (.file bytes) else d.item? loc

theorem writes_of_write (h : d.write p bytes = .ok e) : d.Writes p bytes e := by
  obtain ⟨place, hplace, h⟩ := bind_eq_ok_iff.1 h
  have hloc := place_eq_ok hplace
  by_cases hend : p.parts.getLast? = some ""
  · simp only [hend, if_true] at h
    cases h
  · simp only [hend, if_false] at h
    obtain ⟨_, _, h⟩ := bind_eq_ok_iff.1 h
    split at h
    · cases h
    · next hdir =>
        cases h
        refine ⟨rfl, hloc ▸ hdir, fun loc => ?_⟩
        rw [item?_put, hloc]

theorem makeDirectory_eq_ok (h : d.makeDirectory p = .ok e) :
    e.home = d.home ∧ d.item? (locate d.home p) = none ∧
      ∀ loc, e.item? loc = if loc = locate d.home p then some .directory else d.item? loc := by
  obtain ⟨place, hplace, h⟩ := bind_eq_ok_iff.1 h
  have hloc := place_eq_ok hplace
  obtain ⟨there, hthere, h⟩ := bind_eq_ok_iff.1 h
  rw [child_eq_ok hthere] at h
  split at h
  · cases h
  · next hnone =>
      cases h
      refine ⟨rfl, hloc ▸ hnone, fun loc => ?_⟩
      rw [item?_put, hloc]

/-- `e` is `d` with directories where there was nothing, each at a location that one of the paths names. -/
structure AddsDirectories (d : Disk) (paths : List Path) (e : Disk) : Prop where
  home_eq : e.home = d.home
  item?_eq : ∀ loc, e.item? loc = d.item? loc ∨
    d.item? loc = none ∧ e.item? loc = some .directory ∧ ∃ p ∈ paths, loc = locate d.home p

theorem AddsDirectories.refl (d : Disk) (paths : List Path) : d.AddsDirectories paths d :=
  ⟨rfl, fun _ => .inl rfl⟩

theorem AddsDirectories.trans {paths : List Path} {f : Disk} (h : d.AddsDirectories paths e)
    (h' : e.AddsDirectories paths f) : d.AddsDirectories paths f := by
  refine ⟨h'.home_eq.trans h.home_eq, fun loc => ?_⟩
  rcases h'.item?_eq loc with heq' | ⟨hnone', hdir', p, hp, hloc⟩
  · rcases h.item?_eq loc with heq | ⟨hnone, hdir, hp⟩
    · exact .inl (heq'.trans heq)
    · exact .inr ⟨hnone, heq'.trans hdir, hp⟩
  · rcases h.item?_eq loc with heq | ⟨_, hdir, _⟩
    · exact .inr ⟨heq ▸ hnone', hdir', p, hp, h.home_eq ▸ hloc⟩
    · rw [hdir] at hnone'
      cases hnone'

theorem AddsDirectories.mono {paths more : List Path} (h : d.AddsDirectories paths e) (hsub : paths ⊆ more) :
    d.AddsDirectories more e := by
  refine ⟨h.home_eq, fun loc => (h.item?_eq loc).imp id ?_⟩
  rintro ⟨hnone, hdir, p, hp, hloc⟩
  exact ⟨hnone, hdir, p, hsub hp, hloc⟩

theorem AddsDirectories.file_iff {paths : List Path} (h : d.AddsDirectories paths e) :
    e.item? loc = some (.file bytes) ↔ d.item? loc = some (.file bytes) := by
  rcases h.item?_eq loc with heq | ⟨hnone, hdir, _⟩
  · rw [heq]
  · simp [hnone, hdir]

theorem addsDirectories_of_makeDirectory (h : d.makeDirectory p = .ok e) : d.AddsDirectories [p] e := by
  obtain ⟨hhome, hnone, hitem⟩ := makeDirectory_eq_ok h
  refine ⟨hhome, fun loc => ?_⟩
  rw [hitem loc]
  split
  · next hloc => exact .inr ⟨hloc ▸ hnone, rfl, p, List.mem_singleton_self p, hloc⟩
  · exact .inl rfl

/-- Whether all goes well or not, only directories are added, each at one of the paths. -/
theorem addsDirectories_makeFirst (paths : List Path) (d : Disk) : d.AddsDirectories paths (d.makeFirst paths).1 := by
  induction paths generalizing d with
  | nil => exact .refl d []
  | cons p above ih =>
      have hmake : ∀ {d e : Disk}, d.makeDirectory p = .ok e → d.AddsDirectories (p :: above) e :=
        fun h => (addsDirectories_of_makeDirectory h).mono (by simp)
      have habove : d.AddsDirectories (p :: above) (d.makeFirst above).1 :=
        (ih d).mono (List.subset_cons_self ..)
      rw [makeFirst]
      split
      · exact .refl d _
      · split
        · next h => exact hmake h
        · split
          · next hfail => rw [hfail] at habove; exact habove
          · next hdone =>
              rw [hdone] at habove
              split
              · next h => exact habove.trans (hmake h)
              · split <;> exact habove
        · split <;> exact .refl d _

theorem item?_removeAt_of_not_below {dir : Location} {self : Bool} (h : ¬dir <+: loc) :
    (d.removeAt dir self).item? loc = d.item? loc := by
  by_cases hloc : loc = []
  · rw [hloc]
    rfl
  · have hcovers : covers dir self loc = false := by simp [covers, h]
    rw [item?_removeAt d dir self hloc, hcovers]
    rfl

theorem removeEmpty_eq_ok (h : d.removeEmpty p = .ok e) : e = d.removeAt (locate d.home p) true := by
  obtain ⟨place, hplace, h⟩ := bind_eq_ok_iff.1 h
  obtain ⟨there, hthere, h⟩ := bind_eq_ok_iff.1 h
  rw [child_eq_ok hthere, place_eq_ok hplace] at h
  split at h
  · cases h
  · cases h
  · split at h
    · cases h
    · exact (Except.ok.inj h).symm

/-- Whether all goes well or not, nothing changes but at the location that the path names and below it. -/
theorem removeDirectory_frame (d : Disk) (p : Path) :
    (d.removeDirectory p).1.home = d.home ∧
      ∀ loc, ¬locate d.home p <+: loc → (d.removeDirectory p).1.item? loc = d.item? loc := by
  rw [removeDirectory]
  split
  · exact ⟨rfl, fun _ _ => rfl⟩
  · exact ⟨rfl, fun _ _ => rfl⟩
  · next there hfind =>
      obtain ⟨rfl, _⟩ := find_eq_ok hfind
      dsimp only
      split
      · next rest hrest =>
          rw [removeEmpty_eq_ok hrest]
          refine ⟨rfl, fun loc hloc => ?_⟩
          exact (item?_removeAt_of_not_below hloc).trans (item?_removeAt_of_not_below hloc)
      · exact ⟨rfl, fun loc hloc => item?_removeAt_of_not_below hloc⟩

/-! ## Files that stay -/

/-- The same bytes, if any, are at a location before and after. -/
def SameFile (d : Disk) (loc : Location) (e : Disk) : Prop :=
  ∀ bytes, e.item? loc = some (.file bytes) ↔ d.item? loc = some (.file bytes)

theorem SameFile.of_item?_eq (h : e.item? loc = d.item? loc) : d.SameFile loc e := by
  intro bytes
  rw [h]

theorem SameFile.trans {f : Disk} (h : d.SameFile loc e) (h' : e.SameFile loc f) : d.SameFile loc f :=
  fun bytes => (h' bytes).trans (h bytes)

/-- `e` has the home of `d` and, outside the locations that may be touched, the same files. -/
structure KeepsFiles (d : Disk) (touched : Set Location) (e : Disk) : Prop where
  home_eq : e.home = d.home
  sameFile : ∀ loc, loc ∉ touched → d.SameFile loc e

theorem KeepsFiles.refl (d : Disk) (touched : Set Location) : d.KeepsFiles touched d :=
  ⟨rfl, fun _ _ => .of_item?_eq rfl⟩

theorem KeepsFiles.trans {touched : Set Location} {f : Disk} (h : d.KeepsFiles touched e)
    (h' : e.KeepsFiles touched f) : d.KeepsFiles touched f :=
  ⟨h'.home_eq.trans h.home_eq, fun loc hloc => (h.sameFile loc hloc).trans (h'.sameFile loc hloc)⟩

theorem KeepsFiles.mono {touched more : Set Location} (h : d.KeepsFiles touched e) (hsub : touched ⊆ more) :
    d.KeepsFiles more e :=
  ⟨h.home_eq, fun loc hloc => h.sameFile loc fun hmem => hloc (hsub hmem)⟩

theorem Writes.keepsFiles {touched : Set Location} (h : d.Writes p bytes e) (hp : locate d.home p ∈ touched) :
    d.KeepsFiles touched e := by
  refine ⟨h.home_eq, fun loc hloc => .of_item?_eq ?_⟩
  have hne : loc ≠ locate d.home p := fun heq => hloc (heq ▸ hp)
  rw [h.item?_eq loc, if_neg hne]

theorem AddsDirectories.keepsFiles {paths : List Path} (h : d.AddsDirectories paths e) (touched : Set Location) :
    d.KeepsFiles touched e :=
  ⟨h.home_eq, fun _ _ _ => h.file_iff⟩

theorem keepsFiles_removeDirectory {touched : Set Location} (h : ∀ loc, locate d.home p <+: loc → loc ∈ touched) :
    d.KeepsFiles touched (d.removeDirectory p).1 := by
  obtain ⟨hhome, hitem⟩ := removeDirectory_frame d p
  exact ⟨hhome, fun loc hloc => .of_item?_eq (hitem loc fun hbelow => hloc (h loc hbelow))⟩

end DesignTokens.Disk
