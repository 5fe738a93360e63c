import DesignTokens.Proofs.Location

/-!
# Disks that grow

Files are written and directories are made where there was no directory before. So what a path leads through stays, and
what could be done at a path can be done there again.
-/

namespace DesignTokens.Disk

variable {d e f : Disk} {p : Path} {loc dir there : Location} {name part : String} {item : Item} {bytes : ByteArray}
  {parts more : List String}

/-- `e` has the home of `d` and all its directories. -/
structure Grows (d e : Disk) : Prop where
  home_eq : e.home = d.home
  directory : ∀ loc, d.item? loc = some .directory → e.item? loc = some .directory

namespace Grows

theorem refl (d : Disk) : d.Grows d := ⟨rfl, fun _ h => h⟩

theorem trans (h : d.Grows e) (h' : e.Grows f) : d.Grows f :=
  ⟨h'.home_eq.trans h.home_eq, fun loc hloc => h'.directory loc (h.directory loc hloc)⟩

theorem locate_eq (h : d.Grows e) (p : Path) : locate e.home p = locate d.home p := by rw [h.home_eq]

theorem origin_eq (h : d.Grows e) (p : Path) : e.origin p = d.origin p := by rw [origin, origin, h.home_eq]

end Grows

theorem Writes.grows (h : d.Writes p bytes e) : d.Grows e := by
  refine ⟨h.home_eq, fun loc hloc => ?_⟩
  rw [h.item?_eq, if_neg, hloc]
  rintro rfl
  exact h.not_directory hloc

theorem AddsDirectories.grows {paths : List Path} (h : d.AddsDirectories paths e) : d.Grows e := by
  refine ⟨h.home_eq, fun loc hloc => ?_⟩
  rcases h.item?_eq loc with heq | ⟨hnone, _⟩
  · rw [heq, hloc]
  · rw [hnone] at hloc
    cases hloc

/-! ## Paths that lead somewhere -/

theorem directory_of_enter (h : d.enter loc part = .ok there) : d.item? loc = some .directory := by
  unfold enter at h
  split at h
  · cases h
  · cases h
  · assumption

theorem enter_of_directory (h : d.item? loc = some .directory) :
    d.enter loc part =
      if Path.isVacuous part then .ok loc else if part = ".." then .ok loc.dropLast else child loc part := by
  rw [enter, h]

theorem Grows.enter_eq (h : d.Grows e) (he : d.enter loc part = .ok there) : e.enter loc part = .ok there := by
  have hdir := directory_of_enter he
  rwa [enter_of_directory (h.directory loc hdir), ← enter_of_directory hdir]

theorem follow_append : d.follow loc (parts ++ more) = d.follow loc parts >>= fun there => d.follow there more :=
  List.foldlM_append

theorem follow_cons : d.follow loc (part :: parts) = d.enter loc part >>= fun there => d.follow there parts :=
  List.foldlM_cons

theorem follow_of_isVacuous (hdir : d.item? loc = some .directory) (h : ∀ part ∈ parts, Path.isVacuous part = true) :
    d.follow loc parts = .ok loc := by
  induction parts with
  | nil => rfl
  | cons part parts ih =>
      obtain ⟨hpart, hparts⟩ := List.forall_mem_cons.1 h
      rw [follow_cons, enter_of_directory hdir, if_pos hpart]
      exact ih hparts

theorem Grows.follow_eq (h : d.Grows e) (hf : d.follow loc parts = .ok there) : e.follow loc parts = .ok there := by
  induction parts generalizing loc with
  | nil => exact hf
  | cons part parts ih =>
      rw [follow_cons, bind_eq_ok_iff] at hf ⊢
      obtain ⟨next, hnext, hf⟩ := hf
      exact ⟨next, h.enter_eq hnext, ih hf⟩

/-- The path can be followed to the location that it names. -/
structure Leads (d : Disk) (p : Path) : Prop where
  accepted : accept p = .ok ()
  follow_eq : d.follow (d.origin p) p.parts = .ok (locate d.home p)

theorem leads_of_find (h : d.find p = .ok (loc, item)) : d.Leads p := by
  obtain ⟨_, haccept, h⟩ := bind_eq_ok_iff.1 h
  obtain ⟨there, hthere, _⟩ := bind_eq_ok_iff.1 h
  obtain rfl := follow_eq_ok hthere
  exact ⟨haccept, hthere⟩

theorem leads_of_read (h : d.read p = .ok bytes) : d.Leads p := by
  obtain ⟨⟨loc, item⟩, hfind, _⟩ := bind_eq_ok_iff.1 h
  exact leads_of_find hfind

namespace Leads

theorem mono (h : d.Leads p) (hg : d.Grows e) : e.Leads p := by
  refine ⟨h.accepted, ?_⟩
  rw [hg.origin_eq, hg.locate_eq]
  exact hg.follow_eq h.follow_eq

theorem find_eq (h : d.Leads p) (hitem : d.item? (locate d.home p) = some item) :
    d.find p = .ok (locate d.home p, item) := by
  rw [find, h.accepted, h.follow_eq]
  simp only [bind, Except.bind, hitem]
  rfl

theorem read_eq (h : d.Leads p) (hitem : d.item? (locate d.home p) = some (.file bytes)) : d.read p = .ok bytes := by
  rw [read, h.find_eq hitem]
  rfl

theorem isDirectory_eq (h : d.Leads p) (hitem : d.item? (locate d.home p) = some .directory) :
    d.isDirectory p = true := by
  rw [isDirectory, h.find_eq hitem]

end Leads

theorem find_of_isDirectory (h : d.isDirectory p = true) : d.find p = .ok (locate d.home p, .directory) := by
  unfold isDirectory at h
  split at h
  · next loc hfind => rw [hfind, (find_eq_ok hfind).1]
  · cases h

/-! ## Paths that name a place -/

namespace Reaches

theorem mono (h : d.Reaches p dir name) (hg : d.Grows e) : e.Reaches p dir name := by
  refine ⟨h.accepted, h.last_eq, h.isName, ?_, hg.directory dir h.directory⟩
  rw [hg.origin_eq]
  exact hg.follow_eq h.follow_eq

/-- If the name is short enough, the path leads to its place, and further through slashes where there is a directory. -/
theorem leads (h : d.Reaches p dir name) (hfits : child dir name = .ok (dir ++ [name]))
    (hend : p.parts.getLast? ≠ some "" ∨ d.item? (locate d.home p) = some .directory) : d.Leads p := by
  have hname : d.enter dir name = .ok (locate d.home p) := by
    rw [enter_of_directory h.directory, h.isName.not_vacuous, if_neg Bool.false_ne_true, if_neg h.isName.not_up, hfits,
      h.location_eq]
  have hproper : d.follow (d.origin p) (properParts p) = .ok (locate d.home p) := by
    rw [← List.dropLast_append_getLast? name h.last_eq, follow_append, h.follow_eq]
    change d.follow dir [name] = _
    rw [follow_cons, hname]
    rfl
  have hparts : p.parts = properParts p ++ p.parts.rtakeWhile (· == "") := List.rdropWhile_append_rtakeWhile.symm
  refine ⟨h.accepted, ?_⟩
  rw [hparts, follow_append, hproper]
  change d.follow (locate d.home p) _ = _
  rcases hend with hend | hdir
  · have hnone : p.parts.rtakeWhile (· == "") = [] := by
      refine List.rtakeWhile_eq_nil_iff.2 fun hne hlast => hend ?_
      rw [List.getLast?_eq_some_getLast hne, beq_iff_eq.1 hlast]
    rw [hnone]
    rfl
  · refine follow_of_isVacuous hdir fun part hpart => ?_
    rw [Path.isVacuous, List.mem_rtakeWhile_imp hpart, Bool.true_or]

end Reaches

/-! ## Writing -/

/-- A file can be written at the path. -/
structure Writable (d : Disk) (p : Path) (dir : Location) (name : String) : Prop extends d.Reaches p dir name where
  fits : child dir name = .ok (dir ++ [name])
  last_ne : p.parts.getLast? ≠ some ""
  not_directory : d.item? (locate d.home p) ≠ some .directory

theorem exists_writable_of_write (h : d.write p bytes = .ok e) : ∃ dir name, d.Writable p dir name := by
  have hwrites := writes_of_write h
  obtain ⟨place, hplace, h⟩ := bind_eq_ok_iff.1 h
  by_cases hend : p.parts.getLast? = some ""
  · simp only [hend, if_true] at h
    cases h
  · simp only [hend, if_false] at h
    obtain ⟨_, hchild, _⟩ := bind_eq_ok_iff.1 h
    obtain ⟨loc, hfits, _⟩ := map_eq_ok_iff.1 hchild
    obtain rfl := child_eq_ok hfits
    exact ⟨place.dir, place.name, reaches_of_place hplace, hfits, hend, hwrites.not_directory⟩

namespace Writable

theorem exists_write (h : d.Writable p dir name) (bytes : ByteArray) : ∃ e, d.write p bytes = .ok e := by
  obtain ⟨place, hplace, rfl, rfl⟩ := h.exists_place (.always .isADirectory)
  have hitem : d.item? (place.dir ++ [place.name]) ≠ some .directory := h.location_eq ▸ h.not_directory
  refine ⟨d.put place.dir place.name (.file bytes) place.isName place.isDir (.inr hitem), ?_⟩
  rw [write, hplace]
  simp only [bind, Except.bind, h.last_ne, if_false, h.fits]
  exact dif_neg hitem

theorem mono (h : d.Writable p dir name) (hg : d.Grows e) (hitem : e.item? (locate e.home p) ≠ some .directory) :
    e.Writable p dir name :=
  ⟨h.toReaches.mono hg, h.fits, h.last_ne, hitem⟩

theorem leads (h : d.Writable p dir name) : d.Leads p := h.toReaches.leads h.fits (.inl h.last_ne)

end Writable

/-! ## Making directories -/

theorem Grows.isDirectory_eq (h : d.Grows e) (hp : d.isDirectory p = true) : e.isDirectory p = true := by
  have hfind := find_of_isDirectory hp
  refine ((leads_of_find hfind).mono h).isDirectory_eq ?_
  rw [h.locate_eq]
  exact h.directory _ (find_eq_ok hfind).2

theorem isDirectory_of_makeDirectory (h : d.makeDirectory p = .ok e) : e.isDirectory p = true := by
  have hgrows := (addsDirectories_of_makeDirectory h).grows
  obtain ⟨_, _, hitem⟩ := makeDirectory_eq_ok h
  have hdir : e.item? (locate e.home p) = some .directory := by
    rw [hgrows.locate_eq, hitem, if_pos rfl]
  obtain ⟨place, hplace, h⟩ := bind_eq_ok_iff.1 h
  obtain ⟨loc, hfits, _⟩ := bind_eq_ok_iff.1 h
  obtain rfl := child_eq_ok hfits
  exact (((reaches_of_place hplace).mono hgrows).leads hfits (.inr hdir)).isDirectory_eq hdir

/-- A path that leads somewhere names a place, unless its last part is no name. -/
theorem Leads.place_or_reaches (h : d.Leads p) (flaw : Flaw) :
    d.place p (.always flaw) = .error flaw ∨
      ∃ dir name, d.Reaches p dir name ∧ child dir name = .ok (dir ++ [name]) := by
  cases hlast : (properParts p).getLast? with
  | none =>
      left
      rw [place, h.accepted]
      simp only [bind, Except.bind, hlast]
      rfl
  | some name =>
      have hparts : p.parts = (properParts p).dropLast ++ (name :: p.parts.rtakeWhile (· == "")) := by
        rw [List.append_cons, List.dropLast_append_getLast? name hlast]
        exact List.rdropWhile_append_rtakeWhile.symm
      have hfollow := h.follow_eq
      rw [hparts, follow_append, bind_eq_ok_iff] at hfollow
      obtain ⟨dir, hdir, hfollow⟩ := hfollow
      rw [follow_cons, bind_eq_ok_iff] at hfollow
      obtain ⟨there, henter, _⟩ := hfollow
      have hitem := directory_of_enter henter
      by_cases hpoint : name = "." ∨ name = ".."
      · left
        rw [place, h.accepted]
        simp only [bind, Except.bind, hlast, hdir]
        split
        · next hd => rw [hitem] at hd; cases hd
        · next hd => rw [hitem] at hd; cases hd
        · rcases hpoint with rfl | rfl <;> rfl
      · rw [not_or] at hpoint
        have hname := isName_of_getLast?_properParts hlast hpoint.1 hpoint.2
        rw [enter_of_directory hitem, hname.not_vacuous, if_neg Bool.false_ne_true, if_neg hname.not_up] at henter
        exact .inr ⟨dir, name, ⟨h.accepted, hlast, hname, hdir, hitem⟩, child_eq_ok henter ▸ henter⟩

/-- Where there is a directory, none is made, and it is not missed either. -/
theorem makeDirectory_of_isDirectory (h : d.isDirectory p = true) : d.makeDirectory p = .error .alreadyExists := by
  have hfind := find_of_isDirectory h
  rcases (leads_of_find hfind).place_or_reaches .alreadyExists with hplace | ⟨dir, name, hreaches, hfits⟩
  · rw [makeDirectory, hplace]
    rfl
  · obtain ⟨place, hplace, rfl, rfl⟩ := hreaches.exists_place (.always .alreadyExists)
    have hitem : d.item? (place.dir ++ [place.name]) = some .directory := hreaches.location_eq ▸ (find_eq_ok hfind).2
    rw [makeDirectory, hplace]
    simp only [bind, Except.bind, hfits]
    split
    · rfl
    · next hnone => rw [hitem] at hnone; cases hnone

theorem exists_ancestorsWithin_eq (fuel : Nat) (p : Path) : ∃ above, p.ancestorsWithin fuel = p :: above := by
  cases fuel with
  | zero => exact ⟨[], rfl⟩
  | succ fuel =>
      rw [Path.ancestorsWithin]
      split
      · exact ⟨_, rfl⟩
      · exact ⟨[], rfl⟩

theorem makeFirst_of_isDirectory (h : p.text = "" ∨ d.isDirectory p = true) (above : List Path) :
    d.makeFirst (p :: above) = (d, .ok ()) := by
  rw [makeFirst]
  split
  · rfl
  · next hempty =>
      have hdir := h.resolve_left hempty
      simp only [makeDirectory_of_isDirectory hdir, hdir, if_true]

theorem isDirectory_of_makeFirst {above : List Path} (h : d.makeFirst (p :: above) = (e, .ok ())) :
    p.text = "" ∨ e.isDirectory p = true := by
  rw [makeFirst] at h
  split at h
  · next hempty => exact .inl hempty
  · right
    split at h
    · next f hmade =>
        cases h
        exact isDirectory_of_makeDirectory hmade
    · split at h
      · cases h
      · next f _ =>
          split at h
          · next hmade =>
              cases h
              exact isDirectory_of_makeDirectory hmade
          · split at h
            · next hdir => cases h; exact hdir
            · cases h
    · split at h
      · next hdir => cases h; exact hdir
      · cases h

/-- A directory that was made is there to stay. -/
theorem makeDirectories_again (h : d.makeDirectories p = (e, .ok ())) (hg : e.Grows f) :
    f.makeDirectories p = (f, .ok ()) := by
  obtain ⟨above, habove⟩ := exists_ancestorsWithin_eq p.components.length p
  rw [makeDirectories, Path.ancestors, habove] at h ⊢
  exact makeFirst_of_isDirectory ((isDirectory_of_makeFirst h).imp id hg.isDirectory_eq) above

end DesignTokens.Disk
