import DesignTokens.Contract.Router
import DesignTokens.Proofs.Grounded
import DesignTokens.Proofs.Jobs

/-!
# Jobs that commute

Two jobs commute at a disk when neither one's answer depends on whether the other has run, and both orders end in the
same disk. Jobs that go on do so step by step: reading what the other one does not touch, making what is made anyway,
and writing other files.
-/

namespace DesignTokens

namespace Disk

open DesignTokens.Path

variable {d e f : Disk} {p q : Path} {loc base dir : Location} {name : String} {bytes : ByteArray} {flaw : Flaw}

/-! ## Growth in one place -/

/-- `e` is `d` with other items at a location, below it and on the way to it. -/
structure GrowsAt (d : Disk) (base : Location) (e : Disk) : Prop extends d.Grows e where
  item?_eq : ∀ loc, ¬loc <+: base → ¬base <+: loc → e.item? loc = d.item? loc

namespace GrowsAt

theorem refl (d : Disk) (base : Location) : d.GrowsAt base d := ⟨.refl d, fun _ _ _ => rfl⟩

theorem trans (h : d.GrowsAt base e) (h' : e.GrowsAt base f) : d.GrowsAt base f :=
  ⟨h.toGrows.trans h'.toGrows, fun loc habove hbelow =>
    (h'.item?_eq loc habove hbelow).trans (h.item?_eq loc habove hbelow)⟩

end GrowsAt

theorem Writes.growsAt (h : d.Writes p bytes e) (hbelow : base <+: locate d.home p) : d.GrowsAt base e := by
  refine ⟨h.grows, fun loc _ hloc => ?_⟩
  rw [h.item?_eq, if_neg]
  rintro rfl
  exact hloc hbelow

theorem Grounded.growsAt_makeDirectories (h : d.Grounded p) :
    d.GrowsAt (locate d.home p) (d.makeDirectories p).1 :=
  ⟨(addsDirectories_makeFirst p.ancestors d).grows, fun _ habove _ => h.item?_makeDirectories habove⟩

/-! ## Reading elsewhere -/

/-- The path leads neither to a location, nor on the way to it, nor below it. -/
structure Avoids (home : Location) (p : Path) (base : Location) : Prop where
  not_above : ¬locate home p <+: base
  not_below : ¬base <+: locate home p

theorem textOf?_congr (h : (e.find p).toOption = (d.find p).toOption) : e.textOf? p = d.textOf? p := by
  unfold textOf? readText read
  cases hd : d.find p <;> cases he : e.find p <;> rw [hd, he] at h <;> cases h
  · rfl
  · rfl

theorem isDirectory_congr (h : (e.find p).toOption = (d.find p).toOption) : e.isDirectory p = d.isDirectory p := by
  unfold isDirectory
  cases hd : d.find p <;> cases he : e.find p <;> rw [hd, he] at h <;> cases h
  rfl

theorem filesUnder_congr (h : ∀ loc, base <+: loc → e.item? loc = d.item? loc) :
    e.filesUnder base = d.filesUnder base := by
  have hirrefl : ∀ {a b : Location × ByteArray}, a.1 < b.1 → b.1 < a.1 → a = b := fun hab hba =>
    absurd hba (List.lt_asymm hab)
  refine List.Perm.eq_of_pairwise (fun a b _ _ => hirrefl) pairwise_filesUnder pairwise_filesUnder ?_
  have hnodup : ∀ d : Disk, (d.filesUnder base).Nodup := fun d => by
    refine pairwise_filesUnder.imp ?_
    rintro a _ hlt rfl
    exact List.lt_irrefl a.1 hlt
  refine (List.perm_ext_iff_of_nodup (hnodup e) (hnodup d)).2 fun ⟨loc, bytes⟩ => ?_
  rw [mem_filesUnder, mem_filesUnder]
  exact and_congr_right fun hloc => by rw [h loc hloc]

namespace GrowsAt

theorem toOption_find (h : d.GrowsAt base e) (hp : d.Grounded p) (havoids : Avoids d.home p base) :
    (e.find p).toOption = (d.find p).toOption :=
  hp.toOption_find h.toGrows (h.item?_eq _ havoids.not_above havoids.not_below)

theorem textOf?_eq (h : d.GrowsAt base e) (hp : d.Grounded p) (havoids : Avoids d.home p base) :
    e.textOf? p = d.textOf? p :=
  textOf?_congr (h.toOption_find hp havoids)

theorem isDirectory_eq (h : d.GrowsAt base e) (hp : d.Grounded p) (havoids : Avoids d.home p base) :
    e.isDirectory p = d.isDirectory p :=
  isDirectory_congr (h.toOption_find hp havoids)

theorem walk_eq (h : d.GrowsAt base e) (hp : d.Grounded p) (havoids : Avoids d.home p base) :
    e.walk p = d.walk p := by
  have hfind := h.toOption_find hp havoids
  cases hd : d.find p with
  | error flaw =>
      cases he : e.find p with
      | error flaw' => rw [walk, walk, hd, he]
      | ok found =>
          rw [hd, he] at hfind
          cases hfind
  | ok found =>
      obtain ⟨loc, item⟩ := found
      cases he : e.find p with
      | error flaw =>
          rw [hd, he] at hfind
          cases hfind
      | ok found' =>
          rw [hd, he] at hfind
          cases hfind
          obtain ⟨rfl, _⟩ := find_eq_ok hd
          have hbelow : ∀ there, locate d.home p <+: there → e.item? there = d.item? there := fun there hthere => by
            refine h.item?_eq there (fun habove => havoids.not_above (hthere.trans habove)) fun hbase => ?_
            rcases List.prefix_or_prefix_of_prefix hthere hbase with hle | hle
            · exact havoids.not_above hle
            · exact havoids.not_below hle
          rw [Disk.walk_eq he, Disk.walk_eq hd, filesUnder_congr hbelow]

end GrowsAt

/-! ## Files that a directory can hold -/

/-- Whether a file can be written at the path depends on nothing but whether a directory is there. -/
inductive Settled (d : Disk) (p : Path) : Prop where
  | refused {flaw : Flaw} (h : accept p = .error flaw)
  | held {dir : Location} {name : String} (reaches : d.Reaches p dir name) (fits : child dir name = .ok (dir ++ [name]))
      (last_ne : p.parts.getLast? ≠ some "")

theorem write_of_accept_error (h : accept p = .error flaw) : d.write p bytes = .error flaw := by
  rw [write, place, h]
  rfl

theorem Reaches.write_of_directory (h : d.Reaches p dir name) (hfits : child dir name = .ok (dir ++ [name]))
    (hlast : p.parts.getLast? ≠ some "") (hitem : d.item? (locate d.home p) = some .directory) :
    d.write p bytes = .error .isADirectory := by
  obtain ⟨place, hplace, rfl, rfl⟩ := h.exists_place (.always .isADirectory)
  rw [← h.location_eq] at hitem
  rw [write, hplace]
  simp only [bind, Except.bind, hlast, if_false, hfits]
  exact dif_pos hitem

/-- A short name in a directory is settled. -/
theorem settled_join (hdir : d.isDirectory q = true) (hname : IsName name) (hshort : name.utf8ByteSize ≤ maxNameSize) :
    d.Settled (q.join ⟨name⟩) := by
  cases haccept : accept (q.join ⟨name⟩) with
  | error flaw => exact .refused haccept
  | ok u =>
      have hfind := find_of_isDirectory hdir
      have hleads := leads_of_find hfind
      obtain ⟨above, _, hparts, hown, habs⟩ :=
        parts_join (q := ⟨name⟩) (accept_eq_ok_iff.1 hleads.accepted).2.2 hname.not_isAbsolute
      have hjoined : (q.join ⟨name⟩).parts = above ++ [name] := by rw [hparts, parts_of_noSlash hname.no_slash]
      have hempty : name ≠ "" := by
        rintro rfl
        cases hname.not_vacuous
      have hproper : properParts (q.join ⟨name⟩) = above ++ [name] := by
        change (q.join ⟨name⟩).parts.rdropWhile _ = _
        rw [hjoined, List.rdropWhile_concat_neg _ _ _ (by simpa using hempty)]
      have hfollow : d.follow (d.origin q) above = .ok (locate d.home q) := by
        rcases hown with hown | hown
        · exact hown ▸ hleads.follow_eq
        · obtain ⟨there, hthere⟩ := follow_of_prefix (hown ▸ List.prefix_append ..) hleads.follow_eq
          have hend := hleads.follow_eq
          rw [hown, follow_append, hthere] at hend
          change d.follow there [""] = _ at hend
          rw [follow_singleton, enter_of_directory (directory_of_enter (hend))] at hend
          rw [hthere, ← hend]
          rfl
      refine .held ⟨haccept, by rw [hproper, List.getLast?_concat], hname, ?_, (find_eq_ok hfind).2⟩
        (if_neg (Nat.not_lt.2 hshort)) ?_
      · rw [hproper, List.dropLast_concat, origin_of_isAbsolute habs, hfollow]
      · rw [hjoined, List.getLast?_concat]
        simpa using hempty

end Disk

namespace Job

variable {α β : Type} {x : Job α} {y : Job β} {f : α → Job β} {d e : Disk} {p q : Path} {s t : String}

/-! ## Commuting step by step -/

/-- Neither job's answer at the disk depends on whether the other has run, and both orders end in the same disk. -/
structure CommutesAt (x : Job α) (y : Job β) (d : Disk) : Prop where
  fst_eq : (x (y d).2).1 = (x d).1
  snd_eq : (y (x d).2).1 = (y d).1
  disk_eq : (y (x d).2).2 = (x (y d).2).2

namespace CommutesAt

theorem symm (h : CommutesAt x y d) : CommutesAt y x d := ⟨h.snd_eq, h.fst_eq, h.disk_eq.symm⟩

theorem of_idle {answer : Except Fault α} (h : x d = (answer, d)) (hy : x (y d).2 = (answer, (y d).2)) :
    CommutesAt x y d := by
  refine ⟨?_, ?_, ?_⟩ <;> simp only [h, hy]

theorem pure_right (b : β) : CommutesAt x (pure b) d := (of_idle (x := (pure b : Job β)) rfl rfl).symm

theorem inspect_right {f : Disk → Except Fault β} (h : f (x d).2 = f d) : CommutesAt x (inspect f) d :=
  (of_idle (x := inspect f) rfl (inspect_of_eq h)).symm

/-- A job commutes with steps one after the other if it commutes with each where it is taken. -/
theorem bind_right {f : β → Job γ} (h : CommutesAt x y d)
    (hf : ∀ b, (y d).1 = .ok b → CommutesAt x (f b) (y d).2) : CommutesAt x (y >>= f) d := by
  obtain ⟨hx, hy, hdisk⟩ := h
  rcases hfirst : y d with ⟨fault | b, e⟩
  · have hlater : y (x d).2 = (.error fault, (x e).2) := by
      rw [hfirst] at hx hy hdisk
      exact Prod.ext hy hdisk
    have hown : x e = ((x d).1, (x e).2) := by
      rw [hfirst] at hx
      exact Prod.ext hx rfl
    have hbind : (y >>= f) d = (.error fault, e) := bind_of_error hfirst
    have hbind' : (y >>= f) (x d).2 = (.error fault, (x e).2) := bind_of_error hlater
    exact ⟨by rw [hbind, hown], by rw [hbind, hbind'], by rw [hbind, hbind']⟩
  · have hlater : y (x d).2 = (.ok b, (x e).2) := by
      rw [hfirst] at hx hy hdisk
      exact Prod.ext hy hdisk
    have hrest := hf b (by rw [hfirst])
    have hbind : (y >>= f) d = f b e := bind_of_ok hfirst
    have hbind' : (y >>= f) (x d).2 = f b (x e).2 := bind_of_ok hlater
    rw [hfirst] at hx hrest
    exact ⟨by rw [hbind, hrest.fst_eq, hx], by rw [hbind, hbind', hrest.snd_eq],
      by rw [hbind, hbind', hrest.disk_eq]⟩

theorem bind_left {f : α → Job γ} (h : CommutesAt x y d)
    (hf : ∀ a, (x d).1 = .ok a → CommutesAt (f a) y (x d).2) : CommutesAt (x >>= f) y d :=
  (h.symm.bind_right fun a ha => (hf a ha).symm).symm

end CommutesAt

/-! ## Changes in one place -/

/-- The job changes the disk at the path, below it and on the way to it alone, where it only adds to directories. -/
def Confined (x : Job α) (p : Path) : Prop := ∀ d : Disk, d.Grounded p → d.GrowsAt (Disk.locate d.home p) (x d).2

theorem confined_of_unchanged (h : ∀ d, (x d).2 = d) : x.Confined p := fun d _ => (h d).symm ▸ .refl d _

theorem confined_pure (a : α) : Confined (pure a) p := confined_of_unchanged fun _ => rfl

theorem confined_inspect (f : Disk → Except Fault α) : (inspect f).Confined p := confined_of_unchanged fun _ => rfl

theorem confined_bind (hx : x.Confined p) (hf : ∀ a, (f a).Confined p) : Confined (x >>= f) p := by
  refine relates_bind (r := fun d e => d.Grounded p → d.GrowsAt (Disk.locate d.home p) e) (fun h h' hd => ?_) hx hf
  have hfirst := h hd
  have hrest := h' (hd.mono hfirst.toGrows)
  rw [hfirst.locate_eq] at hrest
  exact hfirst.trans hrest

theorem confined_makeDirectories (p : Path) : (makeDirectories p).Confined p := fun d hd => by
  rw [makeDirectories_of_eq rfl]
  exact hd.growsAt_makeDirectories

theorem confined_writeText (h : ∀ home, Disk.locate home p <+: Disk.locate home q) : (writeText q t).Confined p :=
  relates_writeText (r := fun d e => d.Grounded p → d.GrowsAt (Disk.locate d.home p) e) (fun d _ => .refl d _)
    fun hwrite _ => (Disk.writes_of_write hwrite).growsAt (h _)

/-! ## Directories and files -/

/-- A directory that is made, or cannot be, is not in the way of a job that makes it too. -/
theorem commutesAt_makeDirectories {f : Unit → Job β} (hd : d.Grounded p) (hf : (f ()).Confined p) :
    CommutesAt (makeDirectories p) (makeDirectories p >>= f) d := by
  have hagain : ∀ {answer e}, makeDirectories p d = (answer, e) → makeDirectories p e = (answer, e) := by
    rintro _ _ ⟨⟩
    rw [makeDirectories, hd.makeDirectories_again rfl]
  have hself : CommutesAt (makeDirectories p) (makeDirectories p) d := by
    have hsecond : makeDirectories p (makeDirectories p d).2 = makeDirectories p d := hagain rfl
    constructor <;> rw [hsecond]
  refine hself.bind_right fun _ hok => ?_
  have hmade : makeDirectories p d = (.ok (), (makeDirectories p d).2) := Prod.ext hok rfl
  have hlater := hf _ (hd.mono (confined_makeDirectories p d hd).toGrows)
  refine .of_idle (hagain hmade) ?_
  exact makeDirectories_eq_ok_iff.2 (Disk.makeDirectories_again (makeDirectories_eq_ok_iff.1 hmade) hlater.toGrows)

theorem isDirectory_of_makeDirectories (h : (makeDirectories p d).1 = .ok ()) (hp : p.text ≠ "") :
    (makeDirectories p d).2.isDirectory p = true := by
  have hmade := makeDirectories_eq_ok_iff.1 (Prod.ext h rfl : makeDirectories p d = (.ok (), (makeDirectories p d).2))
  obtain ⟨above, habove⟩ := Disk.exists_ancestorsWithin_eq p.components.length p
  rw [Disk.makeDirectories, Path.ancestors, habove] at hmade
  exact (Disk.isDirectory_of_makeFirst hmade).resolve_left hp

theorem makeDirectories_of_isDirectory (h : d.isDirectory p = true) : makeDirectories p d = (.ok (), d) := by
  obtain ⟨above, habove⟩ := Disk.exists_ancestorsWithin_eq p.components.length p
  rw [makeDirectories_eq_ok_iff, Disk.makeDirectories, Path.ancestors, habove]
  exact Disk.makeFirst_of_isDirectory (.inr h) above

theorem item?_writeText (loc : Location) : (writeText p t d).2.item? loc =
    if (writeText p t d).1 = .ok () ∧ loc = Disk.locate d.home p then some (.file t.toUTF8) else d.item? loc := by
  cases hwrite : d.write p t.toUTF8 with
  | error flaw =>
      rw [writeText_of_error hwrite, if_neg]
      rintro ⟨⟨⟩, _⟩
  | ok e =>
      rw [writeText_of_ok hwrite, (Disk.writes_of_write hwrite).item?_eq]
      simp

theorem grows_writeText : d.Grows (writeText p t d).2 := by
  cases hwrite : d.write p t.toUTF8 with
  | error flaw =>
      rw [writeText_of_error hwrite]
      exact .refl d
  | ok e =>
      rw [writeText_of_ok hwrite]
      exact (Disk.writes_of_write hwrite).grows

/-- Where it is settled whether a file can be written, the answer stays as long as the item does. -/
theorem writeText_settled (hp : d.Settled p) (hg : d.Grows e)
    (hitem : e.item? (Disk.locate d.home p) = d.item? (Disk.locate d.home p)) :
    (writeText p t e).1 = (writeText p t d).1 := by
  cases hp with
  | refused haccept =>
      rw [writeText_of_error (Disk.write_of_accept_error haccept),
        writeText_of_error (Disk.write_of_accept_error haccept)]
  | held reaches fits last_ne =>
      have hlater := reaches.mono hg
      rw [← hg.locate_eq] at hitem
      by_cases hdir : d.item? (Disk.locate d.home p) = some .directory
      · have hthere : e.item? (Disk.locate e.home p) = some .directory := by rw [hitem, hg.locate_eq, hdir]
        rw [writeText_of_error (reaches.write_of_directory fits last_ne hdir),
          writeText_of_error (hlater.write_of_directory fits last_ne hthere)]
      · have hthere : e.item? (Disk.locate e.home p) ≠ some .directory := by rwa [hitem, hg.locate_eq]
        obtain ⟨d', hd'⟩ := Disk.Writable.exists_write ⟨reaches, fits, last_ne, hdir⟩ t.toUTF8
        obtain ⟨e', he'⟩ := Disk.Writable.exists_write ⟨hlater, fits, last_ne, hthere⟩ t.toUTF8
        rw [writeText_of_ok hd', writeText_of_ok he']

/-- Different files can be written in either order. -/
theorem commutesAt_writeText (hp : d.Settled p) (hq : d.Settled q)
    (hne : Disk.locate d.home p ≠ Disk.locate d.home q) : CommutesAt (writeText p s) (writeText q t) d := by
  have hgp : d.Grows (writeText p s d).2 := grows_writeText
  have hgq : d.Grows (writeText q t d).2 := grows_writeText
  have hfst : (writeText p s (writeText q t d).2).1 = (writeText p s d).1 :=
    writeText_settled hp hgq (by rw [item?_writeText, if_neg fun h => hne h.2])
  have hsnd : (writeText q t (writeText p s d).2).1 = (writeText q t d).1 :=
    writeText_settled hq hgp (by rw [item?_writeText, if_neg fun h => hne h.2.symm])
  refine ⟨hfst, hsnd, Disk.ext_item? ?_ fun loc => ?_⟩
  · rw [(grows_writeText (p := q)).home_eq, hgp.home_eq, (grows_writeText (p := p)).home_eq, hgq.home_eq]
  · rw [item?_writeText, item?_writeText, item?_writeText, item?_writeText, hfst, hsnd, hgp.locate_eq, hgq.locate_eq]
    by_cases hloc : loc = Disk.locate d.home p
    · subst hloc
      simp [hne]
    · simp [hloc]

end Job

end DesignTokens
