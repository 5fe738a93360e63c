import DesignTokens.Project.Basic
import DesignTokens.Proofs.Location

/-!
# Jobs

A job takes its steps until one of them fails. What a job may do to files is what its steps may do to them, wherever it
stops.
-/

namespace DesignTokens

/-- A text that is read is the one whose bytes are at the location that the path names. -/
theorem Disk.loadText_eq_ok {d : Disk} {p : Path} {text : String} (h : d.loadText p = .ok text) :
    d.item? (locate d.home p) = some (.file text.toUTF8) := by
  cases hread : d.readText p with
  | error flaw =>
      rw [loadText, hread] at h
      cases h
  | ok found =>
      rw [loadText, hread] at h
      cases h
      exact readText_eq_ok hread

namespace Job

variable {α β : Type} {x : Job α} {f : α → Job β} {d e : Disk} {fault : Fault}

/-! ## Step by step -/

theorem bind_of_ok {a : α} (h : x d = (.ok a, e)) : (x >>= f) d = f a e := by
  change ExceptT.bindCont f (x d).1 (x d).2 = f a e
  rw [h]
  rfl

theorem bind_of_error (h : x d = (.error fault, e)) : (x >>= f) d = (.error fault, e) := by
  change ExceptT.bindCont f (x d).1 (x d).2 = (.error fault, e)
  rw [h]
  rfl

theorem bind_eq_ok_iff {b : β} : (x >>= f) d = (.ok b, e) ↔ ∃ a m, x d = (.ok a, m) ∧ f a m = (.ok b, e) := by
  constructor
  · intro h
    rcases hx : x d with ⟨fault | a, m⟩
    · rw [bind_of_error hx] at h
      cases h
    · rw [bind_of_ok hx] at h
      exact ⟨a, m, rfl, h⟩
  · rintro ⟨a, m, hx, h⟩
    rw [bind_of_ok hx, h]

theorem inspect_of_eq {f : Disk → Except Fault α} {result : Except Fault α} (h : f d = result) :
    inspect f d = (result, d) := by
  rw [inspect, h]

theorem loadText_of_eq {p : Path} {result : Except Fault String} (h : d.loadText p = result) :
    loadText p d = (result, d) :=
  inspect_of_eq h

theorem ofExcept_of_eq {result result' : Except Fault α} (h : result = result') :
    ofExcept result d = (result', d) := by
  rw [ofExcept, h]

theorem makeDirectories_of_eq {p : Path} {result : Except Disk.Flaw Unit} (h : (d.makeDirectories p).2 = result) :
    makeDirectories p d = (result.mapError (.disk p), (d.makeDirectories p).1) := by
  rw [← h]
  rfl

theorem writeText_of_ok {p : Path} {text : String} (h : d.write p text.toUTF8 = .ok e) :
    writeText p text d = (.ok (), e) := by
  rw [writeText, h]

theorem writeText_of_error {p : Path} {text : String} {flaw : Disk.Flaw} (h : d.write p text.toUTF8 = .error flaw) :
    writeText p text d = (.error (.disk p flaw), d) := by
  rw [writeText, h]

theorem writeText_eq_ok_iff {p : Path} {text : String} :
    writeText p text d = (.ok (), e) ↔ d.write p text.toUTF8 = .ok e := by
  constructor
  · intro h
    cases hwrite : d.write p text.toUTF8 with
    | error flaw =>
        rw [writeText_of_error hwrite] at h
        cases h
    | ok f =>
        rw [writeText_of_ok hwrite] at h
        cases h
        rfl
  · exact writeText_of_ok

theorem makeDirectories_eq_ok_iff {p : Path} :
    makeDirectories p d = (.ok (), e) ↔ d.makeDirectories p = (e, .ok ()) := by
  rw [makeDirectories_of_eq rfl]
  rcases d.makeDirectories p with ⟨f, flaw | _⟩
  · constructor <;> rintro ⟨⟩
  · constructor <;> rintro ⟨⟩ <;> rfl

/-! ## Before and after -/

/-- The relation holds between the disk before the job and the disk after it, wherever the job stops. -/
def Relates (r : Disk → Disk → Prop) (job : Job α) : Prop := ∀ d, r d (job d).2

section

variable {r : Disk → Disk → Prop}

theorem relates_bind (htrans : ∀ {d e m}, r d e → r e m → r d m) (hx : x.Relates r) (hf : ∀ a, (f a).Relates r) :
    Relates r (x >>= f) := by
  intro d
  have hfirst := hx d
  rcases hrun : x d with ⟨fault | a, e⟩
  · rw [hrun] at hfirst
    rw [bind_of_error hrun]
    exact hfirst
  · rw [hrun] at hfirst
    rw [bind_of_ok hrun]
    exact htrans hfirst (hf a e)

theorem relates_mapM (hrefl : ∀ d, r d d) (htrans : ∀ {d e m}, r d e → r e m → r d m) (h : ∀ a, (f a).Relates r)
    (as : List α) : Relates r (as.mapM f) := by
  induction as with
  | nil => exact hrefl
  | cons a as ih =>
      rw [List.mapM_cons]
      exact relates_bind htrans (h a) fun _ => relates_bind htrans ih fun _ => hrefl

theorem relates_writeText {p : Path} {text : String} (hrefl : ∀ d, r d d)
    (h : ∀ {d e}, d.write p text.toUTF8 = .ok e → r d e) : (writeText p text).Relates r := by
  intro d
  cases hwrite : d.write p text.toUTF8 with
  | error flaw =>
      rw [writeText_of_error hwrite]
      exact hrefl d
  | ok e =>
      rw [writeText_of_ok hwrite]
      exact h hwrite

theorem relates_removeDirectory {p : Path} (h : ∀ d, r d (d.removeDirectory p).1) : (removeDirectory p).Relates r := by
  intro d
  have hremoved := h d
  rw [removeDirectory]
  split <;> next hrun => rw [hrun] at hremoved; exact hremoved

end

/-! ## Files that stay -/

/-- The job keeps the files outside the locations that it may touch, whether it succeeds or not. -/
def KeepsFiles (home : Location) (touched : Set Location) (job : Job α) : Prop :=
  ∀ d : Disk, d.home = home → d.KeepsFiles touched (job d).2

variable {home : Location} {touched : Set Location} {p : Path}

/-- The files outside the locations are the same on the second disk, if the first has this home. -/
def KeepsFrom (home : Location) (touched : Set Location) (d e : Disk) : Prop :=
  d.home = home → d.KeepsFiles touched e

theorem keepsFrom_refl (d : Disk) : KeepsFrom home touched d d := fun _ => .refl d touched

theorem keepsFrom_trans {m : Disk} (h : KeepsFrom home touched d e) (h' : KeepsFrom home touched e m) :
    KeepsFrom home touched d m := fun hd =>
  (h hd).trans (h' ((h hd).home_eq.trans hd))

theorem keepsFiles_of_unchanged (h : ∀ d, (x d).2 = d) : x.KeepsFiles home touched := fun d =>
  (h d).symm ▸ keepsFrom_refl d

theorem keepsFiles_pure (a : α) : KeepsFiles home touched (pure a) := keepsFiles_of_unchanged fun _ => rfl

theorem keepsFiles_inspect (f : Disk → Except Fault α) : (inspect f).KeepsFiles home touched :=
  keepsFiles_of_unchanged fun _ => rfl

theorem keepsFiles_ofExcept (result : Except Fault α) : (ofExcept result).KeepsFiles home touched :=
  keepsFiles_of_unchanged fun _ => rfl

theorem keepsFiles_bind (hx : x.KeepsFiles home touched) (hf : ∀ a, (f a).KeepsFiles home touched) :
    KeepsFiles home touched (x >>= f) :=
  relates_bind (r := KeepsFrom home touched) keepsFrom_trans hx hf

theorem keepsFiles_mapM (h : ∀ a, (f a).KeepsFiles home touched) (as : List α) :
    KeepsFiles home touched (as.mapM f) :=
  relates_mapM (r := KeepsFrom home touched) keepsFrom_refl keepsFrom_trans h as

theorem keepsFiles_writeText (hp : Disk.locate home p ∈ touched) (text : String) :
    (writeText p text).KeepsFiles home touched :=
  relates_writeText (r := KeepsFrom home touched) keepsFrom_refl fun hwrite hd =>
    (Disk.writes_of_write hwrite).keepsFiles (hd ▸ hp)

theorem keepsFiles_makeDirectories (p : Path) : (makeDirectories p).KeepsFiles home touched := by
  intro d _
  rw [makeDirectories_of_eq rfl]
  exact (Disk.addsDirectories_makeFirst p.ancestors d).keepsFiles touched

theorem keepsFiles_removeDirectory (h : ∀ loc, Disk.locate home p <+: loc → loc ∈ touched) :
    (removeDirectory p).KeepsFiles home touched :=
  relates_removeDirectory (r := KeepsFrom home touched) fun _ hd => Disk.keepsFiles_removeDirectory (hd ▸ h)

end Job

end DesignTokens
