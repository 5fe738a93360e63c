import DesignTokens.Proofs.LastNames
import DesignTokens.Proofs.Walk

/-!
# Paths that go up only where they can

A path that goes up from what does not exist leads nowhere, until something is made there. A path whose way up can be
followed leads to the same place before and after, and making the directories above it adds nothing beside its way.
-/

namespace DesignTokens

namespace Path

variable {p q : Path}

/-! ## Parents -/

theorem exists_join_append (sep : List Char) {fs : List (List Char)} (hne : fs ≠ []) (gs : List (List Char)) :
    ∃ rest, Text.join sep (fs ++ gs) = Text.join sep fs ++ rest := by
  induction fs with
  | nil => exact absurd rfl hne
  | cons f fs ih =>
      cases fs with
      | nil =>
          cases gs with
          | nil => exact ⟨[], (List.append_nil _).symm⟩
          | cons g gs => exact ⟨sep ++ Text.join sep (g :: gs), by simp [Text.join]⟩
      | cons f' fs =>
          obtain ⟨rest, hrest⟩ := ih (List.cons_ne_nil f' fs)
          exact ⟨rest, by simpa [Text.join] using hrest⟩

/-- A path whose parts come first in those of another one comes first in it. -/
theorem exists_text_append (h : q.parts <+: p.parts) : ∃ rest, p.text = q.text ++ rest := by
  obtain ⟨more, hmore⟩ := h
  have htext : ∀ r : Path, r.text = Text.joinWith '/' r.parts := fun r => (Text.joinWith_fieldsOf '/' r.text).symm
  obtain ⟨rest, hrest⟩ := exists_join_append ['/'] (mt List.map_eq_nil_iff.1 (parts_ne_nil q)) (more.map String.toList)
  refine ⟨String.ofList rest, ?_⟩
  rw [htext p, htext q, ← hmore, Text.joinWith, List.map_append, hrest, String.ofList_append]
  rfl

/-- The parent of a path is where the path starts, or its parts come first in those of the path, with at least one name
behind them. -/
structure IsParent (q p : Path) : Prop where
  isAbsolute_eq : q.isAbsolute = p.isAbsolute
  exists_parts : ∃ more last vac, p.parts = q.parts ++ more ++ last :: vac ∧ isVacuous last = false ∧
    ∀ part ∈ vac, isVacuous part = true

/-- The part that tells a start. -/
def Start.written : Start → List String
  | .top => [""]
  | .point => ["."]
  | .joined => []

theorem ofStart_cases {start : Start} {ps : List String} (hslash : ∀ part ∈ ps, '/' ∉ part.toList)
    (hfirst : start = .joined → ps.head? ≠ some "") :
    ofStart start ps = ⟨""⟩ ∧ start = .joined ∨ ofStart start ps = ⟨"/"⟩ ∧ start = .top ∨
      (ofStart start ps).isAbsolute = decide (start = .top) ∧
        (ofStart start ps).parts = start.written ++ ps := by
  cases start with
  | top =>
      cases ps with
      | nil => exact .inr (.inl ⟨rfl, rfl⟩)
      | cons part ps =>
          have hparts : parts ⟨"/" ++ (ofParts (part :: ps)).text⟩ = "" :: (ofParts (part :: ps)).parts :=
            parts_slash "" _
          refine .inr (.inr ⟨by simp [ofStart, isAbsolute], ?_⟩)
          rw [ofStart, hparts, parts_ofParts (List.cons_ne_nil part ps) hslash]
          rfl
  | point =>
      have hparts : (ofParts ("." :: ps)).parts = "." :: ps :=
        parts_ofParts (List.cons_ne_nil _ _) (List.forall_mem_cons.2 ⟨by simp, hslash⟩)
      exact .inr (.inr ⟨isAbsolute_eq_false (by simp [ofStart, hparts]), hparts⟩)
  | joined =>
      cases ps with
      | nil => exact .inl ⟨rfl, rfl⟩
      | cons part ps =>
          have hparts := parts_ofParts (List.cons_ne_nil part ps) hslash
          refine .inr (.inr ⟨isAbsolute_eq_false ?_, hparts⟩)
          rw [ofStart, hparts]
          exact hfirst rfl

theorem parts_eq_start (p : Path) : p.parts = p.start.written ++ p.body := by
  by_cases habs : p.isAbsolute = true
  · have hstart := start_eq_top_iff.2 habs
    rw [parts_of_isAbsolute habs, body, hstart]
    rfl
  · obtain ⟨first, rest, hparts⟩ := List.exists_cons_of_ne_nil (parts_ne_nil p)
    by_cases hpoint : first = "."
    · have hstart : p.start = .point := by simp [start, habs, hparts, hpoint]
      rw [body, hstart, hparts, hpoint]
      rfl
    · have hstart : p.start = .joined := by simp [start, habs, hparts, hpoint]
      rw [body, hstart]
      rfl

theorem parent?_eq (p : Path) :
    p.parent? = if trimParts p.body = [] then if p.start = .point then some ⟨""⟩ else none
      else some (ofStart p.start (trimParts (trimParts p.body).dropLast)) := by
  rw [parent?]
  cases trimParts p.body <;> cases p.start <;> rfl

theorem isParent_of_parent? (h : p.parent? = some q) :
    q = ⟨""⟩ ∧ p.isAbsolute = false ∨ q = ⟨"/"⟩ ∧ p.isAbsolute = true ∨ q.IsParent p := by
  have habs : p.isAbsolute = decide (p.start = .top) := by
    rw [Bool.eq_iff_iff, decide_eq_true_eq, start_eq_top_iff]
  rw [parent?_eq] at h
  split_ifs at h with htrim hpoint
  · cases h
    exact .inl ⟨rfl, by rw [habs, hpoint]; rfl⟩
  · -- The last part that leads somewhere is taken off, with all before it that lead nowhere.
    obtain ⟨above, gap, last, vac, hends⟩ := exists_endsWith htrim
    have hparent := hends.parent?_eq
    rw [parent?_eq, if_neg htrim, h] at hparent
    cases hparent
    have hfirst : p.start = .joined → above.head? ≠ some "" := fun hjoined hempty => by
      cases hends.head?_vacuous hjoined "" hempty
    rcases ofStart_cases hends.slash_notMem hfirst with ⟨hq, hjoined⟩ | ⟨hq, htop⟩ | ⟨hq, hparts⟩
    · exact .inl ⟨hq, by rw [habs, hjoined]; rfl⟩
    · exact .inr (.inl ⟨hq, by rw [habs, htop]; rfl⟩)
    · refine .inr (.inr ⟨hq.trans habs.symm, gap, last, vac, ?_, hends.not_vacuous, hends.vac_vacuous⟩)
      rw [parts_eq_start p, hparts, hends.body_eq]
      simp only [List.append_assoc]

end Path

namespace Disk

open DesignTokens.Path

variable {d e m : Disk} {p q : Path} {loc there : Location} {item : Item} {bytes : ByteArray} {flaw : Flaw}
  {parts more : List String}

/-! ## The way up -/

/-- From `loc` the parts go up only as far as they can be followed. -/
def Climbs (d : Disk) (loc : Location) (parts : List String) : Prop :=
  ∃ pre post, parts = pre ++ post ∧ (∃ base, d.follow loc pre = .ok base) ∧ ".." ∉ post

/-- The path goes up only as far as it can be followed. -/
def Grounded (d : Disk) (p : Path) : Prop := d.Climbs (d.origin p) p.parts

theorem grounded_of_notMem (h : ".." ∉ p.parts) : d.Grounded p := ⟨[], p.parts, rfl, ⟨_, rfl⟩, h⟩

theorem grounded_of_find (h : d.find p = .ok (loc, item)) : d.Grounded p :=
  ⟨p.parts, [], (List.append_nil _).symm, ⟨_, (leads_of_find h).follow_eq⟩, List.not_mem_nil⟩

theorem follow_singleton {part : String} : d.follow loc [part] = d.enter loc part := by
  rw [follow_cons]
  exact bind_pure _

theorem follow_of_prefix (h : parts <+: more) (hmore : d.follow loc more = .ok there) :
    ∃ between, d.follow loc parts = .ok between := by
  obtain ⟨rest, rfl⟩ := h
  rw [follow_append, bind_eq_ok_iff] at hmore
  obtain ⟨between, hbetween, _⟩ := hmore
  exact ⟨between, hbetween⟩

theorem follow_error_of_prefix (h : parts <+: more) (hparts : d.follow loc parts = .error flaw) :
    d.follow loc more = .error flaw := by
  obtain ⟨rest, rfl⟩ := h
  rw [follow_append, hparts]
  rfl

theorem Climbs.of_prefix (h : d.Climbs loc more) (hpre : parts <+: more) : d.Climbs loc parts := by
  obtain ⟨rest, rfl⟩ := hpre
  obtain ⟨pre, post, hcut, ⟨base, hbase⟩, hup⟩ := h
  rcases List.append_eq_append_iff.1 hcut with ⟨a, rfl, _⟩ | ⟨a, hparts, rfl⟩
  · obtain ⟨between, hbetween⟩ := follow_of_prefix (List.prefix_append parts a) hbase
    exact ⟨parts, [], (List.append_nil _).symm, ⟨between, hbetween⟩, List.not_mem_nil⟩
  · exact ⟨pre, a, hparts, ⟨base, hbase⟩, fun hmem => hup (List.mem_append_left rest hmem)⟩

theorem Grounded.mono (h : d.Grounded p) (hg : d.Grows e) : e.Grounded p := by
  obtain ⟨pre, post, hparts, ⟨base, hbase⟩, hup⟩ := h
  exact ⟨pre, post, hparts, ⟨base, hg.origin_eq p ▸ hg.follow_eq hbase⟩, hup⟩

theorem prefix_foldl_step (hup : ".." ∉ parts) : loc <+: parts.foldl step loc := by
  induction parts generalizing loc with
  | nil => exact List.prefix_rfl
  | cons part parts ih =>
      obtain ⟨hpart, hparts⟩ : ".." ≠ part ∧ ".." ∉ parts := by simpa using hup
      refine List.IsPrefix.trans ?_ (ih hparts)
      rw [step, if_neg (Ne.symm hpart)]
      split
      · exact List.prefix_rfl
      · exact List.prefix_append ..

/-- Downwards, what lies at the end of the way decides whether it can be followed. -/
theorem follow_of_item? (hup : ".." ∉ parts) (he : e.follow loc parts = .ok there) (hitem : e.item? there = some item)
    (hsame : d.item? there = some item) : d.follow loc parts = .ok there := by
  induction parts generalizing loc with
  | nil => exact he
  | cons part parts ih =>
      obtain ⟨hpart, hparts⟩ : ".." ≠ part ∧ ".." ∉ parts := by simpa using hup
      rw [follow_cons, bind_eq_ok_iff] at he ⊢
      obtain ⟨next, henter, he⟩ := he
      have hdir := directory_of_enter henter
      have hbelow : loc <+: there := by
        rw [follow_eq_ok he, enter_eq_ok henter, ← List.foldl_cons]
        exact prefix_foldl_step hup
      have hdir' : d.item? loc = some .directory := by
        obtain ⟨names, rfl⟩ := hbelow
        by_cases hnames : names = []
        · subst hnames
          rw [List.append_nil] at hitem hsame
          rw [hsame, ← hitem, hdir]
        · exact directory_above hnames hsame
      refine ⟨next, ?_, ih hparts he⟩
      rwa [enter_of_directory hdir', ← enter_of_directory hdir]

theorem Climbs.follow_eq (h : d.Climbs loc parts) (hg : d.Grows e) (he : e.follow loc parts = .ok there)
    (hitem : e.item? there = some item) (hsame : d.item? there = some item) : d.follow loc parts = .ok there := by
  obtain ⟨pre, post, rfl, ⟨base, hbase⟩, hup⟩ := h
  rw [follow_append, hg.follow_eq hbase] at he
  rw [follow_append, hbase]
  exact follow_of_item? hup he hitem hsame

/-- A path leads to the same item on a disk that has grown elsewhere. -/
theorem Grounded.toOption_find (h : d.Grounded p) (hg : d.Grows e)
    (hitem : e.item? (locate d.home p) = d.item? (locate d.home p)) :
    (e.find p).toOption = (d.find p).toOption := by
  cases hd : d.find p with
  | ok found =>
      obtain ⟨loc, item⟩ := found
      obtain ⟨rfl, hloc⟩ := find_eq_ok hd
      have he : e.find p = .ok (locate e.home p, item) :=
        ((leads_of_find hd).mono hg).find_eq (by rw [hg.locate_eq, hitem, hloc])
      rw [he, hg.locate_eq]
  | error flaw =>
      cases he : e.find p with
      | error flaw' => rfl
      | ok found =>
          obtain ⟨loc, item⟩ := found
          obtain ⟨rfl, hloc⟩ := find_eq_ok he
          have hleads := leads_of_find he
          have hfollow := hleads.follow_eq
          rw [hg.locate_eq] at hloc hfollow
          rw [hg.origin_eq] at hfollow
          have hsame := hitem ▸ hloc
          have hfound := Leads.find_eq ⟨hleads.accepted, h.follow_eq hg hfollow hloc hsame⟩ hsame
          rw [hd] at hfound
          cases hfound

/-! ## Directories that are made -/

theorem origin_of_isAbsolute (hp : q.isAbsolute = p.isAbsolute) : d.origin q = d.origin p := by rw [origin, origin, hp]

theorem foldl_step_of_prefix {vac : List String} (hvac : ∀ part ∈ vac, isVacuous part = true) (h : parts <+: vac) :
    parts.foldl step loc = loc :=
  foldl_step_of_isVacuous fun part hpart => hvac part (h.subset hpart)

/-- What lies above a path lies on its way. -/
theorem exists_prefix_of_mem_ancestorsWithin {fuel : Nat} (h : q ∈ ancestorsWithin fuel p) :
    ∃ ps, ps <+: p.parts ∧ locate d.home q = ps.foldl step (d.origin p) := by
  induction fuel generalizing p with
  | zero =>
      obtain rfl := List.mem_singleton.1 h
      exact ⟨q.parts, List.prefix_rfl, rfl⟩
  | succ fuel ih =>
      rw [ancestorsWithin] at h
      split at h
      · next above habove =>
          rcases List.mem_cons.1 h with rfl | h
          · exact ⟨q.parts, List.prefix_rfl, rfl⟩
          · obtain ⟨ps, hps, hlocate⟩ := ih h
            rcases isParent_of_parent? habove with ⟨rfl, habs⟩ | ⟨rfl, habs⟩ | hparent
            · have hvac : ∀ part ∈ Path.parts ⟨""⟩, isVacuous part = true := by decide
              refine ⟨[], List.nil_prefix, ?_⟩
              rw [hlocate, foldl_step_of_prefix hvac hps, origin_of_isAbsolute (p := p) (habs ▸ rfl)]
              rfl
            · have hvac : ∀ part ∈ Path.parts ⟨"/"⟩, isVacuous part = true := by decide
              refine ⟨[], List.nil_prefix, ?_⟩
              rw [hlocate, foldl_step_of_prefix hvac hps, origin_of_isAbsolute (p := p) (habs ▸ rfl)]
              rfl
            · obtain ⟨more, last, vac, hparts, _⟩ := hparent.exists_parts
              rw [origin_of_isAbsolute hparent.isAbsolute_eq] at hlocate
              rw [List.append_assoc] at hparts
              exact ⟨ps, hps.trans (hparts ▸ List.prefix_append ..), hlocate⟩
      · obtain rfl := List.mem_singleton.1 h
        exact ⟨q.parts, List.prefix_rfl, rfl⟩

/-- Directories are made on the way to the path alone. -/
theorem Grounded.item?_makeDirectories (h : d.Grounded p) (hloc : ¬loc <+: locate d.home p) :
    (d.makeDirectories p).1.item? loc = d.item? loc := by
  rcases (addsDirectories_makeFirst p.ancestors d).item?_eq loc with heq | ⟨hnone, _, q, hq, rfl⟩
  · exact heq
  · obtain ⟨ps, hps, hlocate⟩ := exists_prefix_of_mem_ancestorsWithin (d := d) hq
    obtain ⟨pre, post, hparts, ⟨base, hbase⟩, hup⟩ := h
    obtain ⟨rest, hrest⟩ := hps
    have hend : locate d.home p = rest.foldl step (locate d.home q) := by
      rw [hlocate, ← List.foldl_append, hrest]
      rfl
    refine absurd ?_ hloc
    rcases List.append_eq_append_iff.1 (hrest.trans hparts) with ⟨a, rfl, hrest'⟩ | ⟨a, rfl, rfl⟩
    · cases a with
      | nil =>
          rw [hend, hrest']
          exact prefix_foldl_step hup
      | cons part a =>
          -- All on the way up exists.
          rw [follow_append, bind_eq_ok_iff] at hbase
          obtain ⟨between, hbetween, hbase⟩ := hbase
          rw [follow_cons, bind_eq_ok_iff] at hbase
          obtain ⟨_, henter, _⟩ := hbase
          rw [hlocate, ← follow_eq_ok hbetween, directory_of_enter henter] at hnone
          cases hnone
    · rw [hend]
      exact prefix_foldl_step fun hmem => hup (List.mem_append_right a hmem)

/-! ## Directories that cannot be made -/

theorem prefix_properParts (p : Path) : properParts p <+: p.parts := List.rdropWhile_prefix (· == "") p.parts

theorem place_of_enter_error {dir : Location} {name : String} (haccept : accept p = .ok ())
    (hlast : (properParts p).getLast? = some name)
    (hfollow : d.follow (d.origin p) (properParts p).dropLast = .ok dir) (henter : d.enter dir name = .error flaw)
    (hdir : d.item? dir ≠ some .directory) (refusal : Refusal) : d.place p refusal = .error flaw := by
  rw [enter] at henter
  rw [place, haccept]
  simp only [bind, Except.bind, hlast, hfollow]
  split
  · next hitem =>
      rw [hitem] at henter
      cases henter
      rfl
  · next hitem =>
      rw [hitem] at henter
      cases henter
      rfl
  · next hitem => exact absurd hitem hdir

/-- A directory cannot be made where its path cannot be followed. -/
theorem makeDirectory_of_follow_error (haccept : accept p = .ok ())
    (h : d.follow (d.origin p) (properParts p) = .error flaw) : d.makeDirectory p = .error flaw := by
  rcases List.eq_nil_or_concat' (properParts p) with hnil | ⟨above, name, hproper⟩
  · rw [hnil] at h
    cases h
  · have hlast : (properParts p).getLast? = some name := by rw [hproper, List.getLast?_concat]
    have habove : (properParts p).dropLast = above := by rw [hproper, List.dropLast_concat]
    rw [hproper, follow_append] at h
    cases hdir : d.follow (d.origin p) above with
    | error flaw' =>
        rw [hdir] at h
        cases h
        rw [makeDirectory, place, haccept]
        simp only [bind, Except.bind, hlast, habove, hdir]
    | ok dir =>
        rw [hdir] at h
        change d.follow dir [name] = _ at h
        rw [follow_singleton] at h
        by_cases hitem : d.item? dir = some .directory
        · rw [enter_of_directory hitem] at h
          split_ifs at h with hvacuous hup
          have hpoint : name ≠ "." := by
            rintro rfl
            exact hvacuous rfl
          have hname := isName_of_getLast?_properParts hlast hpoint hup
          obtain ⟨place, hplace, rfl, rfl⟩ := Reaches.exists_place ⟨haccept, hlast, hname, habove ▸ hdir, hitem⟩
            (.always .alreadyExists)
          rw [makeDirectory, hplace]
          simp only [bind, Except.bind, h]
        · rw [makeDirectory, place_of_enter_error haccept hlast (habove ▸ hdir) h hitem]
          rfl

theorem isAbsolute_of_properParts_eq_nil (hp : p.text ≠ "") (h : properParts p = []) : p.isAbsolute = true := by
  have hempty : ∀ part ∈ p.parts, part = "" := fun part hpart => by
    simpa using List.rdropWhile_eq_nil_iff.1 h part hpart
  obtain ⟨first, rest, hparts⟩ := List.exists_cons_of_ne_nil (parts_ne_nil p)
  have hfirst : first = "" := hempty first (by rw [hparts]; exact List.mem_cons_self ..)
  rcases isAbsolute_or_parts_eq (by rw [hparts, hfirst]; rfl) with habs | hone
  · exact habs
  · exact absurd (text_eq_of_parts_eq hone) hp

theorem exists_makeDirectory (haccept : accept p = .ok ()) (h : d.follow (d.origin p) (properParts p) = .ok loc)
    (hnone : d.item? loc = none) : ∃ e, d.makeDirectory p = .ok e := by
  rcases List.eq_nil_or_concat' (properParts p) with hnil | ⟨above, name, hproper⟩
  · have horigin : d.origin p = [] := if_pos (isAbsolute_of_properParts_eq_nil (accept_eq_ok_iff.1 haccept).2.2 hnil)
    rw [hnil, horigin] at h
    cases h
    cases hnone
  · have hlast : (properParts p).getLast? = some name := by rw [hproper, List.getLast?_concat]
    have habove : (properParts p).dropLast = above := by rw [hproper, List.dropLast_concat]
    rw [hproper, follow_append, bind_eq_ok_iff] at h
    obtain ⟨dir, hdir, henter⟩ := h
    rw [follow_singleton] at henter
    have hitem := directory_of_enter henter
    have hfits := henter
    rw [enter_of_directory hitem] at hfits
    split_ifs at hfits with hvacuous hup
    · cases hfits
      rw [hitem] at hnone
      cases hnone
    · cases hfits
      rw [directory_dropLast hitem] at hnone
      cases hnone
    · have hpoint : name ≠ "." := by
        rintro rfl
        exact hvacuous rfl
      have hname := isName_of_getLast?_properParts hlast hpoint hup
      obtain ⟨place, hplace, rfl, rfl⟩ := Reaches.exists_place ⟨haccept, hlast, hname, habove ▸ hdir, hitem⟩
        (.always .alreadyExists)
      obtain rfl := child_eq_ok hfits
      refine ⟨d.put place.dir place.name .directory place.isName place.isDir (.inl rfl), ?_⟩
      rw [makeDirectory, hplace]
      simp only [bind, Except.bind, hfits]
      split
      · next hsome => rw [hsome] at hnone; cases hnone
      · rfl

/-- Where no directory can be made and none is, the path cannot be followed, or it leads to a file. -/
theorem follow_of_makeDirectory_error (haccept : accept p = .ok ()) (hdir : d.isDirectory p = false)
    (h : d.makeDirectory p = .error flaw) :
    d.follow (d.origin p) (properParts p) = .error flaw ∨
      ∃ loc bytes, d.follow (d.origin p) (properParts p) = .ok loc ∧ d.item? loc = some (.file bytes) := by
  cases hfollow : d.follow (d.origin p) (properParts p) with
  | error flaw' =>
      rw [makeDirectory_of_follow_error haccept hfollow] at h
      cases h
      exact .inl rfl
  | ok loc =>
      cases hitem : d.item? loc with
      | none =>
          obtain ⟨e, he⟩ := exists_makeDirectory haccept hfollow hitem
          rw [h] at he
          cases he
      | some item =>
          cases item with
          | file bytes => exact .inr ⟨loc, bytes, rfl, hitem⟩
          | directory =>
              have hparts : p.parts = properParts p ++ p.parts.rtakeWhile (· == "") :=
                List.rdropWhile_append_rtakeWhile.symm
              have hleads : d.follow (d.origin p) p.parts = .ok loc := by
                rw [hparts, follow_append, hfollow]
                refine follow_of_isVacuous hitem fun part hpart => ?_
                rw [isVacuous, List.mem_rtakeWhile_imp hpart, Bool.true_or]
              obtain rfl : loc = locate d.home p := follow_eq_ok hleads
              rw [Leads.isDirectory_eq ⟨haccept, hleads⟩ hitem] at hdir
              cases hdir

theorem makeDirectory_of_accept_error (h : accept p = .error flaw) : d.makeDirectory p = .error flaw := by
  rw [makeDirectory, place, h]
  rfl

theorem accept_of_makeDirectory_notFound (hp : p.text ≠ "") (h : d.makeDirectory p = .error .notFound) :
    accept p = .ok () := by
  cases haccept : accept p with
  | ok u => rfl
  | error flaw =>
      rw [makeDirectory_of_accept_error haccept] at h
      cases h
      unfold accept at haccept
      split_ifs at haccept <;> cases haccept

theorem rdropWhile_append_cons {last : String} (h : last ≠ "") (more vac : List String) :
    ∃ rest, (more ++ last :: vac).rdropWhile (· == "") = more ++ last :: rest := by
  induction vac using List.reverseRecOn with
  | nil => exact ⟨[], by rw [List.rdropWhile_concat_neg _ _ _ (by simpa using h)]⟩
  | append_singleton vac blank ih =>
      rw [← List.cons_append, ← List.append_assoc]
      by_cases hblank : blank = ""
      · rw [List.rdropWhile_concat_pos _ _ _ (by simpa using hblank)]
        exact ih
      · exact ⟨vac ++ [blank], by rw [List.rdropWhile_concat_neg _ _ _ (by simpa using hblank)]; simp⟩

/-- The proper parts of a path go on after those of its parent. -/
theorem exists_properParts_eq (h : q.IsParent p) : ∃ rest, rest ≠ [] ∧ properParts p = properParts q ++ rest := by
  obtain ⟨more, last, vac, hparts, hlast, _⟩ := h.exists_parts
  have hempty : last ≠ "" := by
    rintro rfl
    cases hlast
  obtain ⟨rest, hrest⟩ := rdropWhile_append_cons hempty (q.parts ++ more) vac
  have hproper : properParts p = q.parts ++ more ++ last :: rest := (congrArg _ hparts).trans hrest
  have hown : properParts q ++ q.parts.rtakeWhile (· == "") = q.parts := List.rdropWhile_append_rtakeWhile
  refine ⟨q.parts.rtakeWhile (· == "") ++ (more ++ last :: rest), by simp, ?_⟩
  rw [hproper, ← List.append_assoc (properParts q), hown, List.append_assoc]

/-- Where the directory above cannot be made, the one below cannot either, for the same reason. -/
theorem Grounded.makeDirectory_error (h : d.Grounded p) (hg : d.Grows m)
    (hfile : ∀ loc bytes, m.item? loc = some (.file bytes) → d.item? loc = some (.file bytes))
    (hparent : q.IsParent p) (hp : p.text ≠ "") (hq : q.text ≠ "") (hnone : d.makeDirectory p = .error .notFound)
    (hdir : m.isDirectory q = false) (herror : m.makeDirectory q = .error flaw) :
    m.makeDirectory p = .error flaw ∧ m.isDirectory p = false := by
  have haccept := accept_of_makeDirectory_notFound hp hnone
  obtain ⟨more, last, vac, hparts, _⟩ := hparent.exists_parts
  rw [List.append_assoc] at hparts
  obtain ⟨tail, htail⟩ := exists_text_append (p := p) (hparts ▸ List.prefix_append ..)
  obtain ⟨rest, hrest, hproper⟩ := exists_properParts_eq hparent
  have horigin : m.origin q = m.origin p := origin_of_isAbsolute hparent.isAbsolute_eq
  rcases follow_of_makeDirectory_error (accept_of_append htail hq haccept) hdir herror with
    hfollow | ⟨loc, bytes, hfollow, hitem⟩
  · have hown : m.follow (m.origin p) (properParts p) = .error flaw :=
      follow_error_of_prefix (hproper ▸ List.prefix_append ..) (horigin ▸ hfollow)
    refine ⟨makeDirectory_of_follow_error haccept hown, ?_⟩
    have hall := follow_error_of_prefix (prefix_properParts p) hown
    rw [isDirectory, find, haccept, hall]
    rfl
  · -- A file at the place of the parent would have been met before.
    exfalso
    have hclimbs : d.Climbs (d.origin p) (properParts q) :=
      h.of_prefix ((hproper ▸ List.prefix_append ..).trans (prefix_properParts p))
    have hsame := hfile loc bytes hitem
    have hfollow' := hclimbs.follow_eq hg (hg.origin_eq p ▸ horigin ▸ hfollow) hitem hsame
    obtain ⟨part, parts, rfl⟩ := List.exists_cons_of_ne_nil hrest
    have hstop : d.follow (d.origin p) (properParts p) = .error .notADirectory := by
      rw [hproper, follow_append, hfollow']
      change d.follow loc (part :: parts) = _
      rw [follow_cons, enter, hsame]
      rfl
    rw [makeDirectory_of_follow_error haccept hstop] at hnone
    cases hnone

theorem makeFirst_of_error (hp : p.text ≠ "") (h : d.makeDirectory p = .error flaw) (hne : flaw ≠ .notFound)
    (hdir : d.isDirectory p = false) (above : List Path) : d.makeFirst (p :: above) = (d, .error flaw) := by
  rw [makeFirst, if_neg hp, h]
  cases flaw with
  | notFound => exact absurd rfl hne
  | _ => simp [hdir]

theorem makeFirst_of_above_error {above : List Path} (hp : p.text ≠ "") (h : d.makeDirectory p = .error .notFound)
    (habove : d.makeFirst above = (m, .error flaw)) : d.makeFirst (p :: above) = (m, .error flaw) := by
  rw [makeFirst, if_neg hp, h]
  simp only [habove]

theorem makeFirst_of_above_ok {above : List Path} (hp : p.text ≠ "") (h : d.makeDirectory p = .error .notFound)
    (habove : d.makeFirst above = (m, .ok ())) (hagain : m.makeDirectory p = .error flaw)
    (hdir : m.isDirectory p = false) : d.makeFirst (p :: above) = (m, .error flaw) := by
  rw [makeFirst, if_neg hp, h]
  simp only [habove, hagain, hdir, Bool.false_eq_true, if_false]

/-- Making directories fails at once, further above, or once the directories above are there. -/
theorem cases_of_makeFirst_error {above : List Path} (h : d.makeFirst (p :: above) = (m, .error flaw)) :
    p.text ≠ "" ∧ (m = d ∧ d.makeDirectory p = .error flaw ∧ d.isDirectory p = false ∨
      d.makeDirectory p = .error .notFound ∧ (d.makeFirst above = (m, .error flaw) ∨
        d.makeFirst above = (m, .ok ()) ∧ m.makeDirectory p = .error flaw ∧ m.isDirectory p = false)) := by
  rw [makeFirst] at h
  split at h
  · cases h
  · next hp =>
      refine ⟨hp, ?_⟩
      split at h
      · cases h
      · next hnone =>
          refine .inr ⟨hnone, ?_⟩
          split at h
          · next habove =>
              cases h
              exact .inl habove
          · next habove =>
              split at h
              · cases h
              · next hagain =>
                  split at h
                  · cases h
                  · next hdir =>
                      cases h
                      exact .inr ⟨habove, hagain, Bool.eq_false_iff.2 hdir⟩
      · next hmake =>
          split at h
          · cases h
          · next hdir =>
              cases h
              exact .inl ⟨rfl, hmake, Bool.eq_false_iff.2 hdir⟩

theorem isDirectory_of_makeDirectory_notFound (h : d.makeDirectory p = .error .notFound) : d.isDirectory p = false := by
  rw [← Bool.not_eq_true]
  intro hdir
  rw [makeDirectory_of_isDirectory hdir] at h
  cases h

theorem eq_of_makeFirst_singleton (h : d.makeFirst [p] = (m, .error flaw)) : m = d := by
  obtain ⟨_, ⟨hsame, _⟩ | ⟨_, habove | ⟨habove, _⟩⟩⟩ := cases_of_makeFirst_error h
  · exact hsame
  · cases habove
    rfl
  · cases habove

/-- What could not be made cannot be made in a second run either, which changes nothing more. -/
theorem Grounded.makeFirst_again {fuel : Nat} (h : d.Grounded p)
    (hfail : d.makeFirst (ancestorsWithin fuel p) = (m, .error flaw)) :
    m.makeFirst (ancestorsWithin fuel p) = (m, .error flaw) := by
  induction fuel generalizing p flaw with
  | zero =>
      obtain rfl := eq_of_makeFirst_singleton hfail
      exact hfail
  | succ fuel ih =>
      rw [ancestorsWithin] at hfail ⊢
      split at hfail
      · next q hq =>
          obtain ⟨above, habove⟩ := exists_ancestorsWithin_eq fuel q
          obtain ⟨hp, ⟨rfl, _⟩ | ⟨hnone, hstop | ⟨hdone, hagain, hdir⟩⟩⟩ := cases_of_makeFirst_error hfail
          · exact hfail
          · -- What stopped the first run above the path stops the second one there, and the path stays out of reach.
            have hstart : ¬(q.text = "" ∨ d.isDirectory q = true) := fun hstart => by
              rw [habove, makeFirst_of_isDirectory hstart] at hstop
              cases hstop
            rcases isParent_of_parent? hq with ⟨rfl, _⟩ | ⟨rfl, _⟩ | hparent
            · exact absurd (.inl rfl) hstart
            · exact absurd (.inr rfl) hstart
            · have hadds := addsDirectories_makeFirst (ancestorsWithin fuel q) d
              rw [hstop] at hadds
              obtain ⟨more, last, vac, hparts, _⟩ := hparent.exists_parts
              rw [List.append_assoc] at hparts
              have hground : d.Grounded q := by
                rw [Grounded, origin_of_isAbsolute hparent.isAbsolute_eq]
                exact Climbs.of_prefix h (hparts ▸ List.prefix_append ..)
              have hrest := ih hground hstop
              rw [habove] at hrest
              have hblocked : ∀ {flaw}, m.makeDirectory q = .error flaw → m.isDirectory q = false →
                  m.makeDirectory p = .error flaw ∧ m.isDirectory p = false := fun herror hdir =>
                h.makeDirectory_error hadds.grows (fun _ _ => hadds.file_iff.1) hparent hp (mt .inl hstart) hnone hdir
                  herror
              obtain ⟨_, ⟨_, herror, hdir⟩ | ⟨herror, _⟩⟩ := cases_of_makeFirst_error hrest
              · obtain ⟨hmake, hdir⟩ := hblocked herror hdir
                by_cases hnotFound : flaw = .notFound
                · subst hnotFound
                  exact makeFirst_of_above_error hp hmake (habove ▸ hrest)
                · exact makeFirst_of_error hp hmake hnotFound hdir _
              · obtain ⟨hmake, _⟩ := hblocked herror (isDirectory_of_makeDirectory_notFound herror)
                exact makeFirst_of_above_error hp hmake (habove ▸ hrest)
          · -- All above the path was made, and the path itself is refused as before.
            by_cases hnotFound : flaw = .notFound
            · subst hnotFound
              rw [habove] at hdone ⊢
              have hthere := makeFirst_of_isDirectory (isDirectory_of_makeFirst hdone) above
              exact makeFirst_of_above_ok hp hagain hthere hagain hdir
            · exact makeFirst_of_error hp hagain hnotFound hdir _
      · obtain rfl := eq_of_makeFirst_singleton hfail
        exact hfail

/-- Making directories twice is making them once. -/
theorem Grounded.makeDirectories_again {result : Except Flaw Unit} (h : d.Grounded p)
    (hrun : d.makeDirectories p = (m, result)) : m.makeDirectories p = (m, result) := by
  cases result with
  | error flaw => exact h.makeFirst_again hrun
  | ok u => exact Disk.makeDirectories_again hrun (.refl m)

/-! ## Below a path -/

theorem Climbs.append_names (h : d.Climbs loc parts) (hmore : ∀ part ∈ more, IsName part) :
    d.Climbs loc (parts ++ more) := by
  obtain ⟨pre, post, rfl, hbase, hup⟩ := h
  refine ⟨pre, post ++ more, List.append_assoc .., hbase, fun hmem => ?_⟩
  rcases List.mem_append.1 hmem with hmem | hmem
  · exact hup hmem
  · exact (hmore _ hmem).not_up rfl

theorem Grounded.join_names (h : d.Grounded p) (hnames : ∀ part ∈ q.parts, IsName part) : d.Grounded (p.join q) := by
  have hq := isAbsolute_of_isName hnames
  by_cases hp : p.text = ""
  · obtain rfl : p = ⟨""⟩ := congrArg Path.mk hp
    rw [empty_join hq]
    exact grounded_of_notMem fun hmem => (hnames _ hmem).not_up rfl
  · obtain ⟨above, _, hparts, hown, habs⟩ := parts_join hp hq
    rw [Grounded, origin_of_isAbsolute habs, hparts]
    refine Climbs.append_names (Climbs.of_prefix h ?_) hnames
    rcases hown with hown | hown
    · exact hown ▸ List.prefix_rfl
    · exact hown ▸ List.prefix_append ..

end Disk

end DesignTokens
