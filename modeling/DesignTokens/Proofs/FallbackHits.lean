import DesignTokens.Proofs.LastNames
import DesignTokens.Proofs.Occurrences
import DesignTokens.Proofs.Walk

/-!
# The scan of directories for fallbacks

The scan has one hit for each file below its directories whose name is asked for and whose text has lookups with
fallbacks, and no other one. A file with a path too long to be looked up is not seen.
-/

namespace DesignTokens

open Text (Leftmost)

/-! ## Endings -/

/-- What follows the last point of a name, when the name does not begin with that point. -/
def HasEnding (name ending : String) : Prop := ∃ stem, stem ≠ "" ∧ name = stem ++ "." ++ ending ∧ '.' ∉ ending.toList

/-- A name that a list of endings asks for: the endings may be written with points before them, and none ask for all
names. -/
def FallbackScope.Asks (extensions : List String) (name : String) : Prop :=
  extensions = [] ∨
    ∃ ending points, HasEnding name ending ∧ (∀ c ∈ points, c = '.') ∧ String.ofList points ++ ending ∈ extensions

namespace Path

variable {p : Path} {name ending : String}

theorem hasEnding_iff {stem rest : List Char} (hname : name.toList = stem ++ '.' :: rest) (hrest : '.' ∉ rest) :
    HasEnding name ending ↔ stem ≠ [] ∧ ending = String.ofList rest := by
  constructor
  · rintro ⟨front, hfront, rfl, hending⟩
    have hcut : front.toList ++ '.' :: ending.toList = stem ++ '.' :: rest := by simpa using hname
    have hfields := congrArg (Text.fields '.') hcut
    rw [Text.fields_append_sep, Text.fields_append_sep, Text.fields_of_notMem hending, Text.fields_of_notMem hrest]
      at hfields
    obtain rfl : ending.toList = rest := List.singleton_inj.1 (List.append_inj_right' hfields rfl)
    rw [← List.append_cancel_right hcut, String.ofList_toList]
    exact ⟨by simpa using hfront, rfl⟩
  · rintro ⟨hstem, rfl⟩
    refine ⟨String.ofList stem, by simpa using hstem, ?_, by simpa using hrest⟩
    exact String.toList_inj.1 (by simp [hname])

theorem extension?_eq_some_iff (h : p.fileName? = some name) : p.extension? = some ending ↔ HasEnding name ending := by
  rw [extension?, h, Option.bind_some]
  by_cases hpoint : '.' ∈ name.toList
  · obtain ⟨stem, rest, hname, hrest⟩ := Text.exists_append_cons_notMem hpoint
    have hfields : (Text.fieldsOf '.' name).reverse =
        String.ofList rest :: ((Text.fields '.' stem).map String.ofList).reverse := by
      rw [Text.fieldsOf, hname, Text.fields_append_sep, Text.fields_of_notMem hrest]
      simp
    have hstem : ((Text.fields '.' stem).map String.ofList).reverse = [""] ↔ stem = [] := by
      rw [List.reverse_eq_iff, List.reverse_singleton, List.map_eq_singleton_iff]
      constructor
      · rintro ⟨f, hf, hempty⟩
        rw [← Text.join_fields '.' stem, hf, Text.join]
        simpa using hempty
      · rintro rfl
        exact ⟨[], rfl, rfl⟩
    obtain ⟨f, fs, hfs⟩ := List.exists_cons_of_ne_nil
      (List.reverse_ne_nil_iff.2 (mt List.map_eq_nil_iff.1 (Text.fields_ne_nil '.' stem)) :
        ((Text.fields '.' stem).map String.ofList).reverse ≠ [])
    rw [hasEnding_iff hname hrest, hfields, hfs]
    rw [hfs] at hstem
    by_cases hnil : stem = []
    · simp [hstem.2 hnil, hnil]
    · simp [mt hstem.1 hnil, hnil, eq_comm]
  · have hfields : Text.fieldsOf '.' name = [name] := by simp [Text.fieldsOf, Text.fields_of_notMem hpoint]
    rw [hfields]
    constructor
    · rintro ⟨⟩
    · rintro ⟨stem, _, rfl, _⟩
      exact absurd (by simp) hpoint

end Path

theorem FallbackScope.selects_iff {extensions : List String} {p : Path} {name : String} (h : p.fileName? = some name) :
    selects extensions p = true ↔ Asks extensions name := by
  rw [selects, Bool.or_eq_true, List.isEmpty_iff, Asks]
  refine or_congr_right ?_
  cases hextension : p.extension? with
  | none =>
      refine ⟨nofun, ?_⟩
      rintro ⟨ending, _, hending, _⟩
      rw [(Path.extension?_eq_some_iff h).2 hending] at hextension
      cases hextension
  | some ending =>
      have hending := (Path.extension?_eq_some_iff h).1 hextension
      have hplain : ∀ c ∈ ending.toList.head?, (c == '.') = false := fun c hc => by
        obtain ⟨_, _, _, hpoint⟩ := hending
        simpa using ne_of_mem_of_not_mem (List.mem_of_head? hc) hpoint
      simp only [List.any_eq_true, beq_iff_eq]
      constructor
      · rintro ⟨want, hwant, hdrop⟩
        refine ⟨ending, want.toList.takeWhile (· == '.'), hending, fun c hc => ?_, ?_⟩
        · simpa using List.mem_takeWhile_imp hc
        · convert hwant using 1
          refine String.toList_inj.1 ?_
          rw [String.toList_append, String.toList_ofList, ← hdrop, List.takeWhile_append_dropWhile]
      · rintro ⟨ending', points, hending', hpoints, hwant⟩
        rw [← Path.extension?_eq_some_iff h, hextension] at hending'
        cases hending'
        refine ⟨_, hwant, ?_⟩
        rw [String.toList_append, String.toList_ofList]
        exact Text.dropWhile_append_of_stop (by simpa using hpoints) hplain

namespace Disk

open DesignTokens.Path

variable {d : Disk} {root dir p q : Path} {base loc : Location} {item : Item} {bytes : ByteArray} {name : String}
  {ns extensions occurrences : List String} {hit : FallbackHit}

/-! ## Names of files -/

/-- Where a file below a path can be looked up, its directory can. -/
theorem listsAt_of_accept (hp : accept p = .ok ()) (hns : ∀ name ∈ loc.drop base.length, IsName name)
    (h : accept (pathBelow p base loc) = .ok ()) : listsAt p base loc = true := by
  rw [pathBelow] at h
  rw [listsAt]
  suffices hinner : accept (p.descend (loc.drop base.length).dropLast) = .ok () from congrArg Except.isOk hinner
  generalize loc.drop base.length = ns at h hns
  cases ns using List.reverseRecOn with
  | nil => exact hp
  | append_singleton ns name =>
      obtain ⟨hinner, hname⟩ := List.forall_mem_append.1 hns
      rw [descend, List.foldl_concat] at h
      rw [List.dropLast_concat]
      refine accept_of_join (List.forall_mem_singleton.1 hname).not_isAbsolute ?_ h
      exact text_descend_ne (accept_eq_ok_iff.1 hp).2.2 hinner

/-- A path to a file ends with the name of the file. -/
theorem fileName?_of_find (h : d.find p = .ok (base, .file bytes)) :
    ∃ dir name, base = dir ++ [name] ∧ p.fileName? = some name := by
  have hleads := (leads_of_find h).follow_eq
  obtain ⟨rfl, hitem⟩ := find_eq_ok h
  obtain ⟨above, last, hparts⟩ := List.eq_nil_or_concat' p.parts |>.resolve_left (parts_ne_nil p)
  rw [hparts, follow_append, bind_eq_ok_iff] at hleads
  obtain ⟨there, _, hlast⟩ := hleads
  rw [follow_cons, bind_eq_ok_iff] at hlast
  obtain ⟨_, henter, heq⟩ := hlast
  cases heq
  have hdir := directory_of_enter henter
  rw [enter_of_directory hdir] at henter
  have hvacuous : isVacuous last = false := by
    cases hv : isVacuous last with
    | false => rfl
    | true =>
        rw [hv, if_pos rfl] at henter
        cases henter
        rw [hdir] at hitem
        cases hitem
  rw [hvacuous, if_neg Bool.false_ne_true] at henter
  have hup : last ≠ ".." := by
    rintro rfl
    rw [if_pos rfl] at henter
    rw [← Except.ok.inj henter, directory_dropLast hdir] at hitem
    cases hitem
  rw [if_neg hup] at henter
  have hname : IsName last := ⟨hvacuous, hup, notMem_of_mem_parts (p := p) (by simp [hparts])⟩
  refine ⟨there, last, child_eq_ok henter, fileName?_eq_some_iff.2 ⟨?_, hname⟩⟩
  rw [names, hparts, List.filter_append, List.filter_cons_of_pos (by simp [hvacuous]), List.filter_nil,
    List.getLast?_concat]

/-- The name that the path of a listed file ends with is the file's. -/
theorem fileName?_pathBelow (hfind : d.find p = .ok (base, item))
    (hloc : d.item? (base ++ ns) = some (.file bytes)) :
    ∃ dir name, base ++ ns = dir ++ [name] ∧ (p.descend ns).fileName? = some name := by
  cases ns using List.reverseRecOn with
  | nil =>
      rw [List.append_nil] at hloc ⊢
      obtain rfl : item = .file bytes := Option.some.inj ((find_eq_ok hfind).2.symm.trans hloc)
      exact fileName?_of_find hfind
  | append_singleton above name =>
      have hnames : ∀ part ∈ above ++ [name], IsName part := fun part hpart =>
        isName_of_item? hloc part (List.mem_append_right base hpart)
      refine ⟨base ++ above, name, (List.append_assoc ..).symm, fileName?_eq_some_iff.2 ⟨?_, hnames name (by simp)⟩⟩
      rw [names_descend hnames, ← List.append_assoc, List.getLast?_concat]

/-! ## Hits -/

theorem fromUTF8?_eq_some_iff {text : String} : String.fromUTF8? bytes = some text ↔ bytes = text.toUTF8 := by
  unfold String.fromUTF8?
  constructor
  · intro h
    split at h
    · cases h
      rfl
    · cases h
  · rintro rfl
    exact dif_pos text.isValidUTF8

theorem listedText?_eq_some_iff {text : String} :
    listedText? (p, bytes) = some text ↔ accept p = .ok () ∧ bytes = text.toUTF8 := by
  rw [listedText?, ← fromUTF8?_eq_some_iff]
  cases haccept : accept p with
  | error flaw => exact ⟨nofun, nofun⟩
  | ok u => simp [Except.isOk, Except.toBool]

/-- The hit that is due for a file at a path, if it has these lookups. -/
def hitOf (root p : Path) (occurrences : List String) : FallbackHit :=
  ⟨(p.relativeTo? root).getD p, occurrences.eraseDups, occurrences.length⟩

theorem fallbackHit?_eq_some_iff : fallbackHit? root (p, bytes) = some hit ↔
    ∃ text : String, accept p = .ok () ∧ bytes = text.toUTF8 ∧ FallbackLookup.all text ≠ [] ∧
      hit = hitOf root p (FallbackLookup.all text) := by
  rw [fallbackHit?]
  cases htext : listedText? (p, bytes) with
  | none =>
      refine ⟨nofun, ?_⟩
      rintro ⟨text, haccept, hbytes, _⟩
      rw [listedText?_eq_some_iff.2 ⟨haccept, hbytes⟩] at htext
      cases htext
  | some text =>
      obtain ⟨haccept, rfl⟩ := listedText?_eq_some_iff.1 htext
      have hone : ∀ other : String, text.toUTF8 = other.toUTF8 → other = text := fun other h =>
        (String.toByteArray_inj.1 h).symm
      dsimp only
      cases hall : FallbackLookup.all text with
      | nil =>
          refine ⟨nofun, ?_⟩
          rintro ⟨other, _, hother, hne, _⟩
          exact absurd (hone other hother ▸ hall) hne
      | cons s found =>
          constructor
          · rintro ⟨⟩
            exact ⟨text, haccept, rfl, hall ▸ List.cons_ne_nil s found, hall ▸ rfl⟩
          · rintro ⟨other, _, hother, _, rfl⟩
            rw [hone other hother, hall]
            rfl

/-- A file at or below the place that a path leads to: its name is asked for, the path to it can be looked up, and its
bytes are a text with these lookups. -/
structure Bears (d : Disk) (p : Path) (extensions : List String) (loc : Location) (occurrences : List String) :
    Prop where
  below : ∃ base item, d.find p = .ok (base, item) ∧ base <+: loc ∧ accept (pathBelow p base loc) = .ok ()
  asked : ∃ dir name, loc = dir ++ [name] ∧ FallbackScope.Asks extensions name
  written : ∃ text : String, d.item? loc = some (.file text.toUTF8) ∧
    Leftmost FallbackLookup.IsLookup text.toList (occurrences.map String.toList)
  ne_nil : occurrences ≠ []

/-- What a hit says of a file: where it lies, how many lookups it has, and the different ones. -/
structure Tells (home : Location) (root : Path) (hit : FallbackHit) (loc : Location) (occurrences : List String) :
    Prop where
  locate_eq : locate home (root.join hit.file) = loc
  count_eq : hit.count = occurrences.length
  lookups : FirstAppearances occurrences hit.lookups

/-- What a listed file is reported as, with its location. -/
def reported? (root p : Path) (extensions : List String) (base : Location) (f : Location × ByteArray) :
    Option (Location × FallbackHit) :=
  if listsAt p base f.1 && FallbackScope.selects extensions (pathBelow p base f.1) then
    (fallbackHit? root (pathBelow p base f.1, f.2)).map fun hit => (f.1, hit)
  else none

theorem reported?_eq_some_iff {f : Location × ByteArray} {found : Location × FallbackHit} :
    reported? root p extensions base f = some found ↔
      listsAt p base f.1 = true ∧ FallbackScope.selects extensions (pathBelow p base f.1) = true ∧
        fallbackHit? root (pathBelow p base f.1, f.2) = some found.2 ∧ found.1 = f.1 := by
  rw [reported?, Option.ite_none_right_eq_some, Bool.and_eq_true, Option.map_eq_some_iff, and_assoc]
  refine and_congr_right fun _ => and_congr_right fun _ => ⟨?_, ?_⟩
  · rintro ⟨hit, hhit, rfl⟩
    exact ⟨hhit, rfl⟩
  · rintro ⟨hhit, hloc⟩
    exact ⟨_, hhit, Prod.ext hloc.symm rfl⟩

theorem filterMap_fallbackHit? (hfind : d.find p = .ok (base, item)) :
    (d.filesBelow p extensions).filterMap (fallbackHit? root) =
      ((d.filesUnder base).filterMap (reported? root p extensions base)).map Prod.snd := by
  rw [filesBelow, walk_eq hfind, List.filter_map, List.filterMap_map, List.filter_filter, List.filterMap_filter,
    List.map_filterMap]
  refine List.filterMap_congr fun f _ => ?_
  by_cases hlists : listsAt p base f.1 <;>
    by_cases hselects : FallbackScope.selects extensions (pathBelow p base f.1) <;>
    simp [reported?, hlists, hselects, Function.comp_def]

theorem mem_reported_iff (hfind : d.find p = .ok (base, item)) (root : Path)
    (extensions : List String) :
    (loc, hit) ∈ (d.filesUnder base).filterMap (reported? root p extensions base) ↔
      ∃ occurrences, d.Bears p extensions loc occurrences ∧ hit = hitOf root (pathBelow p base loc) occurrences := by
  rw [List.mem_filterMap]
  constructor
  · rintro ⟨⟨there, bytes⟩, hmem, hreported⟩
    obtain ⟨_, hselects, hhit, rfl⟩ := reported?_eq_some_iff.1 hreported
    obtain ⟨⟨ns, rfl⟩, hitem⟩ := mem_filesUnder.1 hmem
    obtain ⟨text, haccept, rfl, hne, hhit⟩ := fallbackHit?_eq_some_iff.1 hhit
    have hbelow : pathBelow p base (base ++ ns) = p.descend ns := by rw [pathBelow, List.drop_left]
    obtain ⟨dir, name, hloc, hname⟩ := fileName?_pathBelow hfind hitem
    rw [hbelow, FallbackScope.selects_iff hname] at hselects
    exact ⟨_, ⟨⟨base, item, hfind, List.prefix_append base ns, haccept⟩, ⟨dir, name, hloc, hselects⟩,
      ⟨text, hitem, FallbackLookup.leftmost_iff.2 rfl⟩, hne⟩, hhit⟩
  · rintro ⟨occurrences, ⟨⟨base', item', hfind', ⟨ns, rfl⟩, haccept⟩, ⟨dir, name, hloc, hasks⟩,
      ⟨text, hitem, hleftmost⟩, hne⟩, rfl⟩
    rw [hfind'] at hfind
    cases hfind
    obtain rfl := FallbackLookup.leftmost_iff.1 hleftmost
    have hbelow : pathBelow p base (base ++ ns) = p.descend ns := by rw [pathBelow, List.drop_left]
    have hnames : ∀ part ∈ (base ++ ns).drop base.length, IsName part := fun part hpart =>
      isName_of_item? hitem part (List.mem_of_mem_drop hpart)
    obtain ⟨dir', name', hloc', hname⟩ := fileName?_pathBelow hfind' hitem
    obtain ⟨rfl, rfl⟩ := List.append_singleton_inj.1 (hloc.symm.trans hloc')
    refine ⟨_, mem_filesUnder.2 ⟨List.prefix_append base ns, hitem⟩, reported?_eq_some_iff.2 ⟨?_, ?_, ?_, rfl⟩⟩
    · exact listsAt_of_accept (leads_of_find hfind').accepted hnames haccept
    · rwa [hbelow, FallbackScope.selects_iff hname]
    · exact fallbackHit?_eq_some_iff.2 ⟨text, haccept, rfl, hne, rfl⟩

/-! ## Files of hits -/

/-- The file of a hit leads to where it lies. -/
theorem locate_hitOf (home : Location) (hp : (root.join dir).text ≠ "") (hns : ∀ name ∈ ns, IsName name) :
    locate home (root.join (hitOf root ((root.join dir).descend ns) occurrences).file) =
      locate home ((root.join dir).descend ns) := by
  rw [hitOf]
  cases hrelative : ((root.join dir).descend ns).relativeTo? root with
  | some r => exact locate_join_relativeTo? hrelative
  | none =>
      have hdir : dir.isAbsolute = true := by
        by_contra hdir
        rw [Bool.not_eq_true] at hdir
        suffices ∃ r, ((root.join dir).descend ns).relativeTo? root = some r by
          obtain ⟨r, hr⟩ := this
          rw [hr] at hrelative
          cases hrelative
        by_cases hroot : root.text = ""
        · obtain rfl : root = ⟨""⟩ := congrArg Path.mk hroot
          exact ⟨_, if_pos rfl⟩
        · have hnames : ((root.join dir).descend ns).names = root.names ++ (dir.names ++ ns) := by
            rw [names_descend hns, names_join hdir, List.append_assoc]
          exact exists_relativeTo? ((start_descend hp hns).trans (start_join hroot hdir)) hnames
      have hjoin : root.join dir = dir := if_pos hdir
      have habs : ((root.join dir).descend ns).isAbsolute = true := by
        rw [← start_eq_top_iff, start_descend hp hns, hjoin, start_eq_top_iff, hdir]
      exact congrArg (locate home) (if_pos habs)

/-- Hits with the locations of their files: one hit for each file that bears lookups, in the order of the files. -/
structure Scans (d : Disk) (root : Path) (extensions : List String) (dir : Path)
    (found : List (Location × FallbackHit)) : Prop where
  increasing : (found.map Prod.fst).Pairwise (· < ·)
  mem_iff : ∀ loc, loc ∈ found.map Prod.fst ↔ ∃ occurrences, d.Bears (root.join dir) extensions loc occurrences
  tells : ∀ loc hit occurrences, (loc, hit) ∈ found → d.Bears (root.join dir) extensions loc occurrences →
    Tells d.home root hit loc occurrences

theorem Bears.unique {occurrences' : List String} (h : d.Bears p extensions loc occurrences)
    (h' : d.Bears p extensions loc occurrences') : occurrences = occurrences' := by
  obtain ⟨text, hitem, hleftmost⟩ := h.written
  obtain ⟨text', hitem', hleftmost'⟩ := h'.written
  rw [hitem] at hitem'
  have hbytes : text.toUTF8 = text'.toUTF8 := Item.file.inj (Option.some.inj hitem')
  obtain rfl := String.toByteArray_inj.1 hbytes
  exact (FallbackLookup.leftmost_iff.1 hleftmost).trans (FallbackLookup.leftmost_iff.1 hleftmost').symm

/-- A path that leads nowhere has no files. -/
theorem scans_nil {flaw : Flaw} (hfind : d.find (root.join dir) = .error flaw) : d.Scans root extensions dir [] := by
  refine ⟨.nil, fun loc => ⟨nofun, ?_⟩, nofun⟩
  rintro ⟨occurrences, ⟨base, item, hok, _⟩, _⟩
  rw [hfind] at hok
  cases hok

theorem scans_reported (hfind : d.find (root.join dir) = .ok (base, item)) :
    d.Scans root extensions dir ((d.filesUnder base).filterMap (reported? root (root.join dir) extensions base)) := by
  refine ⟨?_, fun loc => ?_, fun loc hit occurrences hreported hbears => ?_⟩
  · refine List.pairwise_map.2 (List.pairwise_filterMap.2 (pairwise_filesUnder.imp fun {f g} hlt a ha b hb => ?_))
    rw [(reported?_eq_some_iff.1 ha).2.2.2, (reported?_eq_some_iff.1 hb).2.2.2]
    exact hlt
  · rw [List.mem_map]
    constructor
    · rintro ⟨⟨_, hit⟩, hreported, rfl⟩
      obtain ⟨occurrences, hbears, _⟩ := (mem_reported_iff hfind root extensions).1 hreported
      exact ⟨occurrences, hbears⟩
    · rintro ⟨occurrences, hbears⟩
      exact ⟨(loc, _), (mem_reported_iff hfind root extensions).2 ⟨occurrences, hbears, rfl⟩, rfl⟩
  · obtain ⟨occurrences', hbears', rfl⟩ := (mem_reported_iff hfind root extensions).1 hreported
    obtain rfl := hbears.unique hbears'
    refine ⟨?_, rfl, firstAppearances_eraseDups _⟩
    obtain ⟨base', item', hfind', ⟨ns, rfl⟩, haccept⟩ := hbears.below
    rw [hfind] at hfind'
    cases hfind'
    obtain ⟨text, hitem, _⟩ := hbears.written
    have hnames : ∀ name ∈ ns, IsName name := fun name hname =>
      isName_of_item? hitem name (List.mem_append_right base hname)
    have hroot := (accept_eq_ok_iff.1 (leads_of_find hfind).accepted).2.2
    rw [pathBelow, List.drop_left, locate_hitOf d.home hroot hnames, locate_descend hnames, (find_eq_ok hfind).1]

theorem exists_scans (root : Path) (extensions : List String) (dir : Path) :
    ∃ found, (d.filesBelow (root.join dir) extensions).filterMap (fallbackHit? root) = found.map Prod.snd ∧
      d.Scans root extensions dir found := by
  cases hfind : d.find (root.join dir) with
  | error flaw => exact ⟨[], by rw [filesBelow, walk, hfind]; rfl, scans_nil hfind⟩
  | ok there => exact ⟨_, filterMap_fallbackHit? hfind, scans_reported hfind⟩

/-- The scan misses nothing and invents nothing: directory by directory, it has the hits of the files that bear lookups,
in the order of their locations. -/
theorem scanFallbacks_exact (d : Disk) (root : Path) (scope : FallbackScope) :
    ∃ parts : List (List (Location × FallbackHit)), d.scanFallbacks root scope = parts.flatten.map Prod.snd ∧
      List.Forall₂ (d.Scans root scope.extensions) scope.dirs parts := by
  rw [scanFallbacks]
  induction scope.dirs with
  | nil => exact ⟨[], rfl, .nil⟩
  | cons dir dirs ih =>
      obtain ⟨found, hfound, hscans⟩ := exists_scans root scope.extensions dir
      obtain ⟨parts, hparts, hall⟩ := ih
      refine ⟨found :: parts, ?_, .cons hscans hall⟩
      rw [List.flatMap_cons, hfound, hparts, List.flatten_cons, List.map_append]

/-- A disk with one directory. -/
private def bareShelf : Disk := (Disk.empty []).put [] "s" .directory (by decide) (item?_top _) (.inl rfl)

private theorem item?_bareShelf (loc : Location) :
    bareShelf.item? loc = if loc = ["s"] then some .directory else if loc = [] then some .directory else none := by
  rw [bareShelf, item?_put]
  rfl

private theorem bareShelf_directory : bareShelf.item? ["s"] = some .directory := by rw [item?_bareShelf, if_pos rfl]

private theorem bareShelf_free (name : String) : bareShelf.item? ["s", name] ≠ some .directory := by
  simp [item?_bareShelf]

/-- The directory with one stylesheet. -/
private def shelf (name : String) (hname : IsName name) : Disk :=
  bareShelf.put ["s"] name (.file "var(--a, b)".toUTF8) hname bareShelf_directory (.inr (bareShelf_free name))

private theorem item?_shelf {name : String} (hname : IsName name) (loc : Location) :
    (shelf name hname).item? loc = if loc = ["s", name] then some (.file "var(--a, b)".toUTF8) else
      if loc = ["s"] then some .directory else if loc = [] then some .directory else none := by
  rw [shelf, item?_put, item?_bareShelf]
  rfl

theorem scanFallbacks_exact_shelf :
    let d := shelf "a.scss" (by decide)
    d.scanFallbacks ⟨""⟩ ⟨[⟨"s"⟩], ["scss"]⟩ = [⟨⟨"s/a.scss"⟩, ["var(--a, b)"], 1⟩] ∧
      ∃ parts : List (List (Location × FallbackHit)),
        d.scanFallbacks ⟨""⟩ ⟨[⟨"s"⟩], ["scss"]⟩ = parts.flatten.map Prod.snd ∧
          List.Forall₂ (d.Scans ⟨""⟩ ["scss"]) [⟨"s"⟩] parts :=
  ⟨by decide +kernel, scanFallbacks_exact _ _ _⟩

private def longName (k : Nat) : String := String.ofList (List.replicate k 'a') ++ ".scss"

/-- The directory with slashes after it. -/
private def slashed (n : Nat) : Path := ⟨"s" ++ String.ofList (List.replicate n '/')⟩

private theorem size_replicate {c : Char} (hc : c.utf8Size = 1) (n : Nat) :
    (String.ofList (List.replicate n c)).utf8ByteSize = n := by
  induction n with
  | zero => rfl
  | succ n ih =>
      rw [List.replicate_succ, String.ofList_cons, String.utf8ByteSize_append, ih, String.utf8ByteSize_singleton, hc,
        Nat.add_comm]

private theorem isName_longName (k : Nat) : IsName (longName k) := by
  have hne : ∀ s : String, s.length < 5 → longName k ≠ s := by
    rintro s hs rfl
    rw [longName, String.length_append] at hs
    have : ".scss".length = 5 := rfl
    omega
  refine ⟨?_, hne _ (by decide), by simp [longName, List.mem_replicate]⟩
  simp [isVacuous, hne "" (by decide), hne "." (by decide)]

/-- The directory with a stylesheet that has a long name. -/
private def longShelf (k : Nat) : Disk := shelf (longName k) (isName_longName k)

private theorem asks_longName {k : Nat} (hk : 0 < k) : FallbackScope.Asks ["scss"] (longName k) := by
  have hstem : (longName k).toList = List.replicate k 'a' ++ '.' :: "scss".toList := by simp [longName]
  have hending : HasEnding (longName k) "scss" :=
    (hasEnding_iff hstem (by decide)).2 ⟨by simpa using hk.ne', (String.ofList_toList ..).symm⟩
  exact .inr ⟨"scss", [], hending, nofun, by simp⟩

private theorem parts_slashed (n : Nat) : (slashed n).parts = "s" :: List.replicate n "" := by
  have hslash : ∀ s : String, parts ⟨s ++ "/"⟩ = parts ⟨s⟩ ++ [""] := fun s => by
    rw [← String.append_empty (s := s ++ "/"), parts_slash]
    rfl
  have hslashes : ∀ s : String,
      parts ⟨s ++ String.ofList (List.replicate n '/')⟩ = parts ⟨s⟩ ++ List.replicate n "" := by
    induction n with
    | zero => simp
    | succ n ih =>
        intro s
        have hone : s ++ String.ofList (List.replicate (n + 1) '/') =
            s ++ "/" ++ String.ofList (List.replicate n '/') := by
          rw [List.replicate_succ, String.ofList_cons, String.append_assoc]
          rfl
        rw [hone, ih, hslash, List.append_assoc]
        rfl
  exact hslashes "s"

private theorem size_slashed (n : Nat) : (slashed n).text.utf8ByteSize = n + 1 := by
  rw [slashed, String.utf8ByteSize_append, size_replicate rfl, Nat.add_comm]
  rfl

private theorem find_slashed {n : Nat} (hn : n < maxPathSize) (k : Nat) :
    (longShelf k).find (slashed n) = .ok (["s"], .directory) := by
  have haccept : accept (slashed n) = .ok () := by
    refine accept_eq_ok_iff.2 ⟨by simp [slashed, List.mem_replicate], ?_, by simp [slashed]⟩
    rw [size_slashed]
    omega
  have hdir : (longShelf k).item? ["s"] = some .directory := by simp [longShelf, item?_shelf]
  have henter : (longShelf k).enter [] "s" = .ok ["s"] := by
    rw [enter_of_directory rfl]
    rfl
  have hfollow : (longShelf k).follow ((longShelf k).origin (slashed n)) (slashed n).parts = .ok ["s"] := by
    have horigin : (longShelf k).origin (slashed n) = [] := ite_self []
    rw [horigin, parts_slashed, follow_cons, henter]
    exact follow_of_isVacuous hdir fun part hpart => by rw [List.eq_of_mem_replicate hpart]; rfl
  have hlocate : locate (longShelf k).home (slashed n) = ["s"] := (follow_eq_ok hfollow).symm
  exact hlocate ▸ Leads.find_eq ⟨haccept, hlocate ▸ hfollow⟩ (hlocate ▸ hdir)

private theorem filesUnder_longShelf {k : Nat} {f : Location × ByteArray} (h : f ∈ (longShelf k).filesUnder ["s"]) :
    f.1 = ["s", longName k] := by
  obtain ⟨_, hitem⟩ := mem_filesUnder.1 h
  by_contra hne
  rw [longShelf, item?_shelf, if_neg hne] at hitem
  split_ifs at hitem <;> cases hitem

private theorem scanFallbacks_longShelf {n k : Nat} (hn : n < maxPathSize) (hk : maxPathSize < n + k) :
    (longShelf k).scanFallbacks ⟨""⟩ ⟨[slashed n], ["scss"]⟩ = [] := by
  have hjoin := empty_join (isAbsolute_eq_false (p := slashed n) (by simp [parts_slashed]))
  have hfar : accept (pathBelow (slashed n) ["s"] ["s", longName k]) ≠ .ok () := by
    intro haccept
    obtain ⟨slash, htext⟩ := exists_text_join (p := slashed n) (isName_longName k).not_isAbsolute
    have hsize := (accept_eq_ok_iff.1 haccept).2.1
    change ((slashed n).join ⟨longName k⟩).text.utf8ByteSize ≤ _ at hsize
    rw [htext, String.utf8ByteSize_append, String.utf8ByteSize_append, size_slashed, longName,
      String.utf8ByteSize_append, size_replicate rfl] at hsize
    omega
  rw [scanFallbacks, List.flatMap_singleton, hjoin, filterMap_fallbackHit? (find_slashed hn _), List.map_eq_nil_iff,
    List.filterMap_eq_nil_iff]
  refine fun f hf => Option.eq_none_iff_forall_ne_some.2 fun found hfound => ?_
  obtain ⟨_, _, hhit, _⟩ := reported?_eq_some_iff.1 hfound
  obtain ⟨_, haccept, _⟩ := fallbackHit?_eq_some_iff.1 hhit
  rw [filesUnder_longShelf hf] at haccept
  exact hfar haccept

/-- Below a path that is almost too long there is a stylesheet with a lookup that the scan does not see. -/
theorem scanFallbacks_slashed :
    (longShelf 240).find (slashed 3860) = .ok (["s"], .directory) ∧
      (longShelf 240).item? ["s", longName 240] = some (.file "var(--a, b)".toUTF8) ∧
      FallbackScope.Asks ["scss"] (longName 240) ∧
      Leftmost FallbackLookup.IsLookup "var(--a, b)".toList (["var(--a, b)"].map String.toList) ∧
      (longShelf 240).scanFallbacks ⟨""⟩ ⟨[slashed 3860], ["scss"]⟩ = [] := by
  have hall : ["var(--a, b)"] = FallbackLookup.all "var(--a, b)" := by decide +kernel
  exact ⟨find_slashed (by decide) _, by rw [longShelf, item?_shelf, if_pos rfl], asks_longName (by decide),
    FallbackLookup.leftmost_iff.2 hall, scanFallbacks_longShelf (by decide) (by decide)⟩

end Disk

end DesignTokens
