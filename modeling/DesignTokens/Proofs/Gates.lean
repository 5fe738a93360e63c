import DesignTokens.Proofs.Battery
import DesignTokens.Proofs.FallbackHits
import DesignTokens.Proofs.Protection

/-!
# Two gates for fallbacks

The check of the stylesheets and the scan of the project look at overlapping parts of the disk. Under the usual layout
they agree: the check counts what the scan finds in the stylesheets.
-/

namespace DesignTokens

namespace Disk

open DesignTokens.Path

variable {d : Disk} {root dir p q : Path} {base : Location} {bytes : ByteArray}
  {ns extensions occurrences : List String}
  {hit : FallbackHit}

/-! ## Files of hits -/

theorem exists_descend_of_mem_walk (h : (q, bytes) ∈ d.walk p) :
    ∃ ns, (∀ name ∈ ns, IsName name) ∧ q = p.descend ns := by
  cases hfind : d.find p with
  | error flaw =>
      rw [walk, hfind] at h
      cases h
  | ok there =>
      rw [walk_eq hfind] at h
      obtain ⟨f, hf, hq⟩ := List.mem_map.1 h
      obtain ⟨_, hitem⟩ := mem_filesUnder.1 (List.mem_of_mem_filter hf)
      cases hq
      exact ⟨_, fun name hname => isName_of_item? hitem name (List.mem_of_mem_drop hname), rfl⟩

/-- The file of a hit below a directory that is given from the root: the root is taken off the path. -/
theorem file_hitOf (root : Path) (occurrences : List String) (hjoined : dir.start = .joined) (hne : dir.names ≠ [])
    (hns : ∀ name ∈ ns, IsName name) :
    (hitOf root ((root.join dir).descend ns) occurrences).file.components = dir.names ++ ns ∧
      ∃ above, ((root.join dir).descend ns).components = above ++ (dir.names ++ ns) := by
  have hdir : dir.isAbsolute = false := by
    rw [← Bool.not_eq_true, ← start_eq_top_iff, hjoined]
    exact nofun
  have htext : dir.text ≠ "" := fun hempty => hne (by rw [names, parts, hempty]; decide)
  have hnames : ((root.join dir).descend ns).names = root.names ++ (dir.names ++ ns) := by
    rw [names_descend hns, names_join hdir, List.append_assoc]
  refine ⟨?_, _, by rw [components_eq, hnames, ← List.append_assoc]⟩
  rw [hitOf]
  by_cases hroot : root.text = ""
  · obtain rfl : root = ⟨""⟩ := congrArg Path.mk hroot
    have hown : ((Path.mk "").join dir).descend ns = dir.descend ns := by rw [empty_join hdir]
    have hrelative : (dir.descend ns).relativeTo? ⟨""⟩ = some (dir.descend ns) := if_pos rfl
    rw [hown, hrelative, Option.getD_some, components_eq, start_descend htext hns, hjoined, names_descend hns]
    rfl
  · have hstart := (start_descend (text_join_ne htext) hns).trans (start_join hroot hdir)
    obtain ⟨r, hr⟩ := exists_relativeTo? hstart hnames
    have hfollows := follows_of_relativeTo? (mt text_eq_of_components_eq_nil hroot) hr
    rw [hr, Option.getD_some, hfollows.components_eq]
    exact List.append_cancel_left (hfollows.names_eq.symm.trans hnames)

theorem extension?_hitOf (root : Path) (occurrences : List String) (hjoined : dir.start = .joined)
    (hne : dir.names ≠ []) (hns : ∀ name ∈ ns, IsName name) :
    (hitOf root ((root.join dir).descend ns) occurrences).file.extension? =
      ((root.join dir).descend ns).extension? := by
  obtain ⟨hfile, above, hpath⟩ := file_hitOf root occurrences hjoined hne hns
  have hlast : (above ++ (dir.names ++ ns)).getLast? = (dir.names ++ ns).getLast? :=
    List.getLast?_append_of_ne_nil above (List.append_ne_nil_of_left_ne_nil hne ns)
  rw [extension?, extension?, fileName?, fileName?, hfile, hpath, hlast]

/-- Each hit in a directory that is given from the root is due to a listed file. -/
theorem exists_of_fallbackHit? (hjoined : dir.start = .joined) (hne : dir.names ≠ [])
    (hq : (q, bytes) ∈ d.walk (root.join dir)) (hhit : fallbackHit? root (q, bytes) = some hit) :
    (∃ ns, hit.file.components = dir.names ++ ns) ∧ hit.file.extension? = q.extension? ∧ hit.count ≠ 0 := by
  obtain ⟨ns, hns, rfl⟩ := exists_descend_of_mem_walk hq
  obtain ⟨text, _, _, hfound, rfl⟩ := fallbackHit?_eq_some_iff.1 hhit
  refine ⟨⟨ns, (file_hitOf root _ hjoined hne hns).1⟩, extension?_hitOf root _ hjoined hne hns, ?_⟩
  exact mt List.length_eq_zero_iff.1 hfound

/-- The hits of one directory of a scope. -/
def hitsBelow (d : Disk) (root : Path) (extensions : List String) (dir : Path) : List FallbackHit :=
  (d.filesBelow (root.join dir) extensions).filterMap (fallbackHit? root)

theorem exists_of_mem_hitsBelow (hjoined : dir.start = .joined) (hne : dir.names ≠ [])
    (h : hit ∈ d.hitsBelow root extensions dir) :
    (∃ ns, hit.file.components = dir.names ++ ns) ∧ hit.count ≠ 0 := by
  obtain ⟨⟨q, bytes⟩, hq, hhit⟩ := List.mem_filterMap.1 h
  obtain ⟨hfile, _, hcount⟩ := exists_of_fallbackHit? hjoined hne (List.mem_of_mem_filter hq) hhit
  exact ⟨hfile, hcount⟩

/-! ## Endings -/

theorem selects_singleton {ending : String} (hplain : ending.toList.head? ≠ some '.') :
    FallbackScope.selects [ending] p = decide (p.extension? = some ending) := by
  have hdrop : ending.toList.dropWhile (· == '.') = ending.toList := by
    cases h : ending.toList with
    | nil => rfl
    | cons c s =>
        have hc : c ≠ '.' := fun hc => hplain (by rw [h, hc]; rfl)
        rw [List.dropWhile_cons_of_neg (by simpa using hc)]
  rw [FallbackScope.selects]
  cases p.extension? with
  | none => rfl
  | some other =>
      have heq : (ending.toList == other.toList) = decide (some other = some ending) := by
        rw [Bool.eq_iff_iff, beq_iff_eq, decide_eq_true_eq, String.toList_inj, Option.some_inj, eq_comm]
      simpa [hdrop] using heq

/-- The hits in files with one ending that is asked for are those of a scan that asks for this ending alone. -/
theorem hitsBelow_singleton (hjoined : dir.start = .joined) (hne : dir.names ≠ []) {ending : String}
    (hplain : ending.toList.head? ≠ some '.')
    (hasked : ∀ p : Path, p.extension? = some ending → FallbackScope.selects extensions p = true) :
    d.hitsBelow root [ending] dir =
      (d.hitsBelow root extensions dir).filter fun h => h.file.extension? = some ending := by
  rw [hitsBelow, hitsBelow, filesBelow, filesBelow, List.filterMap_filter, List.filterMap_filter,
    List.filter_filterMap]
  refine List.filterMap_congr fun file hq => ?_
  obtain ⟨q, bytes⟩ := file
  rw [selects_singleton hplain]
  cases hhit : fallbackHit? root (q, bytes) with
  | none => simp
  | some hit =>
      have hfile := (exists_of_fallbackHit? hjoined hne hq hhit).2.1
      by_cases hending : q.extension? = some ending
      · simp [hfile, hending, hasked q hending, Option.filter]
      · cases hselects : FallbackScope.selects extensions q <;> simp [hfile, hending, Option.filter]

end Disk

namespace FallbackHit

theorem total_eq_zero_iff {hits : List FallbackHit} (h : ∀ hit ∈ hits, hit.count ≠ 0) : total hits = 0 ↔ hits = [] := by
  cases hits with
  | nil => simp [total]
  | cons hit hits =>
      have hcount := h hit (List.mem_cons_self ..)
      simp [total, hcount]

end FallbackHit

/-! ## The usual layout -/

namespace Check

variable {d : Disk} {root : Path}

/-- The label of the result on lookups with fallbacks. -/
def fallbackLabel : String := "SCSS: no var(--token, fallback) usage"

/-- Whether a hit lies in a stylesheet below the usual directory of the stylesheets. -/
def InStylesheet (hit : FallbackHit) : Prop :=
  ({} : Layout).stylesheetDir.components <+: hit.file.components ∧ hit.file.extension? = some "scss"

instance (hit : FallbackHit) : Decidable (InStylesheet hit) :=
  inferInstanceAs (Decidable (_ ∧ _))

/-- The hits of the project's scan in stylesheets. -/
def stylesheetHits (root : Path) (d : Disk) : List FallbackHit :=
  ((Project.usual root).scanFallbacks d).filter fun hit => InStylesheet hit

theorem components_stylesheetDir : ({} : Layout).stylesheetDir.components = ["src", "assets", "scss"] := by decide

theorem scanFallbacks_stylesheetDir :
    d.scanFallbacks root ⟨[({} : Layout).stylesheetDir], ["scss"]⟩ = stylesheetHits root d := by
  have hasked : ∀ p : Path, p.extension? = some "scss" →
      FallbackScope.selects ({} : FallbackScope).extensions p = true := fun p hp => by
    rw [FallbackScope.selects, hp]
    decide +kernel
  have hscan : (Project.usual root).scanFallbacks d =
      d.hitsBelow root ({} : FallbackScope).extensions ⟨"src/assets/scss"⟩ ++
        d.hitsBelow root ({} : FallbackScope).extensions ⟨"src/_includes"⟩ := by
    rw [← List.append_nil (d.hitsBelow root _ ⟨"src/_includes"⟩)]
    rfl
  have hother : (d.hitsBelow root ({} : FallbackScope).extensions ⟨"src/_includes"⟩).filter
      (fun hit => InStylesheet hit) = [] := by
    refine List.filter_eq_nil_iff.2 fun hit hhit hin => ?_
    obtain ⟨⟨ns, hns⟩, _⟩ := Disk.exists_of_mem_hitsBelow (by decide) (by decide) hhit
    obtain ⟨hpre, _⟩ := of_decide_eq_true hin
    rw [hns, components_stylesheetDir, show Path.names ⟨"src/_includes"⟩ = ["src", "_includes"] by decide] at hpre
    simp at hpre
  rw [stylesheetHits, hscan, List.filter_append, hother, List.append_nil, Disk.scanFallbacks, List.flatMap_singleton]
  change d.hitsBelow root ["scss"] ⟨"src/assets/scss"⟩ = _
  rw [Disk.hitsBelow_singleton (by decide) (by decide) (by decide) hasked]
  refine List.filter_congr fun hit hhit => ?_
  obtain ⟨⟨ns, hns⟩, _⟩ := Disk.exists_of_mem_hitsBelow (by decide) (by decide) hhit
  have hin : ({} : Layout).stylesheetDir.components <+: hit.file.components := by
    rw [hns, components_stylesheetDir]
    exact List.prefix_append ["src", "assets", "scss"] ns
  simp [InStylesheet, hin]

theorem count_ne_zero : ∀ hit ∈ stylesheetHits root d, hit.count ≠ 0 := by
  intro hit hhit
  rw [← scanFallbacks_stylesheetDir, Disk.scanFallbacks, List.flatMap_singleton] at hhit
  exact (Disk.exists_of_mem_hitsBelow (by decide) (by decide) hhit).2

theorem fallbackCount_eq :
    fallbackCount d root ({} : Layout).stylesheetDir = FallbackHit.total (stylesheetHits root d) := by
  rw [fallbackCount, scanFallbacks_stylesheetDir]

theorem run_stylesheets (hdir : d.isDirectory (root.join ({} : Layout).stylesheetDir) = true) :
    stylesheets.run d root {} =
      [.gate (fallbackCount d root ({} : Layout).stylesheetDir == 0) fallbackLabel .fail
          ("Found " ++ toString (fallbackCount d root ({} : Layout).stylesheetDir) ++ " fallback usages"),
        .gate (typoCount d root ({} : Layout).stylesheetDir ({} : Layout).knownTypos == 0) "SCSS: no known token typos"
          .fail ("Found " ++ toString (typoCount d root ({} : Layout).stylesheetDir ({} : Layout).knownTypos) ++
            " token typos")] :=
  if_pos hdir

theorem label_gate (ok : Bool) (label : String) (status : Status) (detail : String) :
    (CheckResult.gate ok label status detail).label = label := by
  cases ok <;> rfl

/-- The results of the check of the stylesheets that are about lookups with fallbacks. -/
theorem filter_run_stylesheets
    (hdir : d.isDirectory (root.join ({} : Layout).stylesheetDir) = true) :
    (stylesheets.run d root {}).filter (fun r => r.label = fallbackLabel) =
      [if stylesheetHits root d = [] then .pass fallbackLabel
        else ⟨.fail, fallbackLabel,
          some ("Found " ++ toString (FallbackHit.total (stylesheetHits root d)) ++ " fallback usages")⟩] := by
  have hother : "SCSS: no known token typos" ≠ fallbackLabel := by decide
  rw [run_stylesheets hdir, List.filter_cons_of_pos (by simp [label_gate]),
    List.filter_cons_of_neg (by simp [label_gate, hother]), List.filter_nil, fallbackCount_eq]
  have hzero := FallbackHit.total_eq_zero_iff (@count_ne_zero d root)
  by_cases hnone : stylesheetHits root d = []
  · rw [if_pos hnone, hzero.2 hnone]
    rfl
  · have hcount : (FallbackHit.total (stylesheetHits root d) == 0) = false := by simpa using mt hzero.1 hnone
    rw [if_neg hnone, hcount]
    simp [CheckResult.gate]

theorem label_dispatchResult (source : String) : (dispatchResult source).label ≠ fallbackLabel := by
  unfold dispatchResult
  dsimp only
  split_ifs <;> decide

/-- No other check speaks of lookups with fallbacks. -/
theorem eq_stylesheets_of_label {check : Check} {r : CheckResult} (h : r ∈ check.run d root {})
    (hlabel : r.label = fallbackLabel) : check = stylesheets := by
  have hmem : fallbackLabel ∈ (check.run d root {}).map CheckResult.label := hlabel ▸ List.mem_map_of_mem h
  unfold run at hmem
  cases check with
  | stylesheets => rfl
  | executor =>
      dsimp only at hmem
      split at hmem
      · next source _ =>
          simp [executorResults, label_gate, CheckResult.pass, fallbackLabel] at hmem
          exact absurd hmem.symm (label_dispatchResult source)
      · simp [missingFile, fallbackLabel] at hmem
  | richtext =>
      dsimp only at hmem
      split at hmem <;> simp [richtextResults, label_gate, fallbackLabel] at hmem
  | figure =>
      dsimp only at hmem
      split at hmem <;> simp [figureResults, missingFile, label_gate, fallbackLabel] at hmem
  | siteConfig =>
      dsimp only at hmem
      split at hmem <;> simp [siteConfigResults, label_gate, fallbackLabel] at hmem
  | contractDocument =>
      dsimp only at hmem
      split at hmem <;> simp [contractDocumentResults, missingFile, label_gate, fallbackLabel] at hmem

end Check

namespace CommandLine

variable {d : Disk} {root : Path}

theorem scanFallbacks_of_exit {args : List String} {config : Option Path} {now : Instant}
    (hargs : Invocation.ofArguments args = some ⟨root, config, .scanFallbacks⟩)
    (hload : Layout.load d root config = .ok {}) (hexit : (run args now d).1.exit = 0) :
    (Project.usual root).scanFallbacks d = [] := by
  have hrun : run args now d = (fallbackOutcome ((Project.usual root).scanFallbacks d), d) := by
    simp only [run, hargs, hload, Command.run]
  rw [hrun] at hexit
  cases hscan : (Project.usual root).scanFallbacks d with
  | nil => rfl
  | cons hit hits =>
      rw [hscan] at hexit
      cases hexit

/-- The two gates agree: the check of the stylesheets counts the lookups of the project's hits in stylesheets, so its
result on them is a pass exactly if there is no such hit, and after a scan that exits with 0 no check fails for them. -/
theorem fallback_gates_agree (root : Path)
    (hdir : d.isDirectory (root.join ({} : Layout).stylesheetDir) = true) :
    Check.fallbackCount d root ({} : Layout).stylesheetDir = FallbackHit.total (Check.stylesheetHits root d) ∧
      (Check.stylesheets.run d root {}).filter (fun r => r.label = Check.fallbackLabel) =
        [if Check.stylesheetHits root d = [] then .pass Check.fallbackLabel
          else ⟨.fail, Check.fallbackLabel,
            some ("Found " ++ toString (FallbackHit.total (Check.stylesheetHits root d)) ++ " fallback usages")⟩] ∧
      ∀ args config now, Invocation.ofArguments args = some ⟨root, config, .scanFallbacks⟩ →
        Layout.load d root config = .ok {} → (run args now d).1.exit = 0 →
          ∀ r ∈ ((Project.usual root).contractReport now d).results, r.label = Check.fallbackLabel →
            r.status = .pass := by
  refine ⟨Check.fallbackCount_eq, Check.filter_run_stylesheets hdir, ?_⟩
  intro args config now hargs hload hexit r hr hlabel
  have hnone : Check.stylesheetHits root d = [] := by
    rw [Check.stylesheetHits, scanFallbacks_of_exit hargs hload hexit]
    rfl
  obtain ⟨check, hrun⟩ := Project.mem_contractReport.1 hr
  obtain rfl := Check.eq_stylesheets_of_label hrun hlabel
  have hmem : r ∈ (Check.stylesheets.run d root {}).filter (fun r => r.label = Check.fallbackLabel) :=
    List.mem_filter.2 ⟨hrun, decide_eq_true hlabel⟩
  rw [Check.filter_run_stylesheets hdir, if_pos hnone, List.mem_singleton] at hmem
  rw [hmem]
  rfl

/-- A directory for stylesheets. -/
private def bareDisk : Disk := ((Disk.empty []).makeDirectories ⟨"src/assets/scss"⟩).1

private theorem bareDisk_directory : bareDisk.item? ["src", "assets", "scss"] = some .directory := by decide +kernel

private theorem bareDisk_free : bareDisk.item? ["src", "assets", "scss", "a.scss"] ≠ some .directory := by
  decide +kernel

/-- A stylesheet with one fallback. -/
private def themeDisk : Disk :=
  bareDisk.put ["src", "assets", "scss"] "a.scss" (.file "var(--a, b)".toUTF8) (by decide) bareDisk_directory
    (.inr bareDisk_free)

theorem fallback_gates_agree_theme :
    Check.stylesheetHits ⟨"."⟩ themeDisk = [⟨⟨"src/assets/scss/a.scss"⟩, ["var(--a, b)"], 1⟩] ∧
      Check.fallbackCount themeDisk ⟨"."⟩ ({} : Layout).stylesheetDir = 1 ∧
      (Check.stylesheets.run themeDisk ⟨"."⟩ {}).filter (fun r => r.label = Check.fallbackLabel) =
        [⟨.fail, Check.fallbackLabel, some "Found 1 fallback usages"⟩] := by
  have hhits : Check.stylesheetHits ⟨"."⟩ themeDisk = [⟨⟨"src/assets/scss/a.scss"⟩, ["var(--a, b)"], 1⟩] := by
    decide +kernel
  obtain ⟨hcount, hresult, _⟩ := fallback_gates_agree (d := themeDisk) ⟨"."⟩ (by decide +kernel)
  rw [hhits] at hcount hresult
  exact ⟨hhits, hcount, hresult⟩

end CommandLine

end DesignTokens
