import DesignTokens.Proofs.Battery
import DesignTokens.Proofs.Commuting
import DesignTokens.Proofs.Protection

/-!
# Checking and documenting are independent

Under the usual layout checks and documents are about other files than those that they write, and they write different
files into one directory. So it does not matter which of them runs first, whatever the disk holds and wherever they
stop. Only the root must not go up from what is not there yet.
-/

namespace DesignTokens

open DesignTokens.Path

namespace Check

variable {d e : Disk} {root : Path} {layout : Layout}

/-- The checks look at the files written by hand and at the stylesheets. -/
theorem run_congr
    (hfiles : ∀ path ∈ layout.collaborators.paths, e.textOf? (root.join path) = d.textOf? (root.join path))
    (hsheets : stylesheetResults e root layout = stylesheetResults d root layout) (check : Check) :
    check.run e root layout = check.run d root layout := by
  simp only [Collaborators.paths, List.forall_mem_cons] at hfiles
  obtain ⟨hexecutor, hrichtext, hfigure, hsiteConfig, hcontract, _⟩ := hfiles
  unfold run
  cases check with
  | executor => dsimp only; rw [hexecutor]
  | richtext => dsimp only; rw [hrichtext]
  | figure => dsimp only; rw [hfigure]
  | siteConfig => dsimp only; rw [hsiteConfig]
  | stylesheets => exact hsheets
  | contractDocument => dsimp only; rw [hcontract]

theorem stylesheetResults_congr
    (hdir : e.isDirectory (root.join layout.stylesheetDir) = d.isDirectory (root.join layout.stylesheetDir))
    (hwalk : e.walk (root.join layout.stylesheetDir) = d.walk (root.join layout.stylesheetDir)) :
    stylesheetResults e root layout = stylesheetResults d root layout := by
  have hfallbacks : fallbackCount e root layout.stylesheetDir = fallbackCount d root layout.stylesheetDir := by
    rw [fallbackCount, fallbackCount, Disk.scanFallbacks, Disk.scanFallbacks, List.flatMap_singleton,
      List.flatMap_singleton, Disk.filesBelow, Disk.filesBelow, hwalk]
  have htypos : typoCount e root layout.stylesheetDir layout.knownTypos =
      typoCount d root layout.stylesheetDir layout.knownTypos := by
    rw [typoCount, typoCount, Disk.filesBelow, Disk.filesBelow, hwalk]
  rw [stylesheetResults, stylesheetResults, hdir, hfallbacks, htypos]

end Check

namespace Project

variable {d e : Disk} {root path : Path} {now : Instant}

/-! ## What is read -/

/-- The path says where something lies below the root, but not about where reports are written. -/
def Apart (path : Path) : Prop :=
  (∀ part ∈ path.parts, IsName part) ∧ ¬path.parts <+: ({} : Layout).reportDir.parts ∧
    ¬({} : Layout).reportDir.parts <+: path.parts

instance (path : Path) : Decidable (Apart path) := inferInstanceAs (Decidable (_ ∧ _ ∧ _))

theorem Apart.avoids (h : Apart path) (root : Path) (home : Location) :
    Disk.Avoids home (root.join path) (Disk.locate home (root.join ({} : Layout).reportDir)) := by
  obtain ⟨hnames, habove, hbelow⟩ := h
  constructor
  · rwa [Disk.locate_join_names hnames, Disk.locate_join_names isName_reportDir, List.prefix_append_right_inj]
  · rwa [Disk.locate_join_names hnames, Disk.locate_join_names isName_reportDir, List.prefix_append_right_inj]

/-- `e` is `d` after some reports. -/
abbrev Reported (root : Path) (d e : Disk) : Prop :=
  d.GrowsAt (Disk.locate d.home (root.join ({} : Layout).reportDir)) e

theorem textOf?_reported (hd : d.Grounded root) (h : Reported root d e) (hpath : Apart path) :
    e.textOf? (root.join path) = d.textOf? (root.join path) :=
  h.textOf?_eq (hd.join_names hpath.1) (hpath.avoids root d.home)

theorem stylesheetResults_reported (hd : d.Grounded root) (h : Reported root d e) :
    Check.stylesheetResults e root {} = Check.stylesheetResults d root {} := by
  have hdir : Apart ({} : Layout).stylesheetDir := by decide
  have hground := hd.join_names hdir.1
  have havoids := hdir.avoids root d.home
  exact Check.stylesheetResults_congr (h.isDirectory_eq hground havoids) (h.walk_eq hground havoids)

theorem run_reported (hd : d.Grounded root) (h : Reported root d e) (check : Check) :
    check.run e root {} = check.run d root {} := by
  have hapart : ∀ path ∈ ({} : Layout).collaborators.paths, Apart path := by decide
  exact Check.run_congr (fun path hpath => textOf?_reported hd h (hapart path hpath))
    (stylesheetResults_reported hd h) check

theorem contractReport_reported (hd : d.Grounded root) (h : Reported root d e) :
    (usual root).contractReport now e = (usual root).contractReport now d := by
  rw [contractReport, contractReport, checkResults, checkResults]
  exact congrArg (ContractReport.ofResults now) (List.flatMap_congr fun check _ => run_reported hd h check)

theorem routerMap_reported (hd : d.Grounded root) (h : Reported root d e) :
    (usual root).routerMap e = (usual root).routerMap d :=
  have hrouter : Apart ({} : Layout).collaborators.executor := by decide
  congrArg (Docs.routerMap _) (textOf?_reported hd h hrouter)

theorem snapshot_reported (hd : d.Grounded root) (h : Reported root d e) :
    (usual root).snapshot e = (usual root).snapshot d := by
  have hapart : ∀ path ∈ ({} : Layout).generatedPaths, Apart path := by decide
  refine congrArg Docs.tokensSnapshot (List.map_congr_left fun path hpath => ?_)
  rw [textOf?_reported hd h (hapart path hpath)]

/-! ## What is written -/

/-- The directory of the reports. -/
def reportsAt (root : Path) : Path := root.join ({} : Layout).reportDir

/-- Both documents, once their directory is there. -/
def writeDocs (root : Path) : Job (List Path) := do
  let texts ← Job.inspect fun d => .ok ((usual root).routerMap d, (usual root).snapshot d)
  let first ← writeDoc ((reportsAt root).join routerMapFile) texts.1
  let second ← writeDoc ((reportsAt root).join snapshotFile) texts.2
  return [first, second]

theorem docs_usual (root : Path) :
    (usual root).docs = Job.makeDirectories (reportsAt root) >>= fun _ => writeDocs root :=
  rfl

theorem check_usual (root : Path) (now : Instant) :
    (usual root).check now = Job.inspect (fun d => .ok ((usual root).contractReport now d)) >>= fun report =>
      (Job.makeDirectories (reportsAt root) >>= fun _ =>
        Job.writeText ((reportsAt root).join reportFile) report.markdown >>= fun _ =>
          pure (({} : Layout).reportDir.join reportFile)) >>= fun path => pure (path, report) :=
  rfl

variable {name other : String} {text : String}

theorem confined_writeText (root : Path) (h : IsName name) (text : String) :
    (Job.writeText ((reportsAt root).join ⟨name⟩) text).Confined (reportsAt root) := by
  refine Job.confined_writeText fun home => ?_
  rw [Disk.locate_join_name h]
  exact List.prefix_append ..

theorem confined_writeDoc (root : Path) (h : IsName name) (text : String) :
    (writeDoc ((reportsAt root).join ⟨name⟩) text).Confined (reportsAt root) :=
  Job.confined_bind (confined_writeText root h text) fun _ => Job.confined_pure _

theorem confined_writeDocs (root : Path) : (writeDocs root).Confined (reportsAt root) :=
  Job.confined_bind (Job.confined_inspect _) fun texts =>
    Job.confined_bind (confined_writeDoc root (by decide) texts.1) fun _ =>
      Job.confined_bind (confined_writeDoc root (by decide) texts.2) fun _ => Job.confined_pure _

theorem confined_docs (root : Path) : (usual root).docs.Confined (reportsAt root) :=
  Job.confined_bind (Job.confined_makeDirectories _) fun _ => confined_writeDocs root

/-! ## Either order -/

theorem commutesAt_writeDoc (hdir : d.isDirectory (reportsAt root) = true) (hname : IsName name) (hother : IsName other)
    (hshort : name.utf8ByteSize ≤ Disk.maxNameSize) (hshort' : other.utf8ByteSize ≤ Disk.maxNameSize)
    (hne : name ≠ other) (s t : String) :
    Job.CommutesAt (Job.writeText ((reportsAt root).join ⟨name⟩) s) (writeDoc ((reportsAt root).join ⟨other⟩) t) d := by
  refine .bind_right ?_ fun _ _ => .pure_right _
  refine Job.commutesAt_writeText (Disk.settled_join hdir hname hshort) (Disk.settled_join hdir hother hshort') ?_
  rw [Disk.locate_join_name hname, Disk.locate_join_name hother]
  simpa using hne

/-- The report does not get in the way of the documents. -/
theorem commutesAt_writeReport (hd : d.Grounded root) (hdir : d.isDirectory (reportsAt root) = true) (text : String) :
    Job.CommutesAt (Job.writeText ((reportsAt root).join reportFile) text) (usual root).docs d := by
  have hreport : IsName "REPORT.md" := by decide
  have hidle := Job.makeDirectories_of_isDirectory hdir
  have hgrown := confined_writeText root hreport text d (hd.join_names isName_reportDir)
  rw [docs_usual]
  refine .bind_right (Job.CommutesAt.of_idle hidle ?_).symm fun _ _ => ?_
  · exact Job.makeDirectories_of_isDirectory (hgrown.toGrows.isDirectory_eq hdir)
  · rw [hidle]
    refine .bind_right (.inspect_right ?_) fun texts _ => ?_
    · exact congrArg Except.ok (Prod.ext (routerMap_reported hd hgrown) (snapshot_reported hd hgrown))
    · have hrouterMap : IsName "ROUTER_MAP.md" := by decide
      have hfirst := confined_writeDoc root hrouterMap texts.1 d (hd.join_names isName_reportDir)
      refine .bind_right ?_ fun _ _ => .bind_right ?_ fun _ _ => .pure_right _
      · exact commutesAt_writeDoc hdir hreport hrouterMap (by decide) (by decide) (by decide) text texts.1
      · exact commutesAt_writeDoc (hfirst.toGrows.isDirectory_eq hdir) hreport (by decide) (by decide) (by decide)
          (by decide) text texts.2

theorem commutesAt_check_docs (hd : d.Grounded root) (now : Instant) :
    Job.CommutesAt ((usual root).check now) (usual root).docs d := by
  have hreports : d.Grounded (reportsAt root) := hd.join_names isName_reportDir
  rw [check_usual]
  refine .bind_left (Job.CommutesAt.inspect_right ?_).symm fun report _ =>
    .bind_left (.bind_left ?_ fun _ hmade => .bind_left ?_ fun _ _ => ?_) fun path _ => ?_
  · exact congrArg Except.ok (contractReport_reported hd (confined_docs root d hreports))
  · exact Job.commutesAt_makeDirectories hreports (confined_writeDocs root)
  · have hgrown := Job.confined_makeDirectories (reportsAt root) d hreports
    exact commutesAt_writeReport (hd.mono hgrown.toGrows)
      (Job.isDirectory_of_makeDirectories hmade (text_join_ne (by decide))) report.markdown
  · exact (Job.CommutesAt.pure_right _).symm
  · exact (Job.CommutesAt.pure_right _).symm

/-- Checking and documenting are independent: each has the same result or fault whether the other has run before or
not, and both orders end in the same disk. -/
theorem check_docs_independent (hd : d.Grounded root) (now : Instant) :
    ((usual root).docs ((usual root).check now d).2).1 = ((usual root).docs d).1 ∧
      ((usual root).check now ((usual root).docs d).2).1 = ((usual root).check now d).1 ∧
      ((usual root).docs ((usual root).check now d).2).2 = ((usual root).check now ((usual root).docs d).2).2 := by
  obtain ⟨hcheck, hdocs, hdisk⟩ := commutesAt_check_docs hd now
  exact ⟨hdocs, hcheck, hdisk⟩

/-- A directory that a path can go up from. -/
private def annex : Disk := ((Disk.empty []).makeDirectories ⟨"annex"⟩).1

theorem check_docs_independent_annex :
    annex.Grounded ⟨"annex/.."⟩ ∧
      ((usual ⟨"annex/.."⟩).docs ((usual ⟨"annex/.."⟩).check ⟨0⟩ annex).2).1 = ((usual ⟨"annex/.."⟩).docs annex).1 ∧
      ((usual ⟨"annex/.."⟩).check ⟨0⟩ ((usual ⟨"annex/.."⟩).docs annex).2).1 =
        ((usual ⟨"annex/.."⟩).check ⟨0⟩ annex).1 ∧
      ((usual ⟨"annex/.."⟩).docs ((usual ⟨"annex/.."⟩).check ⟨0⟩ annex).2).2 =
        ((usual ⟨"annex/.."⟩).check ⟨0⟩ ((usual ⟨"annex/.."⟩).docs annex).2).2 := by
  have hground : annex.Grounded ⟨"annex/.."⟩ :=
    Disk.grounded_of_find (by decide +kernel : annex.find ⟨"annex/.."⟩ = .ok ([], .directory))
  exact ⟨hground, check_docs_independent hground ⟨0⟩⟩

theorem exists_check_eq_ok (p : Project) (now : Instant) (d : Disk) (h : (p.check now d).1.toOption.isSome = true) :
    ∃ path, (p.check now d).1 = .ok (path, p.contractReport now d) := by
  rw [check_eq] at h ⊢
  rcases hwrite : p.writeReport (p.contractReport now d) d with ⟨fault | path, e⟩
  · rw [Job.bind_of_error hwrite] at h
    cases h
  · exact ⟨path, by rw [Job.bind_of_ok hwrite]; rfl⟩

/-- A disk with nothing but the contract document. -/
private def solitary : Disk :=
  ((Disk.empty []).write ⟨"CONTRACT.md"⟩ "x".toUTF8).toOption.getD (Disk.empty [])

/-- The root goes up from what documenting makes first, and only then the contract document can be found. -/
theorem check_docs_dependent :
    ((usual ⟨"nope/.."⟩).check ⟨0⟩ ((usual ⟨"nope/.."⟩).docs solitary).2).1 ≠
      ((usual ⟨"nope/.."⟩).check ⟨0⟩ solitary).1 := by
  have hfail : ((usual ⟨"nope/.."⟩).checkResults solitary).countP (·.status == .fail) = 4 := by decide +kernel
  have hfail' : ((usual ⟨"nope/.."⟩).checkResults ((usual ⟨"nope/.."⟩).docs solitary).2).countP
      (·.status == .fail) = 3 := by
    decide +kernel
  obtain ⟨path, hcheck⟩ := exists_check_eq_ok (usual ⟨"nope/.."⟩) ⟨0⟩ solitary (by decide +kernel)
  obtain ⟨path', hcheck'⟩ :=
    exists_check_eq_ok (usual ⟨"nope/.."⟩) ⟨0⟩ ((usual ⟨"nope/.."⟩).docs solitary).2 (by decide +kernel)
  rw [hcheck, hcheck']
  intro hsame
  have hreport := congrArg ContractReport.results (Prod.ext_iff.1 (Except.ok.inj hsame)).2
  have hcount := congrArg (List.countP (·.status == .fail)) hreport
  rw [perm_contractReport.countP_eq, perm_contractReport.countP_eq] at hcount
  exact absurd (hfail'.symm.trans (hcount.trans hfail)) (by decide)

end Project

end DesignTokens
