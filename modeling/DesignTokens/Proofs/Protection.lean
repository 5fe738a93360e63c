import DesignTokens.CommandLine.Run
import DesignTokens.Proofs.Build
import DesignTokens.Proofs.PrunedPath

/-!
# Files written by hand

A command touches files only where the layout puts its outputs, whatever the disk holds and wherever the command stops.
Under the usual layout nothing that is written by hand lies there but the legacy stylesheet, and this one is touched by
pruning in place alone.
-/

namespace DesignTokens

open CommandLine

/-- The files written by hand that the contract is about. -/
def Collaborators.paths (c : Collaborators) : List Path := [c.executor, c.richtext, c.figure, c.siteConfig, c.contract]

namespace Project

variable {p : Project} {home : Location} {touched : Set Location}

/-- The location of a path below the root. -/
def locationOf (p : Project) (home : Location) (path : Path) : Location := Disk.locate home (p.root.join path)

/-! ## What a command touches -/

theorem keepsFiles_emit (h : ∀ path ∈ p.layout.generatedPaths, p.locationOf home path ∈ touched) (sheet : Sheet) :
    (p.emit sheet).KeepsFiles home touched := by
  have hpath : p.layout.generatedPath sheet.layer ∈ p.layout.generatedPaths :=
    List.mem_map_of_mem (Layer.mem_all sheet.layer)
  exact Job.keepsFiles_bind (Job.keepsFiles_writeText (h _ hpath) _) fun _ => Job.keepsFiles_pure _

theorem keepsFiles_build (h : ∀ path ∈ p.layout.generatedPaths, p.locationOf home path ∈ touched) :
    p.build.KeepsFiles home touched := by
  refine Job.keepsFiles_bind (Job.keepsFiles_inspect _) fun document => ?_
  refine Job.keepsFiles_bind (Job.keepsFiles_ofExcept _) fun compiled => ?_
  refine Job.keepsFiles_bind (Job.keepsFiles_makeDirectories _) fun _ => ?_
  exact Job.keepsFiles_bind (Job.keepsFiles_mapM (keepsFiles_emit h) _) fun _ => Job.keepsFiles_pure _

theorem keepsFiles_prune {policy : PrunePolicy}
    (h : ∀ target ∈ p.pruneTarget policy, Disk.locate home target.2 ∈ touched) :
    (p.prune policy).KeepsFiles home touched := by
  refine Job.keepsFiles_bind (Job.keepsFiles_inspect _) fun legacy => ?_
  refine Job.keepsFiles_bind (Job.keepsFiles_inspect _) fun generated => ?_
  cases htarget : p.pruneTarget policy with
  | none => exact Job.keepsFiles_pure _
  | some target =>
      exact Job.keepsFiles_bind (Job.keepsFiles_writeText (h target htarget) _) fun _ => Job.keepsFiles_pure _

theorem below_reportDir {name : String} (h : Path.IsName name) :
    p.locationOf home p.layout.reportDir <+: Disk.locate home ((p.root.join p.layout.reportDir).join ⟨name⟩) := by
  rw [Disk.locate_join_name h]
  exact List.prefix_append ..

theorem keepsFiles_check (h : ∀ loc, p.locationOf home p.layout.reportDir <+: loc → loc ∈ touched) (now : Instant) :
    (p.check now).KeepsFiles home touched := by
  refine Job.keepsFiles_bind (Job.keepsFiles_inspect _) fun report => ?_
  refine Job.keepsFiles_bind ?_ fun _ => Job.keepsFiles_pure _
  refine Job.keepsFiles_bind (Job.keepsFiles_makeDirectories _) fun _ => ?_
  exact Job.keepsFiles_bind (Job.keepsFiles_writeText (h _ (below_reportDir (by decide))) _) fun _ =>
    Job.keepsFiles_pure _

theorem keepsFiles_docs (h : ∀ loc, p.locationOf home p.layout.reportDir <+: loc → loc ∈ touched) :
    p.docs.KeepsFiles home touched := by
  have hdoc : ∀ (name text : String), Path.IsName name →
      (writeDoc ((p.root.join p.layout.reportDir).join ⟨name⟩) text).KeepsFiles home touched := fun name text hname =>
    Job.keepsFiles_bind (Job.keepsFiles_writeText (h _ (below_reportDir hname)) text) fun _ => Job.keepsFiles_pure _
  refine Job.keepsFiles_bind (Job.keepsFiles_makeDirectories _) fun _ => ?_
  refine Job.keepsFiles_bind (Job.keepsFiles_inspect _) fun texts => ?_
  refine Job.keepsFiles_bind (hdoc _ _ (by decide)) fun _ => ?_
  exact Job.keepsFiles_bind (hdoc _ _ (by decide)) fun _ => Job.keepsFiles_pure _

/-! ## Pruning -/

/-- A policy that writes what is left of the legacy stylesheet writes it to its target and reports its own path, or else
changes nothing. -/
theorem prune_of_target {policy : PrunePolicy} {reported target : Path}
    (h : p.pruneTarget policy = some (reported, target)) (d : Disk) :
    (∃ report text generated e, p.prune policy d = (.ok report, e) ∧ report.written = some reported ∧
      d.loadText (p.root.join p.layout.legacyPath) = .ok text ∧ p.generatedText d = .ok generated ∧
      d.Writes target (Legacy.prune text (Classification.ofTexts text generated).covered).toUTF8 e) ∨
      ∃ fault, p.prune policy d = (.error fault, d) := by
  cases htext : d.loadText (p.root.join p.layout.legacyPath) with
  | error fault => exact .inr ⟨fault, Job.bind_of_error (Job.loadText_of_eq htext)⟩
  | ok text =>
      rw [prune, Job.bind_of_ok (Job.loadText_of_eq htext)]
      cases hgenerated : p.generatedText d with
      | error fault => exact .inr ⟨fault, Job.bind_of_error (Job.inspect_of_eq hgenerated)⟩
      | ok generated =>
          rw [Job.bind_of_ok (Job.inspect_of_eq hgenerated), h]
          cases hwrite : d.write target (Legacy.prune text (Classification.ofTexts text generated).covered).toUTF8 with
          | error flaw => exact .inr ⟨_, Job.bind_of_error (Job.writeText_of_error hwrite)⟩
          | ok e =>
              exact .inl ⟨_, text, generated, e, Job.bind_of_ok (Job.writeText_of_ok hwrite), rfl, rfl, rfl,
                Disk.writes_of_write hwrite⟩

/-- Pruning in place writes what is left of the legacy stylesheet in its place, or else changes nothing. -/
theorem prune_inPlace (p : Project) (d : Disk) :
    (∃ report text generated e, p.prune .inPlace d = (.ok report, e) ∧
      d.loadText (p.root.join p.layout.legacyPath) = .ok text ∧ p.generatedText d = .ok generated ∧
      d.Writes (p.root.join p.layout.legacyPath)
        (Legacy.prune text (Classification.ofTexts text generated).covered).toUTF8 e) ∨
      ∃ fault, p.prune .inPlace d = (.error fault, d) := by
  have htarget : p.pruneTarget .inPlace = some (p.layout.legacyPath, p.root.join p.layout.legacyPath) := rfl
  rcases prune_of_target htarget d with ⟨report, text, generated, e, hrun, _, hrest⟩ | hfault
  · exact .inl ⟨report, text, generated, e, hrun, hrest⟩
  · exact .inr hfault

/-- Pruning into a new file puts what is left of the legacy stylesheet where the report says and keeps all else, the
legacy stylesheet too, or else changes nothing. -/
theorem prune_newFile {name : String} (hlegacy : p.layout.legacyPath.isAbsolute = false)
    (hname : p.layout.legacyPath.fileName? = some name) (d : Disk) :
    (∃ report reported text generated e, p.prune .newFile d = (.ok report, e) ∧ report.written = some reported ∧
      d.loadText (p.root.join p.layout.legacyPath) = .ok text ∧ p.generatedText d = .ok generated ∧
      p.locationOf d.home p.layout.legacyPath ≠ p.locationOf d.home reported ∧
      ∀ loc, e.item? loc = if loc = p.locationOf d.home reported then
        some (.file (Legacy.prune text (Classification.ofTexts text generated).covered).toUTF8) else d.item? loc) ∨
      ∃ fault, p.prune .newFile d = (.error fault, d) := by
  have htarget : p.pruneTarget .newFile =
      some (prunedPath p.layout.legacyPath, prunedPath (p.root.join p.layout.legacyPath)) := rfl
  rcases prune_of_target htarget d with
    ⟨report, text, generated, e, hrun, hreported, htext, hgenerated, hwrites⟩ | hfault
  · have hplace : Disk.locate d.home (prunedPath (p.root.join p.layout.legacyPath)) =
        Disk.locate d.home (p.root.join (prunedPath p.layout.legacyPath)) :=
      Disk.locate_prunedPath hlegacy hname
    refine .inl ⟨report, _, text, generated, e, hrun, hreported, htext, hgenerated, ?_, ?_⟩
    · rw [locationOf, locationOf, ← hplace]
      exact (Disk.locate_prunedPath_ne (Path.fileName?_join hlegacy hname)).symm
    · rw [locationOf, ← hplace]
      exact hwrites.item?_eq
  · exact .inr hfault

end Project

/-! ## Runs of commands -/

namespace CommandLine

variable {p : Project} {d : Disk} {home : Location}

/-- Where a command may touch files. -/
def Command.touched (p : Project) (home : Location) : Command → Set Location
  | .build => {loc | ∃ path ∈ p.layout.generatedPaths, loc = p.locationOf home path}
  | .prune policy => {loc | ∃ target ∈ p.pruneTarget policy, loc = Disk.locate home target.2}
  | .check | .docs | .cleanDocs => {loc | p.locationOf home p.layout.reportDir <+: loc}
  | .scanFallbacks | .checkRouter => ∅

theorem Command.notMem_touched_reportOnly {loc : Location} : loc ∉ touched p home (.prune .reportOnly) := by
  simp [touched, Project.pruneTarget]

theorem Command.mem_touched_newFile {loc : Location} :
    loc ∈ touched p home (.prune .newFile) ↔
      loc = Disk.locate home (prunedPath (p.root.join p.layout.legacyPath)) := by
  simp [touched, Project.pruneTarget]

theorem Command.mem_touched_inPlace {loc : Location} :
    loc ∈ touched p home (.prune .inPlace) ↔ loc = p.locationOf home p.layout.legacyPath := by
  simp [touched, Project.pruneTarget, Project.locationOf]

theorem snd_report {α : Type} (context : String) (job : Job α) (good : α → Outcome) (d : Disk) :
    (report context job good d).2 = (job d).2 := by
  rw [report]
  split <;> next h => rw [h]

theorem Command.keepsFiles_run (p : Project) (now : Instant) (command : Command) (d : Disk) :
    d.KeepsFiles (command.touched p d.home) (command.run p now d).2 := by
  cases command with
  | build =>
      have hbuild : p.build.KeepsFiles d.home (touched p d.home .build) :=
        Project.keepsFiles_build fun path hpath => ⟨path, hpath, rfl⟩
      rw [run, snd_report]
      exact hbuild d rfl
  | prune policy =>
      have hprune : (p.prune policy).KeepsFiles d.home (touched p d.home (.prune policy)) :=
        Project.keepsFiles_prune fun target htarget => ⟨target, htarget, rfl⟩
      rw [run, snd_report]
      exact hprune d rfl
  | check =>
      rw [run, snd_report]
      exact Project.keepsFiles_check (fun _ h => h) now d rfl
  | scanFallbacks => exact .refl d ∅
  | checkRouter => exact .refl d ∅
  | docs =>
      rw [run, snd_report]
      exact Project.keepsFiles_docs (fun _ h => h) d rfl
  | cleanDocs =>
      rw [run, snd_report]
      exact Job.keepsFiles_removeDirectory (fun _ h => h) d rfl

/-- The disk after commands that run one after the other, each at its time. -/
def runAll (p : Project) (steps : List (Command × Instant)) (d : Disk) : Disk :=
  steps.foldl (fun d step => (step.1.run p step.2 d).2) d

theorem keepsFiles_runAll {steps : List (Command × Instant)} {touched : Set Location}
    (h : ∀ step ∈ steps, step.1.touched p d.home ⊆ touched) : d.KeepsFiles touched (runAll p steps d) := by
  induction steps generalizing d with
  | nil => exact .refl d touched
  | cons step steps ih =>
      obtain ⟨hstep, hsteps⟩ := List.forall_mem_cons.1 h
      have hfirst := (step.1.keepsFiles_run p step.2 d).mono hstep
      exact hfirst.trans (ih (hfirst.home_eq.symm ▸ hsteps))

end CommandLine

/-! ## The usual layout -/

namespace Project

variable {root : Path} {home : Location}

/-- The project of the usual layout below a root. -/
abbrev usual (root : Path) : Project := ⟨root, {}⟩

/-- Where the outputs of a project go, and the legacy stylesheet. -/
def outputs (p : Project) (home : Location) : Set Location :=
  {loc | (∃ path ∈ p.layout.generatedPaths, loc = p.locationOf home path) ∨
    loc = p.locationOf home (prunedPath p.layout.legacyPath) ∨ loc = p.locationOf home p.layout.legacyPath ∨
    p.locationOf home p.layout.reportDir <+: loc}

theorem locationOf_eq {p : Project} {path : Path} (h : ∀ part ∈ path.parts, Path.IsName part) :
    p.locationOf home path = Disk.locate home p.root ++ path.parts :=
  Disk.locate_join_names h

theorem parts_legacyPath : ({} : Layout).legacyPath.parts = ["src", "assets", "scss", "_tokens--legacy.scss"] := by
  decide

theorem parts_prunedPath :
    (prunedPath ({} : Layout).legacyPath).parts = ["src", "assets", "scss", "_tokens--legacy.pruned.scss"] := by
  decide +kernel

theorem parts_reportDir : ({} : Layout).reportDir.parts = ["_docs", "generated"] := by decide

theorem map_parts_generatedPaths :
    ({} : Layout).generatedPaths.map Path.parts =
      [["src", "assets", "scss", "_tokens--primitives.scss"], ["src", "assets", "scss", "_tokens--semantic.scss"],
        ["src", "assets", "scss", "_tokens--component.scss"]] := by
  decide +kernel

theorem map_parts_handwritten :
    (({} : Layout).tokens :: ({} : Layout).collaborators.paths).map Path.parts =
      [["tokens", "tokens.json"], ["src", "_includes", "layouts", "content-cell.njk"],
        ["src", "_includes", "components", "richtext.njk"], ["src", "_includes", "components", "figure.njk"],
        [".eleventy.js"], ["CONTRACT.md"]] := by
  decide +kernel

theorem isName_legacyPath : ∀ part ∈ ({} : Layout).legacyPath.parts, Path.IsName part := by
  rw [parts_legacyPath]
  decide

theorem isName_prunedPath : ∀ part ∈ (prunedPath ({} : Layout).legacyPath).parts, Path.IsName part := by
  rw [parts_prunedPath]
  decide

theorem isName_reportDir : ∀ part ∈ ({} : Layout).reportDir.parts, Path.IsName part := by
  rw [parts_reportDir]
  decide

theorem isName_generatedPaths : ∀ path ∈ ({} : Layout).generatedPaths, ∀ part ∈ path.parts, Path.IsName part := by
  rw [← List.forall_mem_map (P := fun parts => ∀ part ∈ parts, Path.IsName part), map_parts_generatedPaths]
  decide

theorem fileName?_legacyPath : ({} : Layout).legacyPath.fileName? = some "_tokens--legacy.scss" := by decide +kernel

theorem locate_prunedPath (root : Path) (home : Location) :
    Disk.locate home (prunedPath (root.join ({} : Layout).legacyPath)) =
      (usual root).locationOf home (prunedPath ({} : Layout).legacyPath) :=
  Disk.locate_prunedPath (by decide) fileName?_legacyPath

theorem touched_subset_outputs (root : Path) (home : Location) (command : Command) :
    command.touched (usual root) home ⊆ (usual root).outputs home := by
  cases command with
  | build => exact fun _ h => .inl h
  | prune policy =>
      cases policy with
      | reportOnly => exact fun loc hloc => absurd hloc Command.notMem_touched_reportOnly
      | newFile =>
          intro loc hloc
          rw [Command.mem_touched_newFile, locate_prunedPath] at hloc
          exact .inr (.inl hloc)
      | inPlace => exact fun loc hloc => .inr (.inr (.inl (Command.mem_touched_inPlace.1 hloc)))
  | check => exact fun _ h => .inr (.inr (.inr h))
  | scanFallbacks => exact fun _ h => absurd h id
  | checkRouter => exact fun _ h => absurd h id
  | docs => exact fun _ h => .inr (.inr (.inr h))
  | cleanDocs => exact fun _ h => .inr (.inr (.inr h))

theorem locationOf_ne {p : Project} {path other : Path} (h : ∀ part ∈ path.parts, Path.IsName part)
    (h' : ∀ part ∈ other.parts, Path.IsName part) (hne : path.parts ≠ other.parts) :
    p.locationOf home path ≠ p.locationOf home other := by
  rw [locationOf_eq h, locationOf_eq h']
  exact fun heq => hne (List.append_cancel_left heq)

theorem not_below_reportDir {path : Path} (h : ∀ part ∈ path.parts, Path.IsName part)
    (hnot : ¬({} : Layout).reportDir.parts <+: path.parts) :
    ¬(usual root).locationOf home ({} : Layout).reportDir <+: (usual root).locationOf home path := by
  rw [locationOf_eq h, locationOf_eq isName_reportDir, List.prefix_append_right_inj]
  exact hnot

theorem legacyPath_notMem_touched {command : Command} (h : command ≠ .prune .inPlace) :
    (usual root).locationOf home ({} : Layout).legacyPath ∉ command.touched (usual root) home := by
  have hreports : ¬(usual root).locationOf home ({} : Layout).reportDir <+:
      (usual root).locationOf home ({} : Layout).legacyPath :=
    not_below_reportDir isName_legacyPath (by rw [parts_reportDir, parts_legacyPath]; decide)
  cases command with
  | build =>
      have hne : ({} : Layout).legacyPath.parts ∉ ({} : Layout).generatedPaths.map Path.parts := by
        rw [parts_legacyPath, map_parts_generatedPaths]
        decide
      rintro ⟨path, hpath, heq⟩
      refine locationOf_ne isName_legacyPath (isName_generatedPaths path hpath) (fun hparts => hne ?_) heq
      exact hparts ▸ List.mem_map_of_mem hpath
  | prune policy =>
      cases policy with
      | reportOnly => exact Command.notMem_touched_reportOnly
      | newFile =>
          rw [Command.mem_touched_newFile]
          exact (Disk.locate_prunedPath_ne (Path.fileName?_join (by decide) fileName?_legacyPath)).symm
      | inPlace => exact absurd rfl h
  | check => exact hreports
  | scanFallbacks => exact id
  | checkRouter => exact id
  | docs => exact hreports
  | cleanDocs => exact hreports

theorem notMem_outputs {path : Path} (h : ∀ part ∈ path.parts, Path.IsName part)
    (hgenerated : path.parts ∉ ({} : Layout).generatedPaths.map Path.parts)
    (hpruned : path.parts ≠ (prunedPath ({} : Layout).legacyPath).parts)
    (hlegacy : path.parts ≠ ({} : Layout).legacyPath.parts) (hreports : ¬({} : Layout).reportDir.parts <+: path.parts) :
    (usual root).locationOf home path ∉ (usual root).outputs home := by
  rintro (⟨generated, hmem, heq⟩ | heq | heq | hbelow)
  · refine locationOf_ne h (isName_generatedPaths generated hmem) (fun hparts => hgenerated ?_) heq
    exact hparts ▸ List.mem_map_of_mem hmem
  · exact locationOf_ne h isName_prunedPath hpruned heq
  · exact locationOf_ne h isName_legacyPath hlegacy heq
  · exact not_below_reportDir h hreports hbelow

/-- The token document and the files that the contract is about lie where no output goes. -/
theorem handwritten_notMem_outputs (root : Path) (home : Location) :
    ∀ path ∈ ({} : Layout).tokens :: ({} : Layout).collaborators.paths,
      (usual root).locationOf home path ∉ (usual root).outputs home := by
  have hparts : ∀ parts ∈ (({} : Layout).tokens :: ({} : Layout).collaborators.paths).map Path.parts,
      (∀ part ∈ parts, Path.IsName part) ∧ parts ∉ ({} : Layout).generatedPaths.map Path.parts ∧
        parts ≠ (prunedPath ({} : Layout).legacyPath).parts ∧ parts ≠ ({} : Layout).legacyPath.parts ∧
        ¬({} : Layout).reportDir.parts <+: parts := by
    rw [map_parts_handwritten, map_parts_generatedPaths, parts_prunedPath, parts_legacyPath, parts_reportDir]
    decide
  intro path hpath
  obtain ⟨hnames, hgenerated, hpruned, hlegacy, hreports⟩ := hparts _ (List.mem_map_of_mem hpath)
  exact notMem_outputs hnames hgenerated hpruned hlegacy hreports

end Project

namespace CommandLine

theorem home_runAll (p : Project) (steps : List (Command × Instant)) (d : Disk) : (runAll p steps d).home = d.home :=
  have htouched : ∀ step ∈ steps, step.1.touched p d.home ⊆ Set.univ := fun _ _ _ _ => trivial
  (keepsFiles_runAll htouched).home_eq

/-- One command keeps the legacy stylesheet, unless it prunes in place and succeeds. -/
theorem Command.run_legacy (root : Path) (now : Instant) (command : Command) (d : Disk) :
    let p := Project.usual root
    let legacy := p.locationOf d.home p.layout.legacyPath
    let run := command.run p now d
    (command = .prune .inPlace ∧ run.1.exit = 0 ∧ ∃ text generated,
      d.item? legacy = some (.file text.toUTF8) ∧ p.generatedText d = .ok generated ∧
      run.2.item? legacy = some (.file (Legacy.prune text (Classification.ofTexts text generated).covered).toUTF8)) ∨
    (¬(command = .prune .inPlace ∧ run.1.exit = 0) ∧ d.SameFile legacy run.2) := by
  intro p legacy run
  by_cases hcommand : command = .prune .inPlace
  · subst hcommand
    rcases Project.prune_inPlace p d with
      ⟨report, text, generated, e, hrun, htext, hgenerated, hwrites⟩ | ⟨fault, hrun⟩
    · have hafter : run = (⟨0, report.render, ""⟩, e) := by
        simp only [run, Command.run, CommandLine.report, hrun]
      have hlegacy : legacy = Disk.locate d.home (p.root.join p.layout.legacyPath) := rfl
      refine .inl ⟨rfl, by rw [hafter], text, generated, Disk.loadText_eq_ok htext, hgenerated, ?_⟩
      rw [hafter, hwrites.item?_eq, if_pos hlegacy]
    · have hafter : run = (.fault "prune failed" fault, d) := by
        simp only [run, Command.run, CommandLine.report, hrun]
      refine .inr ⟨fun h => ?_, ?_⟩
      · rw [hafter] at h
        cases h.2
      · rw [hafter]
        exact .of_item?_eq rfl
  · have hlegacy : legacy ∉ command.touched p d.home := Project.legacyPath_notMem_touched hcommand
    exact .inr ⟨fun h => hcommand h.1, (command.keepsFiles_run p now d).sameFile legacy hlegacy⟩

/-- Whatever commands run on a project of the usual layout, in whatever order and with whatever success, files stay as
they are outside the places of its outputs; the token document and the files that the contract is about lie outside.
The legacy stylesheet stays as it is too, but for the runs that prune it in place and succeed: each replaces it by what
pruning leaves of what it was just before. -/
theorem runAll_protects (root : Path) (d : Disk) (steps : List (Command × Instant)) :
    let p := Project.usual root
    let legacy := p.locationOf d.home p.layout.legacyPath
    (∀ loc, loc ∉ p.outputs d.home → d.SameFile loc (runAll p steps d)) ∧
      (∀ path ∈ p.layout.tokens :: p.layout.collaborators.paths, p.locationOf d.home path ∉ p.outputs d.home) ∧
      ((∃ step ∈ steps, step.1 = .prune .inPlace) ∨ d.SameFile legacy (runAll p steps d)) ∧
      ∀ before command now after, steps = before ++ (command, now) :: after →
        let e := runAll p before d
        let run := command.run p now e
        (command = .prune .inPlace ∧ run.1.exit = 0 ∧ ∃ text generated,
          e.item? legacy = some (.file text.toUTF8) ∧ p.generatedText e = .ok generated ∧
          run.2.item? legacy =
            some (.file (Legacy.prune text (Classification.ofTexts text generated).covered).toUTF8)) ∨
        (¬(command = .prune .inPlace ∧ run.1.exit = 0) ∧ e.SameFile legacy run.2) := by
  intro p legacy
  have houtputs : d.KeepsFiles (p.outputs d.home) (runAll p steps d) :=
    keepsFiles_runAll fun step _ => Project.touched_subset_outputs root d.home step.1
  refine ⟨houtputs.sameFile, Project.handwritten_notMem_outputs root d.home, ?_, ?_⟩
  · by_cases hinPlace : ∃ step ∈ steps, step.1 = .prune .inPlace
    · exact .inl hinPlace
    -- Without pruning in place, the legacy stylesheet is one of the locations that no command touches.
    · have hothers : ∀ step ∈ steps, step.1.touched p d.home ⊆ {loc | loc ≠ legacy} := by
        intro step hstep loc hloc heq
        rw [heq] at hloc
        exact Project.legacyPath_notMem_touched (fun hstep' => hinPlace ⟨step, hstep, hstep'⟩) hloc
      exact .inr ((keepsFiles_runAll hothers).sameFile legacy fun hne => hne rfl)
  · intro before command now after _
    have hstep := command.run_legacy root now (runAll p before d)
    rw [home_runAll] at hstep
    exact hstep

end CommandLine

end DesignTokens
