import DesignTokens.Project.Build
import DesignTokens.Proofs.Compile
import DesignTokens.Proofs.Jobs

/-!
# All or nothing

A build changes nothing before all its stylesheets are compiled. From then on the disk alone can stop it, and it stops
between two changes: what is on the disk then are the first few stylesheets, each of them whole.
-/

namespace DesignTokens

/-- `e` is `d` after whole files were written, one after the other. -/
inductive Disk.WritesAll : Disk → List (Path × ByteArray) → Disk → Prop
  | nil {d : Disk} : WritesAll d [] d
  | cons {d e f : Disk} {p : Path} {bytes : ByteArray} {files : List (Path × ByteArray)} (first : d.Writes p bytes e)
      (rest : WritesAll e files f) : WritesAll d ((p, bytes) :: files) f

namespace Project

variable {p : Project} {d e : Disk} {sheet : Sheet} {sheets : List Sheet}

/-! ## Writing the stylesheets -/

/-- The path that a stylesheet is written to. -/
def sheetPath (p : Project) (sheet : Sheet) : Path := p.root.join (p.layout.generatedPath sheet.layer)

/-- A stylesheet as a file. -/
def sheetFile (p : Project) (sheet : Sheet) : Path × ByteArray := (p.sheetPath sheet, sheet.contents.toUTF8)

/-- What is told of a stylesheet that was written. -/
def emitted (p : Project) (sheet : Sheet) : EmittedFile :=
  ⟨sheet.layer, p.layout.generatedPath sheet.layer, sheet.vars.length, Digest.ofText sheet.contents⟩

theorem emit_of_ok (h : d.write (p.sheetPath sheet) sheet.contents.toUTF8 = .ok e) :
    p.emit sheet d = (.ok (p.emitted sheet), e) :=
  Job.bind_of_ok (Job.writeText_of_ok h)

theorem emit_of_error {flaw : Disk.Flaw} (h : d.write (p.sheetPath sheet) sheet.contents.toUTF8 = .error flaw) :
    p.emit sheet d = (.error (.disk (p.sheetPath sheet) flaw), d) :=
  Job.bind_of_error (Job.writeText_of_error h)

theorem exists_mapM_emit (p : Project) (sheets : List Sheet) (d : Disk) :
    (∃ e, sheets.mapM p.emit d = (.ok (sheets.map p.emitted), e) ∧ d.WritesAll (sheets.map p.sheetFile) e) ∨
      ∃ done sheet rest flaw e, sheets = done ++ sheet :: rest ∧
        sheets.mapM p.emit d = (.error (.disk (p.sheetPath sheet) flaw), e) ∧
        d.WritesAll (done.map p.sheetFile) e ∧
        e.write (p.sheetPath sheet) sheet.contents.toUTF8 = .error flaw := by
  -- Each stylesheet is written to the disk that the ones before it leave.
  induction sheets generalizing d with
  | nil => exact .inl ⟨d, rfl, .nil⟩
  | cons first sheets ih =>
      rw [List.mapM_cons]
      cases hwrite : d.write (p.sheetPath first) first.contents.toUTF8 with
      | error flaw =>
          refine .inr ⟨[], first, sheets, flaw, d, rfl, ?_, .nil, hwrite⟩
          exact Job.bind_of_error (emit_of_error hwrite)
      | ok e =>
          have hfirst : d.Writes (p.sheetPath first) first.contents.toUTF8 e := Disk.writes_of_write hwrite
          rw [Job.bind_of_ok (emit_of_ok hwrite)]
          rcases ih e with ⟨f, hfiles, hall⟩ | ⟨done, sheet, rest, flaw, f, rfl, hfault, hall, hflaw⟩
          · exact .inl ⟨f, Job.bind_of_ok hfiles, .cons hfirst hall⟩
          · exact .inr ⟨first :: done, sheet, rest, flaw, f, rfl, Job.bind_of_error hfault, .cons hfirst hall, hflaw⟩

/-! ## The whole build -/

/-- What a build finds out before it changes anything: the digest of the document, and the stylesheets. -/
def prepared (p : Project) (d : Disk) : Except Fault (String × List Sheet) :=
  d.loadText (p.root.join p.layout.tokens) >>= p.compiled

/-- The directory of the stylesheets. -/
def outDir (p : Project) : Path := p.root.join p.layout.stylesheetDir

theorem build_of_prepared_error {fault : Fault} (h : p.prepared d = .error fault) : p.build d = (.error fault, d) := by
  rcases bind_eq_error_iff.1 h with hload | ⟨document, hload, hcompiled⟩
  · exact Job.bind_of_error (Job.loadText_of_eq hload)
  · rw [build, Job.bind_of_ok (Job.loadText_of_eq hload)]
    exact Job.bind_of_error (Job.ofExcept_of_eq hcompiled)

theorem build_of_prepared_ok {digest : String} (h : p.prepared d = .ok (digest, sheets)) :
    p.build d =
      (Job.makeDirectories p.outDir >>= fun _ => sheets.mapM p.emit >>= fun files =>
        pure ⟨engineVersion, digest, files⟩ : Job BuildSummary) d := by
  obtain ⟨document, hload, hcompiled⟩ := bind_eq_ok_iff.1 h
  rw [build, Job.bind_of_ok (Job.loadText_of_eq hload)]
  exact Job.bind_of_ok (Job.ofExcept_of_eq hcompiled)

theorem prepared_eq_ok_iff {digest : String} : p.prepared d = .ok (digest, sheets) ↔
    ∃ document json g, d.loadText (p.root.join p.layout.tokens) = .ok document ∧ readDocument document = .ok json ∧
      Graph.ofJson json = .ok g ∧ g.compile p.layout.generatedFile p.layout.tokens.text = .ok sheets ∧
      digest = documentDigest json := by
  constructor
  · intro h
    obtain ⟨document, hload, hcompiled⟩ := bind_eq_ok_iff.1 h
    obtain ⟨json, hjson, hcompiled⟩ := bind_eq_ok_iff.1 hcompiled
    obtain ⟨g, hgraph, hcompiled⟩ := bind_eq_ok_iff.1 hcompiled
    obtain ⟨_, hcompile, hpair⟩ := bind_eq_ok_iff.1 hcompiled
    cases hpair
    exact ⟨document, json, g, hload, hjson, hgraph, hcompile, rfl⟩
  · rintro ⟨document, json, g, hload, hjson, hgraph, hcompile, rfl⟩
    simp only [prepared, compiled, hload, hjson, hgraph, hcompile, bind, Except.bind]
    rfl

theorem map_layer_of_prepared_ok {digest : String} (h : p.prepared d = .ok (digest, sheets)) :
    sheets.map Sheet.layer = Layer.all := by
  obtain ⟨_, _, _, _, _, _, hcompile, _⟩ := prepared_eq_ok_iff.1 h
  exact Graph.map_layer_of_compile hcompile

/-- A build that cannot prepare its stylesheets leaves the disk as it was. Otherwise it adds at most the directories on
the way to the stylesheets and then writes these in the order of the layers: all of them if it succeeds, and if it
fails only those before the one that could not be written, or none where the directory could not be made. -/
theorem build_allOrNothing (p : Project) (d : Disk) :
    match p.prepared d with
    | .error fault => p.build d = (.error fault, d)
    | .ok (_, sheets) =>
        sheets.map Sheet.layer = Layer.all ∧
        ∃ e done rest, sheets = done ++ rest ∧ d.AddsDirectories p.outDir.ancestors e ∧
          e.WritesAll (done.map p.sheetFile) (p.build d).2 ∧
          ((rest = [] ∧ ∃ summary, (p.build d).1 = .ok summary) ∨
            (rest ≠ [] ∧ done = [] ∧ ∃ flaw, (p.build d).1 = .error (.disk p.outDir flaw)) ∨
            ∃ sheet more flaw, rest = sheet :: more ∧ (p.build d).1 = .error (.disk (p.sheetPath sheet) flaw) ∧
              (p.build d).2.write (p.sheetPath sheet) sheet.contents.toUTF8 = .error flaw) := by
  cases hprepared : p.prepared d with
  | error fault => exact build_of_prepared_error hprepared
  | ok prepared =>
      obtain ⟨digest, sheets⟩ := prepared
      have hlayers := map_layer_of_prepared_ok hprepared
      have hadds : d.AddsDirectories p.outDir.ancestors (d.makeDirectories p.outDir).1 :=
        Disk.addsDirectories_makeFirst _ d
      refine ⟨hlayers, (d.makeDirectories p.outDir).1, ?_⟩
      rw [build_of_prepared_ok hprepared]
      cases hmade : (d.makeDirectories p.outDir).2 with
      | error flaw =>
          have hne : sheets ≠ [] := by
            rintro rfl
            cases hlayers
          rw [Job.bind_of_error (Job.makeDirectories_of_eq hmade)]
          exact ⟨[], sheets, rfl, hadds, .nil, .inr (.inl ⟨hne, rfl, flaw, rfl⟩)⟩
      | ok _ =>
          rw [Job.bind_of_ok (Job.makeDirectories_of_eq hmade)]
          rcases exists_mapM_emit p sheets (d.makeDirectories p.outDir).1 with
            ⟨f, hfiles, hall⟩ | ⟨done, sheet, rest, flaw, f, hsplit, hfault, hall, hflaw⟩
          · rw [Job.bind_of_ok hfiles]
            exact ⟨sheets, [], (List.append_nil _).symm, hadds, hall, .inl ⟨rfl, _, rfl⟩⟩
          · rw [Job.bind_of_error hfault]
            exact ⟨done, sheet :: rest, hsplit, hadds, hall, .inr (.inr ⟨sheet, rest, flaw, rfl, rfl, hflaw⟩)⟩

end Project

end DesignTokens
