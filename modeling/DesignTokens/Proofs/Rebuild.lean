import DesignTokens.Proofs.Growth
import DesignTokens.Proofs.Lexemes
import DesignTokens.Proofs.Protection
import DesignTokens.Proofs.Stylesheet

/-!
# Building again

A layout may put several stylesheets into one file, or one in the place of the token document. Whatever it does, the
last stylesheet that is written to a file stays there; and a build that left its document alone can be repeated and
then changes nothing.
-/

namespace DesignTokens

/-! ## What is left of several writes -/

namespace Disk

variable {d e f : Disk} {p : Path} {loc : Location} {bytes : ByteArray} {files : List (Path × ByteArray)}

theorem WritesAll.grows (h : d.WritesAll files e) : d.Grows e := by
  induction h with
  | nil => exact .refl _
  | cons first _ ih => exact first.grows.trans ih

/-- Each location has what was written there last, or else what was there before. -/
theorem WritesAll.item?_eq (h : d.WritesAll files e) (loc : Location) :
    e.item? loc = ((files.reverse.find? fun file => locate d.home file.1 == loc).map fun file => .file file.2).or
      (d.item? loc) := by
  induction h with
  | nil => rfl
  | @cons d e f p bytes files first _ ih =>
      rw [ih, first.item?_eq, first.home_eq, List.reverse_cons, List.find?_append]
      cases files.reverse.find? fun file => locate d.home file.1 == loc with
      | some file => rfl
      | none =>
          by_cases hloc : locate d.home p = loc
          · simp [hloc]
          · simp [hloc, Ne.symm hloc]

theorem WritesAll.item?_of_forall_ne (h : d.WritesAll files e) (hne : ∀ file ∈ files, locate d.home file.1 ≠ loc) :
    e.item? loc = d.item? loc := by
  have hnone : (files.reverse.find? fun file => locate d.home file.1 == loc) = none :=
    List.find?_eq_none.2 fun file hfile hloc => hne file (List.mem_reverse.1 hfile) (beq_iff_eq.1 hloc)
  rw [h.item?_eq, hnone]
  rfl

theorem WritesAll.item?_of_last {before after : List (Path × ByteArray)} {last : Path × ByteArray}
    (h : d.WritesAll (before ++ last :: after) e) (hlast : locate d.home last.1 = loc)
    (hafter : ∀ later ∈ after, locate d.home later.1 ≠ loc) : e.item? loc = some (.file last.2) := by
  have hfind : ((before ++ last :: after).reverse.find? fun file => locate d.home file.1 == loc) = some last := by
    refine List.find?_eq_some_iff_append.2 ⟨beq_iff_eq.2 hlast, after.reverse, before.reverse, by simp, ?_⟩
    intro later hlater
    rw [beq_eq_false_iff_ne.2 (hafter later (List.mem_reverse.1 hlater))]
    rfl
  rw [h.item?_eq, hfind]
  rfl

theorem WritesAll.item?_ne_directory (h : d.WritesAll files e) (hloc : d.item? loc ≠ some .directory) :
    e.item? loc ≠ some .directory := by
  rw [h.item?_eq]
  cases files.reverse.find? fun file => locate d.home file.1 == loc with
  | none => simpa using hloc
  | some file => simp

/-- Writing the same files once more changes nothing. -/
theorem WritesAll.eq_of_again (h : d.WritesAll files e) (h' : e.WritesAll files f) : f = e := by
  have hhome := h.grows.home_eq
  refine ext_item? h'.grows.home_eq fun loc => ?_
  rw [h'.item?_eq, h.item?_eq, hhome]
  cases files.reverse.find? fun file => locate d.home file.1 == loc <;> rfl

theorem fromUTF8?_toUTF8 (s : String) : String.fromUTF8? s.toUTF8 = some s :=
  dif_pos s.isValidUTF8

theorem loadText_eq_ok_iff {s : String} : d.loadText p = .ok s ↔ d.read p = .ok s.toUTF8 := by
  constructor
  · intro h
    have hitem := loadText_eq_ok h
    cases hread : d.read p with
    | error flaw =>
        rw [loadText, readText, hread] at h
        cases h
    | ok bytes =>
        rw [read_eq_ok hread] at hitem
        cases hitem
        rfl
  · intro h
    rw [loadText, readText, h]
    simp only [bind, Except.bind, fromUTF8?_toUTF8]
    rfl

theorem loadText_congr (h : e.read p = d.read p) : e.loadText p = d.loadText p := by
  rw [loadText, loadText, readText, readText, h]

end Disk

/-! ## Stylesheets as texts -/

/-- The first letter of what a stylesheet says about its layer. -/
private def Layer.initial : Layer → Char
  | primitives => 'P'
  | semantic => 'S'
  | component => 'C'

namespace Sheet

theorem exists_toList_render (layer : Layer) (fileLabel sourceLabel : String) (vars : List Variable) :
    ∃ t, (render layer fileLabel sourceLabel vars).toList =
      (textOf ["/* ----------------------------------", " * " ++ fileLabel] ++ " * ".toList) ++ layer.initial :: t := by
  rw [toList_render, headerLines]
  simp only [textOf_append, List.append_assoc]
  cases layer <;> exact ⟨_, rfl⟩

/-- Stylesheets of different layers differ, also where they bear one name. -/
theorem layer_eq_of_render_eq {layer layer' : Layer} {fileLabel sourceLabel sourceLabel' : String}
    {vars vars' : List Variable}
    (h : render layer fileLabel sourceLabel vars = render layer' fileLabel sourceLabel' vars') : layer = layer' := by
  obtain ⟨t, ht⟩ := exists_toList_render layer fileLabel sourceLabel vars
  obtain ⟨t', ht'⟩ := exists_toList_render layer' fileLabel sourceLabel' vars'
  rw [h, ht'] at ht
  have hinitial := (List.cons.inj (List.append_cancel_left ht)).1
  cases layer <;> cases layer' <;> first | rfl | cases hinitial

end Sheet

theorem Json.read_slash {s : String} {t : List Char} (h : s.toList = '/' :: t) : read s = .error .malformed := by
  have hvalue : ∀ size, value size maxDepth ('/' :: t) = .error .malformed := by
    intro size
    rw [maxDepth, value, Reader.bind_of_ok (peek_cons rfl t)]
    rfl
  simp only [read, whole, h, bind, StateT.bind, Except.bind, hvalue]

theorem Sheet.readDocument_render (layer : Layer) (fileLabel sourceLabel : String) (vars : List Variable) :
    readDocument (render layer fileLabel sourceLabel vars) = .error (.json .malformed) := by
  obtain ⟨t, ht⟩ := exists_toList_render layer fileLabel sourceLabel vars
  rw [textOf_cons] at ht
  rw [readDocument, Json.read_slash ht]
  rfl

namespace Project

variable {p : Project} {d e m : Disk} {home : Location} {sheet : Sheet} {sheets : List Sheet} {layer last : Layer}
  {digest : String} {summary : BuildSummary}

/-! ## Where the stylesheets go -/

/-- Where the stylesheet of a layer goes. -/
def generatedLocation (p : Project) (home : Location) (layer : Layer) : Location :=
  p.locationOf home (p.layout.generatedPath layer)

/-- Of the layers whose stylesheets go to the place of `layer`, the last one is `last`. -/
def IsLastAt (p : Project) (home : Location) (layer last : Layer) : Prop :=
  ∃ before after, Layer.all = before ++ last :: after ∧
    p.generatedLocation home last = p.generatedLocation home layer ∧
    ∀ later ∈ after, p.generatedLocation home later ≠ p.generatedLocation home layer

/-- No stylesheet goes to the place of the token document. -/
def Spares (p : Project) (home : Location) : Prop :=
  ∀ layer, p.generatedLocation home layer ≠ p.locationOf home p.layout.tokens

theorem exists_last_at (hlayers : sheets.map Sheet.layer = Layer.all) (loc : Location)
    (h : ∃ layer, p.generatedLocation home layer = loc) :
    ∃ before last after, sheets = before ++ last :: after ∧ p.generatedLocation home last.layer = loc ∧
      ∀ later ∈ after, p.generatedLocation home later.layer ≠ loc := by
  obtain ⟨layer, hlayer⟩ := h
  obtain ⟨sheet, hsheet, rfl⟩ : ∃ sheet ∈ sheets, sheet.layer = layer :=
    List.mem_map.1 (hlayers ▸ Layer.mem_all layer)
  cases hlast : sheets.reverse.find? fun sheet => p.generatedLocation home sheet.layer == loc with
  | none =>
      have hnone := List.find?_eq_none.1 hlast sheet (List.mem_reverse.2 hsheet)
      exact absurd (beq_iff_eq.2 hlayer) hnone
  | some last =>
      obtain ⟨hloc, after, before, hsplit, hafter⟩ := List.find?_eq_some_iff_append.1 hlast
      refine ⟨before.reverse, last, after.reverse, ?_, beq_iff_eq.1 hloc, fun later hlater heq => ?_⟩
      · rw [← List.reverse_reverse sheets, hsplit]
        simp
      · have hne := hafter later (List.mem_reverse.1 hlater)
        rw [heq, beq_self_eq_true] at hne
        cases hne

theorem spares_usual (root : Path) (home : Location) : (usual root).Spares home := by
  intro layer heq
  have hmem : ({} : Layout).generatedPath layer ∈ ({} : Layout).generatedPaths :=
    List.mem_map_of_mem (Layer.mem_all layer)
  have htokens : (usual root).locationOf home ({} : Layout).tokens ∉ (usual root).outputs home :=
    handwritten_notMem_outputs root home _ List.mem_cons_self
  exact htokens (.inl ⟨_, hmem, heq.symm⟩)

/-! ## Writing the stylesheets again -/

theorem mapM_emit_eq_ok {files : List EmittedFile} (h : sheets.mapM p.emit d = (.ok files, e)) :
    files = sheets.map p.emitted ∧ d.WritesAll (sheets.map p.sheetFile) e := by
  rcases exists_mapM_emit p sheets d with ⟨e', heq, hall⟩ | ⟨_, _, _, _, _, _, heq, _⟩
  · cases h.symm.trans heq
    exact ⟨rfl, hall⟩
  · cases h.symm.trans heq

theorem emit_eq_ok {file : EmittedFile} (h : p.emit sheet d = (.ok file, e)) :
    d.write (p.sheetPath sheet) sheet.contents.toUTF8 = .ok e := by
  obtain ⟨_, m, hwrite, hfile⟩ := Job.bind_eq_ok_iff.1 h
  cases hfile
  exact Job.writeText_eq_ok_iff.1 hwrite

theorem writable_of_mapM_emit {files : List EmittedFile} (h : sheets.mapM p.emit d = (.ok files, e)) :
    ∀ sheet ∈ sheets, ∃ dir name, e.Writable (p.sheetPath sheet) dir name := by
  induction sheets generalizing d files with
  | nil => simp
  | cons first sheets ih =>
      rw [List.mapM_cons, Job.bind_eq_ok_iff] at h
      obtain ⟨_, m, hemit, h⟩ := h
      obtain ⟨others, _, hothers, h⟩ := Job.bind_eq_ok_iff.1 h
      cases h
      -- The later writes keep all directories and put none at the place of the first stylesheet.
      have hwrite := emit_eq_ok hemit
      have hfirst := Disk.writes_of_write hwrite
      have hrest := (mapM_emit_eq_ok hothers).2
      have hgrows := hfirst.grows.trans hrest.grows
      have hitem : e.item? (Disk.locate e.home (p.sheetPath first)) ≠ some .directory := by
        refine hrest.item?_ne_directory ?_
        rw [hgrows.locate_eq, hfirst.item?_eq, if_pos rfl]
        exact fun hfile => nomatch hfile
      obtain ⟨dir, name, hwritable⟩ := Disk.exists_writable_of_write hwrite
      exact List.forall_mem_cons.2 ⟨⟨dir, name, hwritable.mono hgrows hitem⟩, ih hothers⟩

theorem exists_mapM_emit_of_writable (h : ∀ sheet ∈ sheets, ∃ dir name, d.Writable (p.sheetPath sheet) dir name) :
    ∃ e, sheets.mapM p.emit d = (.ok (sheets.map p.emitted), e) ∧ d.WritesAll (sheets.map p.sheetFile) e := by
  refine (exists_mapM_emit p sheets d).resolve_right ?_
  rintro ⟨done, sheet, rest, flaw, e, rfl, _, hall, hflaw⟩
  obtain ⟨dir, name, hwritable⟩ := h sheet (by simp)
  have hgrows := hall.grows
  have hitem : e.item? (Disk.locate e.home (p.sheetPath sheet)) ≠ some .directory := by
    rw [hgrows.locate_eq]
    exact hall.item?_ne_directory hwritable.not_directory
  obtain ⟨f, hwrite⟩ := (hwritable.mono hgrows hitem).exists_write sheet.contents.toUTF8
  rw [hwrite] at hflaw
  cases hflaw

/-! ## Building again -/

/-- The steps of a build that succeeds. -/
structure Builds (p : Project) (d : Disk) (digest : String) (sheets : List Sheet) (m e : Disk) : Prop where
  prepared_eq : p.prepared d = .ok (digest, sheets)
  made : d.makeDirectories p.outDir = (m, .ok ())
  emitted_eq : sheets.mapM p.emit m = (.ok (sheets.map p.emitted), e)

namespace Builds

theorem build_eq (h : p.Builds d digest sheets m e) :
    p.build d = (.ok ⟨engineVersion, digest, sheets.map p.emitted⟩, e) := by
  rw [build_of_prepared_ok h.prepared_eq, Job.bind_of_ok (Job.makeDirectories_eq_ok_iff.2 h.made)]
  exact Job.bind_of_ok h.emitted_eq

theorem writesAll (h : p.Builds d digest sheets m e) : m.WritesAll (sheets.map p.sheetFile) e :=
  (mapM_emit_eq_ok h.emitted_eq).2

theorem addsDirectories (h : p.Builds d digest sheets m e) : d.AddsDirectories p.outDir.ancestors m := by
  have hadds := Disk.addsDirectories_makeFirst p.outDir.ancestors d
  rwa [← Disk.makeDirectories, h.made] at hadds

theorem grows (h : p.Builds d digest sheets m e) : d.Grows e := h.addsDirectories.grows.trans h.writesAll.grows

theorem layers_eq (h : p.Builds d digest sheets m e) : sheets.map Sheet.layer = Layer.all :=
  map_layer_of_prepared_ok h.prepared_eq

theorem generatedLocation_eq (h : p.Builds d digest sheets m e) (sheet : Sheet) :
    p.generatedLocation d.home sheet.layer = Disk.locate m.home (p.sheetFile sheet).1 := by
  rw [h.addsDirectories.home_eq]
  rfl

/-- The last stylesheet that goes to a place stays there. -/
theorem exists_item?_eq (h : p.Builds d digest sheets m e) {loc : Location}
    (hloc : ∃ layer, p.generatedLocation d.home layer = loc) :
    ∃ before last after, sheets = before ++ last :: after ∧ p.generatedLocation d.home last.layer = loc ∧
      (∀ later ∈ after, p.generatedLocation d.home later.layer ≠ loc) ∧
      e.item? loc = some (.file last.contents.toUTF8) := by
  obtain ⟨before, last, after, rfl, hlast, hafter⟩ := exists_last_at h.layers_eq loc hloc
  refine ⟨before, last, after, rfl, hlast, hafter, ?_⟩
  have hall := h.writesAll
  rw [List.map_append, List.map_cons] at hall
  refine hall.item?_of_last ((h.generatedLocation_eq last).symm.trans hlast) ?_
  rw [List.forall_mem_map]
  exact fun later hlater => h.generatedLocation_eq later ▸ hafter later hlater

theorem leads_sheetPath (h : p.Builds d digest sheets m e) (hsheet : sheet ∈ sheets) : e.Leads (p.sheetPath sheet) := by
  obtain ⟨_, _, hwritable⟩ := writable_of_mapM_emit h.emitted_eq sheet hsheet
  exact hwritable.leads

theorem exists_read_sheetPath (h : p.Builds d digest sheets m e) (hsheet : sheet ∈ sheets) :
    ∃ last ∈ sheets, p.IsLastAt d.home sheet.layer last.layer ∧
      e.read (p.sheetPath sheet) = .ok last.contents.toUTF8 := by
  obtain ⟨before, last, after, rfl, hlast, hafter, hitem⟩ := h.exists_item?_eq ⟨sheet.layer, rfl⟩
  refine ⟨last, by simp, ⟨before.map Sheet.layer, after.map Sheet.layer, ?_, hlast, ?_⟩, ?_⟩
  · rw [← h.layers_eq, List.map_append, List.map_cons]
  · rw [List.forall_mem_map]
    exact hafter
  · refine (h.leads_sheetPath hsheet).read_eq ?_
    rw [h.grows.locate_eq]
    exact hitem

/-! ### The token document -/

theorem exists_read_tokens (h : p.Builds d digest sheets m e) :
    ∃ text, d.read (p.root.join p.layout.tokens) = .ok text ∧ e.Leads (p.root.join p.layout.tokens) := by
  obtain ⟨text, _, _, htext, _⟩ := prepared_eq_ok_iff.1 h.prepared_eq
  have hread := Disk.loadText_eq_ok_iff.1 htext
  exact ⟨_, hread, (Disk.leads_of_read hread).mono h.grows⟩

theorem read_tokens_of_spares (h : p.Builds d digest sheets m e) (hspares : p.Spares d.home) :
    e.read (p.root.join p.layout.tokens) = d.read (p.root.join p.layout.tokens) := by
  obtain ⟨text, hread, hleads⟩ := h.exists_read_tokens
  have hkept : e.item? (p.locationOf d.home p.layout.tokens) = m.item? (p.locationOf d.home p.layout.tokens) := by
    refine h.writesAll.item?_of_forall_ne ?_
    rw [List.forall_mem_map]
    exact fun sheet _ => h.generatedLocation_eq sheet ▸ hspares sheet.layer
  rw [hread]
  refine hleads.read_eq ?_
  rw [h.grows.locate_eq]
  exact hkept.trans ((h.addsDirectories.file_iff).2 (Disk.read_eq_ok hread))

theorem again (h : p.Builds d digest sheets m e) (hspares : p.Spares d.home) : p.Builds e digest sheets e e := by
  have hprepared : p.prepared e = p.prepared d := by
    rw [prepared, prepared, Disk.loadText_congr (h.read_tokens_of_spares hspares)]
  obtain ⟨f, hemitted, hall⟩ := exists_mapM_emit_of_writable (writable_of_mapM_emit h.emitted_eq)
  cases h.writesAll.eq_of_again hall
  exact ⟨hprepared.trans h.prepared_eq, Disk.makeDirectories_again h.made h.writesAll.grows, hemitted⟩

theorem contents_eq (h : p.Builds d digest sheets m e) (hsheet : sheet ∈ sheets) :
    sheet.contents =
      Sheet.render sheet.layer (p.layout.generatedFile sheet.layer) p.layout.tokens.text sheet.vars := by
  obtain ⟨_, _, _, _, _, _, hcompile, _⟩ := prepared_eq_ok_iff.1 h.prepared_eq
  exact (Graph.compiles_of_mem hcompile hsheet).contents_eq

theorem build_spoiled (h : p.Builds d digest sheets m e) (hspares : ¬p.Spares d.home) :
    e.read (p.root.join p.layout.tokens) ≠ d.read (p.root.join p.layout.tokens) ∧
      p.build e = (.error (.json .malformed), e) := by
  obtain ⟨layer, hlayer⟩ := not_forall_not.1 hspares
  obtain ⟨before, last, after, rfl, _, _, hitem⟩ := h.exists_item?_eq ⟨layer, hlayer⟩
  obtain ⟨_, _, hleads⟩ := h.exists_read_tokens
  have hload : e.loadText (p.root.join p.layout.tokens) = .ok last.contents := by
    refine Disk.loadText_eq_ok_iff.2 (hleads.read_eq ?_)
    rw [h.grows.locate_eq]
    exact hitem
  have hdocument : readDocument last.contents = .error (.json .malformed) := by
    rw [h.contents_eq (by simp), Sheet.readDocument_render]
  refine ⟨fun hsame => ?_, build_of_prepared_error ?_⟩
  · obtain ⟨document, json, _, hbefore, hjson, _⟩ := prepared_eq_ok_iff.1 h.prepared_eq
    rw [← Disk.loadText_congr hsame, hload] at hbefore
    cases hbefore
    rw [hdocument] at hjson
    cases hjson
  · rw [prepared, hload]
    change p.compiled last.contents = _
    rw [compiled, hdocument]
    rfl

end Builds

theorem build_eq_ok_iff : p.build d = (.ok summary, e) ↔
    ∃ digest sheets m, p.Builds d digest sheets m e ∧ summary = ⟨engineVersion, digest, sheets.map p.emitted⟩ := by
  constructor
  · intro h
    obtain ⟨document, _, hread, h⟩ := Job.bind_eq_ok_iff.1 h
    obtain ⟨hload, rfl⟩ := Prod.mk.inj hread
    obtain ⟨⟨digest, sheets⟩, _, hpure, h⟩ := Job.bind_eq_ok_iff.1 h
    obtain ⟨hcompiled, rfl⟩ := Prod.mk.inj hpure
    obtain ⟨_, m, hmade, h⟩ := Job.bind_eq_ok_iff.1 h
    obtain ⟨files, _, hemitted, h⟩ := Job.bind_eq_ok_iff.1 h
    cases h
    obtain ⟨rfl, _⟩ := mapM_emit_eq_ok hemitted
    have hprepared : p.prepared d = .ok (digest, sheets) := bind_eq_ok_iff.2 ⟨document, hload, hcompiled⟩
    exact ⟨digest, sheets, m, ⟨hprepared, Job.makeDirectories_eq_ok_iff.1 hmade, hemitted⟩, rfl⟩
  · rintro ⟨digest, sheets, m, h, rfl⟩
    exact h.build_eq

/-- A build that succeeds tells the name, the number of variables and the digest of each stylesheet; and what is then
in the place of a stylesheet is the last one that goes there. If none goes to the place of the token document, this is
as it was, and building again does the same and changes nothing. Otherwise the document is lost, and building again
fails. -/
theorem build_again (h : p.build d = (.ok summary, e)) :
    ∃ json g sheets, d.loadText (p.root.join p.layout.tokens) >>= readDocument = .ok json ∧ Graph.ofJson json = .ok g ∧
      g.compile p.layout.generatedFile p.layout.tokens.text = .ok sheets ∧ sheets.map Sheet.layer = Layer.all ∧
      summary = ⟨engineVersion, documentDigest json, sheets.map p.emitted⟩ ∧
      (∀ sheet ∈ sheets,
        sheet.contents =
          Sheet.render sheet.layer (p.layout.generatedFile sheet.layer) p.layout.tokens.text sheet.vars ∧
        ∃ last ∈ sheets, p.IsLastAt d.home sheet.layer last.layer ∧
          e.read (p.sheetPath sheet) = .ok last.contents.toUTF8) ∧
      (p.Spares d.home →
        e.read (p.root.join p.layout.tokens) = d.read (p.root.join p.layout.tokens) ∧ p.build e = (.ok summary, e)) ∧
      (¬p.Spares d.home →
        e.read (p.root.join p.layout.tokens) ≠ d.read (p.root.join p.layout.tokens) ∧
          p.build e = (.error (.json .malformed), e)) := by
  obtain ⟨_, sheets, m, hbuilds, rfl⟩ := build_eq_ok_iff.1 h
  obtain ⟨document, json, g, hload, hjson, hgraph, hcompile, rfl⟩ := prepared_eq_ok_iff.1 hbuilds.prepared_eq
  refine ⟨json, g, sheets, ?_, hgraph, hcompile, hbuilds.layers_eq, rfl, ?_, ?_, hbuilds.build_spoiled⟩
  · rw [hload]
    exact hjson
  · exact fun sheet hsheet => ⟨hbuilds.contents_eq hsheet, hbuilds.exists_read_sheetPath hsheet⟩
  · exact fun hspares => ⟨hbuilds.read_tokens_of_spares hspares, (hbuilds.again hspares).build_eq⟩

/-- A document with one token. -/
private def inkText : String :=
  r##"{"primitives":{"ink":{"value":"#000"}},"semantic":{},"component":{}}"##

private def inkDisk : Disk :=
  ((Disk.empty []).put [] "tokens" .directory (by decide) rfl (.inl rfl)).put ["tokens"] "tokens.json"
    (.file inkText.toUTF8) (by decide) (by decide) (.inr (by decide))

private def inkValue : Json := (readDocument inkText).toOption.get (by decide +kernel)

private def ink : Graph := (Graph.ofJson inkValue).toOption.get (by decide +kernel)

private def inkVars : Layer → List Variable
  | .primitives => [⟨"--ink", "#000", "primitives.ink"⟩]
  | _ => []

private def inkSheets (l : Layout) : List Sheet :=
  Layer.all.map fun layer =>
    ⟨layer, inkVars layer, Sheet.render layer (l.generatedFile layer) l.tokens.text (inkVars layer)⟩

private theorem loadText_inkDisk : inkDisk.loadText ⟨"tokens/tokens.json"⟩ = .ok inkText :=
  Disk.loadText_eq_ok_iff.2 (by decide +kernel)

private theorem prepared_ink (htokens : p.root.join p.layout.tokens = ⟨"tokens/tokens.json"⟩) :
    p.prepared inkDisk = .ok (documentDigest inkValue, inkSheets p.layout) := by
  have hedges : ink.edges = .ok [("primitives.ink", [])] := by decide +kernel
  have hcycles : ink.checkCycles = .ok () := by
    rw [Graph.checkCycles_of_edges hedges]
    simp [Reference.findCycle?, Reference.visitAll, Reference.visit_eq, Except.map]
  have hvars : ∀ layer, ink.layerVariables layer = .ok (inkVars layer) ∧
      (Variable.sort (inkVars layer)) = inkVars layer ∧ ((inkVars layer).map Variable.name).Nodup := by
    intro layer
    cases layer <;> decide +kernel
  have hcompiles : ∀ layer, ink.Compiles p.layout.generatedFile p.layout.tokens.text layer
      ⟨layer, inkVars layer,
        Sheet.render layer (p.layout.generatedFile layer) p.layout.tokens.text (inkVars layer)⟩ := fun layer =>
    ⟨rfl, (hvars layer).2.2, rfl, inkVars layer, (hvars layer).1, (hvars layer).2.1.symm⟩
  have hcompile : ink.compile p.layout.generatedFile p.layout.tokens.text = .ok (inkSheets p.layout) :=
    Graph.compile_eq_ok_iff.2 ⟨hcycles, .cons (hcompiles _) (.cons (hcompiles _) (.cons (hcompiles _) .nil))⟩
  have hload : inkDisk.loadText (p.root.join p.layout.tokens) = .ok inkText := htokens ▸ loadText_inkDisk
  exact prepared_eq_ok_iff.2 ⟨inkText, inkValue, ink, hload, eq_ok_get _, eq_ok_get _, hcompile, rfl⟩

private def inkDone (p : Project) : Except Fault (List EmittedFile) × Disk :=
  (inkSheets p.layout).mapM p.emit (inkDisk.makeDirectories p.outDir).1

private theorem builds_ink (htokens : p.root.join p.layout.tokens = ⟨"tokens/tokens.json"⟩)
    (hmade : (inkDisk.makeDirectories p.outDir).2 = .ok ()) (hdone : (inkDone p).1.toBool = true) :
    p.Builds inkDisk (documentDigest inkValue) (inkSheets p.layout) (inkDisk.makeDirectories p.outDir).1
      (inkDone p).2 := by
  refine ⟨prepared_ink htokens, Prod.ext rfl hmade, ?_⟩
  rcases exists_mapM_emit p (inkSheets p.layout) (inkDisk.makeDirectories p.outDir).1 with
    ⟨e, hemitted, _⟩ | ⟨_, _, _, _, _, _, hfault, _⟩
  · rw [inkDone, hemitted]
  · rw [inkDone, hfault] at hdone
    cases hdone

/-- Two stylesheets go to one place, and the third goes to the place of the token document. -/
private def crowded : Project where
  root := ⟨""⟩
  layout :=
    { stylesheetDir := ⟨"tokens"⟩
      primitivesFile := "a.scss"
      semanticFile := "a.scss"
      componentFile := "tokens.json" }

private theorem builds_crowded : crowded.Builds inkDisk (documentDigest inkValue) (inkSheets crowded.layout)
    (inkDisk.makeDirectories crowded.outDir).1 (inkDone crowded).2 :=
  builds_ink (by decide +kernel) (by decide +kernel) (by decide +kernel)

/-- The stylesheet of the primitives and the document are lost. -/
theorem not_build_again_crowded :
    ∃ summary e, crowded.build inkDisk = (.ok summary, e) ∧
      summary.files = (inkSheets crowded.layout).map crowded.emitted ∧
      (∃ sheet ∈ inkSheets crowded.layout, e.read (crowded.sheetPath sheet) ≠ .ok sheet.contents.toUTF8) ∧
      e.read (crowded.root.join crowded.layout.tokens) ≠ inkDisk.read (crowded.root.join crowded.layout.tokens) ∧
      crowded.build e = (.error (.json .malformed), e) := by
  have hspares : ¬crowded.Spares inkDisk.home := fun h => h .component (by decide +kernel)
  have hplace :
      crowded.generatedLocation inkDisk.home .semantic = crowded.generatedLocation inkDisk.home .primitives := by
    decide +kernel
  obtain ⟨sheet, hsheet, hlayer⟩ : ∃ sheet ∈ inkSheets crowded.layout, sheet.layer = .primitives :=
    ⟨_, List.mem_cons_self, rfl⟩
  obtain ⟨htokens, hagain⟩ := builds_crowded.build_spoiled hspares
  refine ⟨_, _, builds_crowded.build_eq, rfl, ⟨sheet, hsheet, fun hown => ?_⟩, htokens, hagain⟩
  obtain ⟨last, hlast, ⟨before, after, hall, hsame, hafter⟩, hread⟩ := builds_crowded.exists_read_sheetPath hsheet
  rw [hread, builds_crowded.contents_eq hlast, builds_crowded.contents_eq hsheet, hlayer] at hown
  rw [hlayer] at hsame hafter
  have hbytes := String.toByteArray_inj.1 (Except.ok.inj hown)
  -- The semantic stylesheet goes to the same place later, and the two differ.
  cases h : last.layer with
  | primitives =>
      rw [h] at hall
      refine hafter .semantic ?_ hplace
      rcases List.append_eq_cons_iff.1 hall.symm with ⟨rfl, hrest⟩ | ⟨before, rfl, hrest⟩
      · cases hrest
        decide
      · have hmem : Layer.primitives ∈ [.semantic, .component] := hrest ▸ List.mem_append_right _ List.mem_cons_self
        exact absurd hmem (by decide)
  | semantic =>
      rw [h] at hbytes
      cases Sheet.layer_eq_of_render_eq hbytes
  | component =>
      rw [h] at hsame
      exact (by decide +kernel : crowded.generatedLocation inkDisk.home .component ≠ _) hsame

private theorem builds_usual : (usual ⟨""⟩).Builds inkDisk (documentDigest inkValue) (inkSheets {})
    (inkDisk.makeDirectories (usual ⟨""⟩).outDir).1 (inkDone (usual ⟨""⟩)).2 :=
  builds_ink (by decide +kernel) (by decide +kernel) (by decide +kernel)

theorem build_again_ink :
    ∃ summary e, (usual ⟨""⟩).build inkDisk = (.ok summary, e) ∧ (usual ⟨""⟩).build e = (.ok summary, e) := by
  have hbuild := builds_usual.build_eq
  obtain ⟨_, _, _, _, _, _, _, _, _, hspared, _⟩ := build_again hbuild
  exact ⟨_, _, hbuild, (hspared (spares_usual ⟨""⟩ inkDisk.home)).2⟩

end Project

end DesignTokens
