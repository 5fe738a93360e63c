import DesignTokens.Layout.Basic
import DesignTokens.Proofs.Stylesheet
import Mathlib.Data.List.Perm.Basic

/-!
# One line for each variable

A stylesheet is put together line by line, but the values of its variables are not looked into. It has one line for each
variable if no value breaks its line, and declares each variable once and nothing else if no value declares something
behind a semicolon.
-/

namespace DesignTokens

namespace Text

theorem fieldsOf_joinWith_iff {sep : Char} {lines : List String} (hne : lines ≠ []) :
    fieldsOf sep (joinWith sep lines) = lines ↔ ∀ line ∈ lines, sep ∉ line.toList := by
  constructor
  · intro h line hline
    rw [← h] at hline
    obtain ⟨f, hf, rfl⟩ := List.mem_map.1 hline
    rw [String.toList_ofList]
    exact notMem_of_mem_fields hf
  · intro h
    have hjoin : fields sep (join [sep] (lines.map String.toList)) = lines.map String.toList :=
      fields_join (by simpa using hne) (List.forall_mem_map.2 h)
    rw [fieldsOf, joinWith, String.toList_ofList, hjoin]
    simp [Function.comp_def]

end Text

namespace Sheet

open Declaration

/-! ## Lines -/

/-- The lines of a stylesheet: the header up to the one that opens the block, a line for each variable, the one that
closes the block, and an empty one. -/
def lines (layer : Layer) (fileLabel sourceLabel : String) (vars : List Variable) : List String :=
  headerLines layer fileLabel sourceLabel ++ vars.map declarationLine ++ [r"}", ""]

section Render

variable {layer : Layer} {fileLabel sourceLabel : String} {vars : List Variable}

theorem newline_notMem_headerLines (hfile : '\n' ∉ fileLabel.toList) (hsource : '\n' ∉ sourceLabel.toList) :
    ∀ line ∈ headerLines layer fileLabel sourceLabel, '\n' ∉ line.toList := by
  have hheadings : ∀ heading ∈ layer.headings, '\n' ∉ heading.toList := by
    cases layer <;> decide +kernel
  simp only [headerLines, List.forall_mem_append, List.forall_mem_cons, List.forall_mem_map, List.not_mem_nil]
  simpa [hfile, hsource] using hheadings

theorem newline_notMem_declarationLine {v : Variable} (hname : Name.IsProper v.name) :
    '\n' ∉ (declarationLine v).toList ↔ '\n' ∉ v.value.toList := by
  obtain ⟨stem, hstem, _, hlegal⟩ := hname
  have hbreak : '\n' ∉ stem := fun hm => absurd (hlegal _ hm) (by decide)
  simp [declarationLine, hstem, hbreak]

/-- Split at its line breaks, a stylesheet has its lines if and only if no value has a line break. -/
theorem fieldsOf_render_iff (hfile : '\n' ∉ fileLabel.toList) (hsource : '\n' ∉ sourceLabel.toList)
    (hname : ∀ v ∈ vars, Name.IsProper v.name) :
    Text.fieldsOf '\n' (render layer fileLabel sourceLabel vars) = lines layer fileLabel sourceLabel vars ↔
      ∀ v ∈ vars, '\n' ∉ v.value.toList := by
  have hne : lines layer fileLabel sourceLabel vars ≠ [] := List.append_ne_nil_of_right_ne_nil _ (List.cons_ne_nil _ _)
  have hend : ∀ line ∈ [r"}", ""], '\n' ∉ line.toList := by decide +kernel
  have hvars : (∀ line ∈ vars.map declarationLine, '\n' ∉ line.toList) ↔ ∀ v ∈ vars, '\n' ∉ v.value.toList := by
    rw [List.forall_mem_map]
    exact forall₂_congr fun v hv => newline_notMem_declarationLine (hname v hv)
  refine (Text.fieldsOf_joinWith_iff hne).trans ?_
  rw [lines, List.forall_mem_append, List.forall_mem_append, hvars]
  exact ⟨fun h => h.1.2, fun h => ⟨⟨newline_notMem_headerLines hfile hsource, h⟩, hend⟩⟩

/-! ## Names -/

/-- The text declares each of the variables, with one value, and no other name. -/
structure DeclaresOnce (text : String) (vars : List Variable) : Prop where
  once : ∀ v ∈ vars, ∃ value, (allValues text).lookup v.name = some [value]
  only : ∀ name values, (allValues text).lookup name = some values → name ∈ vars.map Variable.name

/-- What is declared by the lines of variables: each variable itself, and then what stands behind its semicolons. -/
theorem all_render_behind (hfile : ':' ∉ fileLabel.toList) (hsource : ':' ∉ sourceLabel.toList)
    (hname : ∀ v ∈ vars, Name.IsProper v.name) :
    all (render layer fileLabel sourceLabel vars) =
      vars.flatMap fun v => firstDeclaration v :: all (behind v.value) := by
  rw [all_render hfile hsource]
  exact List.flatMap_congr fun v hv => hits_declarationLine (hname v hv)

theorem length_valuesFor_render (hfile : ':' ∉ fileLabel.toList) (hsource : ':' ∉ sourceLabel.toList)
    (hname : ∀ v ∈ vars, Name.IsProper v.name) (name : String) :
    (valuesFor (all (render layer fileLabel sourceLabel vars)) name).length =
      (vars.filter (·.name == name)).length +
        (valuesFor (vars.flatMap fun v => all (behind v.value)) name).length := by
  have hcount : (valuesFor (vars.map firstDeclaration) name).length = (vars.filter (·.name == name)).length := by
    rw [valuesFor, List.length_map, List.filter_map, List.length_map]
    refine congrArg _ (List.filter_congr fun v hv => ?_)
    have hfirst : (firstDeclaration v).name = v.name := name_declarationOf (hname v hv)
    rw [Function.comp_apply, hfirst]
  have hperm := List.map_append_flatMap_perm vars firstDeclaration fun v => all (behind v.value)
  rw [all_render_behind hfile hsource hname, ← hcount, ← List.length_append, ← valuesFor_append]
  exact (((hperm.filter _).map _).length_eq).symm

theorem declaresOnce_render_iff (hfile : ':' ∉ fileLabel.toList) (hsource : ':' ∉ sourceLabel.toList)
    (hname : ∀ v ∈ vars, Name.IsProper v.name) (hnd : (vars.map Variable.name).Nodup) :
    DeclaresOnce (render layer fileLabel sourceLabel vars) vars ↔ ∀ v ∈ vars, all (behind v.value) = [] := by
  have hlength : ∀ name, (valuesFor (all (render layer fileLabel sourceLabel vars)) name).length = _ :=
    length_valuesFor_render hfile hsource hname
  constructor
  · intro h v hv
    by_contra hne
    obtain ⟨d, hd⟩ := List.exists_mem_of_ne_nil _ hne
    have hbehind : 0 < (valuesFor (vars.flatMap fun v => all (behind v.value)) d.name).length :=
      List.length_pos_of_mem (mem_valuesFor (List.mem_flatMap.2 ⟨v, hv, hd⟩))
    have hvalues : valuesFor (all (render layer fileLabel sourceLabel vars)) d.name ≠ [] :=
      List.length_pos_iff.1 (by rw [hlength]; omega)
    -- The variable with this name declares it too, in a line of its own.
    obtain ⟨u, hu, hun⟩ := List.mem_map.1 (h.only d.name _ (lookup_allValues_eq_some_iff.2 ⟨hvalues, rfl⟩))
    obtain ⟨value, hvalue⟩ := h.once u hu
    have hone := congrArg List.length (lookup_allValues_eq_some_iff.1 hvalue).2
    have hfirst : 0 < (vars.filter (·.name == d.name)).length :=
      List.length_pos_of_mem (List.mem_filter.2 ⟨hu, beq_iff_eq.2 hun⟩)
    rw [hun, hlength, List.length_singleton] at hone
    omega
  · intro h
    have hnone : (vars.flatMap fun v => all (behind v.value)) = [] := List.flatMap_eq_nil_iff.2 h
    have hown : ∀ name, (valuesFor (all (render layer fileLabel sourceLabel vars)) name).length =
        (vars.filter (·.name == name)).length := fun name => by
      rw [hlength, hnone, valuesFor_nil, List.length_nil, Nat.add_zero]
    refine ⟨fun v hv => ?_, fun name values hvalues => ?_⟩
    · have hone := hown v.name
      rw [Variable.filter_name_eq hnd hv] at hone
      obtain ⟨value, hvalue⟩ := List.length_eq_one_iff.1 hone
      exact ⟨value, lookup_allValues_eq_some_iff.2 ⟨List.cons_ne_nil _ _, hvalue⟩⟩
    · obtain ⟨hne, rfl⟩ := lookup_allValues_eq_some_iff.1 hvalues
      have hpos := List.length_pos_iff.2 hne
      rw [hown] at hpos
      obtain ⟨v, hv⟩ := List.exists_mem_of_length_pos hpos
      obtain ⟨hv, hvn⟩ := List.mem_filter.1 hv
      exact List.mem_map.2 ⟨v, hv, beq_iff_eq.1 hvn⟩

end Render

end Sheet

namespace Graph

open Sheet Declaration

/-- The labels of the usual layout break no line and look like no declaration. -/
theorem labels_usual (layer : Layer) :
    ('\n' ∉ (({} : Layout).generatedFile layer).toList ∧ ':' ∉ (({} : Layout).generatedFile layer).toList) ∧
      '\n' ∉ ({} : Layout).tokens.text.toList ∧ ':' ∉ ({} : Layout).tokens.text.toList := by
  cases layer <;> decide +kernel

/-- In the usual layout, the sheets of an accepted graph are made of their lines, with the variables in the order of
their names. Each variable has one line of the text if and only if no value has a line break, and the text declares each
variable once and no other name if and only if nothing is declared behind the semicolons of values, as where no value
has a semicolon. -/
theorem compile_lines {g : Graph} {sheets : List Sheet}
    (h : g.compile ({} : Layout).generatedFile ({} : Layout).tokens.text = .ok sheets) :
    sheets.map Sheet.layer = Layer.all ∧
    ∀ sheet ∈ sheets,
      let ls := lines sheet.layer (({} : Layout).generatedFile sheet.layer) ({} : Layout).tokens.text sheet.vars
      sheet.contents = Text.joinWith '\n' ls ∧
      sheet.vars.Pairwise (fun u v => compare u.name v.name = .lt) ∧
      (Text.fieldsOf '\n' sheet.contents = ls ↔ ∀ v ∈ sheet.vars, '\n' ∉ v.value.toList) ∧
      (DeclaresOnce sheet.contents sheet.vars ↔ ∀ v ∈ sheet.vars, all (behind v.value) = []) ∧
      ((∀ v ∈ sheet.vars, ';' ∉ v.value.toList) → DeclaresOnce sheet.contents sheet.vars) := by
  refine ⟨map_layer_of_compile h, fun sheet hsheet => ?_⟩
  have hc := compiles_of_mem h hsheet
  obtain ⟨⟨hfile, hfile'⟩, hsource, hsource'⟩ := labels_usual sheet.layer
  have honce : DeclaresOnce sheet.contents sheet.vars ↔ ∀ v ∈ sheet.vars, all (behind v.value) = [] := by
    rw [hc.contents_eq]
    exact declaresOnce_render_iff hfile' hsource' hc.isProper_name hc.nodup
  refine ⟨hc.contents_eq, hc.pairwise_vars, ?_, honce, fun hclosed => ?_⟩
  · rw [hc.contents_eq]
    exact fieldsOf_render_iff hfile hsource hc.isProper_name
  · exact honce.2 fun v hv => all_behind_of_closed (hclosed v hv)

/-- A value with a line break, and one with a semicolon. -/
private def verseDocument : Json :=
  .object [
    ("primitives", .object [("scale", .object [("base", .object [("$value", .text "16")])])]),
    ("semantic", .object [("verse", .object [("$value", .text "a\nb")])]),
    ("component", .object [("card", .object [("$value", .text "x; y")])])]

private def verse : Graph := (Graph.ofJson verseDocument).toOption.get (by decide +kernel)

/-- The sheets of a graph in the usual layout, its cycles left aside. -/
private def usualSheets (g : Graph) : Except Fault (List Sheet) :=
  (Layer.all.mapM fun layer => (g.layerVariables layer).map fun vars => (layer, vars)) >>=
    (·.mapM fun c => Sheet.ofVariables c.1 (({} : Layout).generatedFile c.1) ({} : Layout).tokens.text c.2)

private def verseSheets : List Sheet := (usualSheets verse).toOption.get (by decide +kernel)

theorem compile_lines_verse :
    Graph.ofJson verseDocument = .ok verse ∧
    verse.compile ({} : Layout).generatedFile ({} : Layout).tokens.text = .ok verseSheets ∧
    ∀ sheet ∈ verseSheets,
      (Text.fieldsOf '\n' sheet.contents = lines sheet.layer (({} : Layout).generatedFile sheet.layer)
        ({} : Layout).tokens.text sheet.vars ↔ sheet.layer ≠ .semantic) ∧
      DeclaresOnce sheet.contents sheet.vars := by
  have hedges : verse.edges =
      .ok [("component.card", []), ("primitives.scale.base", []), ("semantic.verse", [])] := by decide +kernel
  have hcycles : verse.checkCycles = .ok () := by
    rw [checkCycles_of_edges hedges]
    simp [Reference.findCycle?, Reference.visitAll, Reference.visit_eq, List.lookup_cons, Except.map]
  have hcompile : verse.compile ({} : Layout).generatedFile ({} : Layout).tokens.text = .ok verseSheets := by
    rw [compile_of_checkCycles hcycles]
    exact eq_ok_get _
  have hbreaks : ∀ sheet ∈ verseSheets, (∀ v ∈ sheet.vars, '\n' ∉ v.value.toList) ↔ sheet.layer ≠ .semantic := by
    decide +kernel
  have hbehind : ∀ sheet ∈ verseSheets, ∀ v ∈ sheet.vars, all (behind v.value) = [] := by decide +kernel
  obtain ⟨_, hsheets⟩ := compile_lines hcompile
  refine ⟨eq_ok_get _, hcompile, fun sheet hsheet => ?_⟩
  obtain ⟨_, _, hlines, honce, _⟩ := hsheets sheet hsheet
  exact ⟨hlines.trans (hbreaks sheet hsheet), honce.2 (hbehind sheet hsheet)⟩

/-- A value that breaks its line and declares another name. -/
private def spillDocument : Json :=
  .object [
    ("primitives", .object [("a", .object [("$value", .text "1;\n--b: 2")])]),
    ("semantic", .object []),
    ("component", .object [])]

private def spill : Graph := (Graph.ofJson spillDocument).toOption.get (by decide +kernel)

private def spillSheets : List Sheet := (usualSheets spill).toOption.get (by decide +kernel)

/-- An accepted graph whose sheet has more lines than it should have, and declares a name that is no variable's. -/
theorem not_lines_spill :
    Graph.ofJson spillDocument = .ok spill ∧
    spill.compile ({} : Layout).generatedFile ({} : Layout).tokens.text = .ok spillSheets ∧
    ∃ sheet ∈ spillSheets,
      Text.fieldsOf '\n' sheet.contents ≠ lines sheet.layer (({} : Layout).generatedFile sheet.layer)
        ({} : Layout).tokens.text sheet.vars ∧
      sheet.vars.map Variable.name = ["--a"] ∧ (allValues sheet.contents).lookup "--b" = some ["2)"] := by
  have hedges : spill.edges = .ok [("primitives.a", [])] := by decide +kernel
  have hcycles : spill.checkCycles = .ok () := by
    rw [checkCycles_of_edges hedges]
    simp [Reference.findCycle?, Reference.visitAll, Reference.visit_eq, Except.map]
  have hcompile : spill.compile ({} : Layout).generatedFile ({} : Layout).tokens.text = .ok spillSheets := by
    rw [compile_of_checkCycles hcycles]
    exact eq_ok_get _
  have hspill : ∃ sheet ∈ spillSheets, sheet.vars = [⟨"--a", "calc(1;\n--b: 2)", "primitives.a"⟩] := by decide +kernel
  obtain ⟨sheet, hsheet, hvars⟩ := hspill
  have hc := compiles_of_mem hcompile hsheet
  obtain ⟨⟨hfile, hfile'⟩, hsource, hsource'⟩ := labels_usual sheet.layer
  -- The scan of the variable's line stops at the first semicolon and starts anew in the next line of the text.
  have hbehind : all (behind "calc(1;\n--b: 2)") = [⟨['b'], [], [' ', '2', ')']⟩] := by
    have htext : (behind "calc(1;\n--b: 2)").toList = '\n' :: ['-', '-', 'b', ':', ' ', '2', ')', ';'] := by
      decide +kernel
    have hread : read ['-', '-', 'b', ':', ' ', '2', ')', ';'] = some (⟨['b'], [], [' ', '2', ')']⟩, []) := by
      decide +kernel
    rw [all, htext, hits_newline_cons, Text.Pattern.hits_of_read hread, Text.Pattern.hits_nil]
  have hvalues : valuesFor (all sheet.contents) "--b" = ["2)"] := by
    rw [hc.contents_eq, all_render_behind hfile' hsource' hc.isProper_name, hvars, List.flatMap_singleton, hbehind]
    decide +kernel
  refine ⟨eq_ok_get _, hcompile, sheet, hsheet, ?_, by rw [hvars]; rfl, ?_⟩
  · rw [hc.contents_eq, Ne, fieldsOf_render_iff hfile hsource hc.isProper_name, hvars]
    decide +kernel
  · exact lookup_allValues_eq_some_iff.2 ⟨List.cons_ne_nil "2)" [], hvalues⟩

end Graph

end DesignTokens
