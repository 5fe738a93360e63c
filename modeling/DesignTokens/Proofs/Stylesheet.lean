import DesignTokens.Proofs.Compile
import DesignTokens.Proofs.CycleCheck
import DesignTokens.Proofs.Extraction
import DesignTokens.Proofs.Fields
import DesignTokens.Proofs.Names

/-!
# Stylesheets read back

The readers of declarations find in a stylesheet what was written into it: each line is scanned for itself, and gives
its variable if the value does not end it early.
-/

namespace DesignTokens

/-! ## White space -/

namespace Text

variable {c : Char} {s : List Char}

theorem mem_collapseFrom (hc : isBlank c = false) (inRun : Bool) : c ∈ collapseFrom inRun s ↔ c ∈ s := by
  have hspace : c ≠ ' ' := by
    rintro rfl
    cases hc
  induction s generalizing inRun with
  | nil => rfl
  | cons d s ih =>
      rw [collapseFrom]
      by_cases hd : isBlank d = true
      · have hne : c ≠ d := by
          rintro rfl
          rw [hd] at hc
          cases hc
        cases inRun <;> simp [hd, hne, hspace, ih]
      · simp [hd, ih]

theorem mem_collapse_trim (hc : isBlank c = false) : c ∈ collapse (trim s) ↔ c ∈ s := by
  rw [collapse, mem_collapseFrom hc, mem_trim hc]

/-- A text that ends with a character is cut where it has the character first. -/
theorem concat_eq_takeWhile_append (s : List Char) (c : Char) :
    s ++ [c] = s.takeWhile (· != c) ++ c :: ((s ++ [c]).dropWhile (· != c)).drop 1 := by
  induction s with
  | nil => simp
  | cons d s ih =>
      by_cases hd : d = c
      · simp [hd]
      · simpa [hd] using ih

end Text

namespace Sheet

open Declaration

/-- The characters of a value as the readers of declarations give it. -/
def readBack (value : String) : String := .ofList (Text.collapse (Text.trim value.toList))

/-- The characters of lines, each with its line break. -/
def textOf (lines : List String) : List Char := lines.flatMap fun line => line.toList ++ ['\n']

@[simp] theorem textOf_nil : textOf [] = [] := rfl

@[simp] theorem textOf_cons (line : String) (lines : List String) :
    textOf (line :: lines) = line.toList ++ '\n' :: textOf lines := by
  simp [textOf]

@[simp] theorem textOf_append (ls ms : List String) : textOf (ls ++ ms) = textOf ls ++ textOf ms := by
  simp [textOf]

theorem toList_render (layer : Layer) (fileLabel sourceLabel : String) (vars : List Variable) :
    (render layer fileLabel sourceLabel vars).toList =
      textOf (headerLines layer fileLabel sourceLabel) ++ textOf (vars.map declarationLine) ++ ['}', '\n'] := by
  have hlines : ∀ lines : List String, (lines ++ [r"}", ""]).map String.toList =
      (lines ++ [r"}"]).map String.toList ++ [[]] := by
    intro lines
    simp
  rw [render, Text.joinWith, String.toList_ofList, hlines, Text.join_concat, List.flatMap_map, List.append_nil]
  change textOf _ = _
  rw [textOf_append, textOf_append]
  rfl

/-! ## The header -/

/-- The lines of the header before the one that ends the comment. -/
def commentLines (layer : Layer) (fileLabel sourceLabel : String) : List String :=
  ["/* ----------------------------------", " * " ++ fileLabel] ++ layer.headings.map (" * " ++ ·) ++
    [" *", " * This file is AUTO-GENERATED from", " * " ++ sourceLabel ++ ".", " * DO NOT edit this file directly."]

theorem headerLines_eq (layer : Layer) (fileLabel sourceLabel : String) :
    headerLines layer fileLabel sourceLabel = commentLines layer fileLabel sourceLabel ++
      [" * ----------------------------------*/", "", r":root {"] := by
  simp [headerLines, commentLines]

theorem colon_notMem_textOf {lines : List String} (h : ∀ line ∈ lines, ':' ∉ line.toList) : ':' ∉ textOf lines := by
  intro hm
  obtain ⟨line, hline, hm⟩ := List.mem_flatMap.1 hm
  rcases List.mem_append.1 hm with hm | hm
  · exact h line hline hm
  · cases List.mem_singleton.1 hm

theorem colon_notMem_commentLines (layer : Layer) {fileLabel sourceLabel : String} (hfile : ':' ∉ fileLabel.toList)
    (hsource : ':' ∉ sourceLabel.toList) : ∀ line ∈ commentLines layer fileLabel sourceLabel, ':' ∉ line.toList := by
  have hheadings : ∀ heading ∈ layer.headings, ':' ∉ heading.toList := by
    cases layer <;> decide +kernel
  simp only [commentLines, List.forall_mem_append, List.forall_mem_cons, List.forall_mem_map, List.not_mem_nil]
  simpa [hfile, hsource] using hheadings

theorem hits_header_append (layer : Layer) {fileLabel sourceLabel : String} (hfile : ':' ∉ fileLabel.toList)
    (hsource : ':' ∉ sourceLabel.toList) (rest : List Char) :
    pattern.hits (textOf (headerLines layer fileLabel sourceLabel) ++ rest) = pattern.hits rest := by
  have hcomment := colon_notMem_textOf (colon_notMem_commentLines layer hfile hsource)
  have hopen : '-' ∉ '/' :: '\n' :: '\n' :: (r":root {".toList ++ ['\n']) := by decide +kernel
  have htext : textOf (headerLines layer fileLabel sourceLabel) ++ rest =
      (textOf (commentLines layer fileLabel sourceLabel) ++ " * ----------------------------------*".toList) ++
        '/' :: '\n' :: '\n' :: (r":root {".toList ++ ['\n'] ++ rest) := by
    rw [headerLines_eq]
    simp
  -- The slash ends every name that begins in the comment, and from there to the first declaration no dash follows.
  rw [htext, hits_append_of_no_colon (by simp [hcomment]) rfl rfl (by decide)]
  exact hits_append_of_no_dash hopen rest

/-! ## The declarations -/

theorem hits_lines_append (vars : List Variable) (rest : List Char) :
    pattern.hits (textOf (vars.map declarationLine) ++ rest) =
      (vars.flatMap fun v => pattern.hits (declarationLine v).toList) ++ pattern.hits rest := by
  induction vars with
  | nil => rfl
  | cons v vars ih =>
      have hline : (declarationLine v).toList = ("  " ++ v.name ++ ": " ++ v.value).toList ++ [';'] := by
        simp [declarationLine]
      -- Whatever the value holds, the scan starts anew behind the semicolon at the end of the line.
      rw [List.map_cons, textOf_cons, hline, List.append_assoc, List.append_assoc, List.singleton_append,
        hits_append_of_semicolon, List.flatMap_cons, hline, List.append_assoc]
      exact congrArg _ ((hits_newline_cons _).trans ih)

theorem hits_render_append (layer : Layer) {fileLabel sourceLabel : String} (hfile : ':' ∉ fileLabel.toList)
    (hsource : ':' ∉ sourceLabel.toList) (vars : List Variable) (rest : List Char) :
    pattern.hits ((render layer fileLabel sourceLabel vars).toList ++ rest) =
      (vars.flatMap fun v => pattern.hits (declarationLine v).toList) ++ pattern.hits rest := by
  rw [toList_render, List.append_assoc, List.append_assoc, hits_header_append layer hfile hsource, hits_lines_append,
    hits_append_of_no_dash (by decide)]

/-- The declaration that a variable is written as. -/
def declarationOf (v : Variable) : Declaration := ⟨v.name.toList.drop 2, [], ' ' :: v.value.toList⟩

/-- The declaration that the line of a variable begins with: it ends where its value has a semicolon. -/
def firstDeclaration (v : Variable) : Declaration :=
  declarationOf { v with value := .ofList (v.value.toList.takeWhile (· != ';')) }

/-- What the line of a variable holds behind the first semicolon of its value. -/
def behind (value : String) : String := .ofList (((value.toList ++ [';']).dropWhile (· != ';')).drop 1)

theorem name_declarationOf {v : Variable} (hname : Name.IsProper v.name) : (declarationOf v).name = v.name := by
  obtain ⟨stem, hstem, _⟩ := hname
  simp [declarationOf, name, hstem]

theorem value_declarationOf (v : Variable) : (declarationOf v).value = readBack v.value := rfl

theorem wellFormed_declarationOf {v : Variable} (hname : Name.IsProper v.name) (hv : ';' ∉ v.value.toList) :
    (declarationOf v).WellFormed := by
  obtain ⟨stem, hstem, hne, hlegal⟩ := hname
  exact ⟨by simpa [declarationOf, hstem] using hne, by simpa [declarationOf, hstem] using hlegal,
    by simp [declarationOf], by simp [declarationOf, hv]⟩

theorem hits_declarationLine {v : Variable} (hname : Name.IsProper v.name) :
    pattern.hits (declarationLine v).toList = firstDeclaration v :: all (behind v.value) := by
  have hclosed : ';' ∉ v.value.toList.takeWhile (· != ';') := by
    intro hm
    simpa using List.mem_takeWhile_imp hm
  have hd : (firstDeclaration v).WellFormed := wellFormed_declarationOf hname (by simpa using hclosed)
  have hvalue : v.value.toList ++ [';'] = v.value.toList.takeWhile (· != ';') ++ ';' :: (behind v.value).toList := by
    rw [behind, String.toList_ofList]
    exact Text.concat_eq_takeWhile_append _ _
  have hline : (declarationLine v).toList = [' ', ' '] ++ ((firstDeclaration v).text ++ (behind v.value).toList) := by
    obtain ⟨stem, hstem, _⟩ := hname
    simp [declarationLine, firstDeclaration, declarationOf, hstem, text, hvalue]
  rw [hline, hits_append_of_no_dash (by decide), hits_text_append hd (List.cons_ne_nil _ _), all]

theorem all_behind_of_closed {value : String} (hvalue : ';' ∉ value.toList) : all (behind value) = [] := by
  have hbehind : behind value = "" := by
    rw [behind, Text.dropWhile_append_cons hvalue]
    rfl
  rw [hbehind]
  exact Text.Pattern.hits_nil

theorem hits_declarationLine_of_closed {v : Variable} (hname : Name.IsProper v.name) (hv : ';' ∉ v.value.toList) :
    pattern.hits (declarationLine v).toList = [declarationOf v] := by
  have hwhole : v.value.toList.takeWhile (· != ';') = v.value.toList :=
    List.takeWhile_eq_self_iff.2 fun c hc => bne_iff_ne.2 (ne_of_mem_of_not_mem hc hv)
  have hfirst : firstDeclaration v = declarationOf v := by
    rw [firstDeclaration, hwhole, String.ofList_toList]
  rw [hits_declarationLine hname, hfirst, all_behind_of_closed hv]

/-! ## One stylesheet -/

section Render

variable {layer : Layer} {fileLabel sourceLabel : String} {vars : List Variable}

theorem all_render (hfile : ':' ∉ fileLabel.toList) (hsource : ':' ∉ sourceLabel.toList) :
    all (render layer fileLabel sourceLabel vars) = vars.flatMap fun v => pattern.hits (declarationLine v).toList := by
  have h := hits_render_append layer hfile hsource vars []
  rwa [List.append_nil, Text.Pattern.hits_nil, List.append_nil] at h

theorem valuesFor_map_declarationOf (hname : ∀ v ∈ vars, Name.IsProper v.name) (name : String) :
    valuesFor (vars.map declarationOf) name = (vars.filter (·.name == name)).map fun v => readBack v.value := by
  induction vars with
  | nil => rfl
  | cons v vars ih =>
      obtain ⟨hv, hrest⟩ := List.forall_mem_cons.1 hname
      rw [List.map_cons, valuesFor_cons, name_declarationOf hv, value_declarationOf, ih hrest, List.filter_cons]
      by_cases hn : v.name = name <;> simp [hn]

/-- Variables in the order of their names are read back, each with its value, if and only if no value has a
semicolon. -/
theorem allValues_render_iff (hfile : ':' ∉ fileLabel.toList) (hsource : ':' ∉ sourceLabel.toList)
    (hname : ∀ v ∈ vars, Name.IsProper v.name)
    (hlt : vars.Pairwise fun u v => compare u.name v.name = .lt) (hnd : (vars.map Variable.name).Nodup) :
    allValues (render layer fileLabel sourceLabel vars) = vars.map (fun v => (v.name, [readBack v.value])) ↔
      ∀ v ∈ vars, ';' ∉ v.value.toList := by
  have hsorted : Assoc.Sorted (vars.map fun v => (v.name, [readBack v.value])) := List.pairwise_map.2 hlt
  constructor
  · intro h v hv hsemi
    -- No value that is read back holds a semicolon, but this one would.
    have hlookup : (allValues (render layer fileLabel sourceLabel vars)).lookup v.name = some [readBack v.value] := by
      rw [h]
      exact Assoc.lookup_eq_some_of_mem hsorted (List.mem_map.2 ⟨v, hv, rfl⟩)
    obtain ⟨_, hvalues⟩ := lookup_allValues_eq_some_iff.1 hlookup
    obtain ⟨d, hd, _, hdv⟩ := exists_of_mem_valuesFor (hvalues ▸ List.mem_singleton_self (readBack v.value))
    have hin : ';' ∈ (readBack v.value).toList := by
      rw [readBack, String.toList_ofList]
      exact (Text.mem_collapse_trim rfl).2 hsemi
    rw [← hdv, value, String.toList_ofList, Text.mem_collapse_trim rfl] at hin
    exact (wellFormed_of_mem_all hd).content_closed hin
  · intro h
    have hall : all (render layer fileLabel sourceLabel vars) = vars.map declarationOf := by
      rw [all_render hfile hsource, List.map_eq_flatMap]
      exact List.flatMap_congr fun v hv => hits_declarationLine_of_closed (hname v hv) (h v hv)
    refine Assoc.ext_lookup (sorted_allValues _) hsorted fun name => ?_
    rw [lookup_allValues, hall, valuesFor_map_declarationOf hname, Variable.filter_name_eq_toList hnd,
      Variable.lookup_map]
    cases vars.find? (·.name == name) <;> rfl

end Render

/-! ## Several stylesheets -/

theorem toList_joined (sheets : List Sheet) :
    (String.join (sheets.map (·.contents ++ "\n"))).toList = textOf (sheets.map contents) := by
  simp [textOf, String.toList_join, List.flatMap_map]

theorem valuesFor_flatMap {α : Type} (xs : List α) (f : α → List Declaration) (name : String) :
    valuesFor (xs.flatMap f) name = xs.flatMap fun x => valuesFor (f x) name := by
  induction xs with
  | nil => rfl
  | cons x xs ih => rw [List.flatMap_cons, List.flatMap_cons, valuesFor_append, ih]

theorem all_joined {sheets : List Sheet}
    (h : ∀ sheet ∈ sheets, ∀ rest,
      pattern.hits (sheet.contents.toList ++ rest) = all sheet.contents ++ pattern.hits rest) :
    all (String.join (sheets.map (·.contents ++ "\n"))) = sheets.flatMap fun sheet => all sheet.contents := by
  rw [all, toList_joined]
  induction sheets with
  | nil => exact Text.Pattern.hits_nil
  | cons sheet sheets ih =>
      obtain ⟨hsheet, hrest⟩ := List.forall_mem_cons.1 h
      rw [List.map_cons, textOf_cons, hsheet, List.flatMap_cons]
      exact congrArg _ ((hits_newline_cons _).trans (ih hrest))

end Sheet

namespace Graph

open Sheet Declaration

variable {g : Graph} {fileLabel : Layer → String} {sourceLabel : String}

theorem Compiles.isProper_name {layer : Layer} {sheet : Sheet} (h : g.Compiles fileLabel sourceLabel layer sheet) :
    ∀ v ∈ sheet.vars, Name.IsProper v.name := by
  intro v hv
  obtain ⟨a, _, _, _, _, _, rfl⟩ := h.mem_vars_iff.1 hv
  exact a.isProper_variableName

/-- The stylesheets of an accepted graph are read back: each one gives the map from its names to their values if and
only if no value has a semicolon, and all in one text give the values of each one after the other. -/
theorem compile_readBack {sheets : List Sheet} (h : g.compile fileLabel sourceLabel = .ok sheets)
    (hfile : ∀ layer, ':' ∉ (fileLabel layer).toList) (hsource : ':' ∉ sourceLabel.toList) :
    sheets.map Sheet.layer = Layer.all ∧
    (∀ sheet ∈ sheets,
      allValues sheet.contents = sheet.vars.map (fun v => (v.name, [readBack v.value])) ↔
        ∀ v ∈ sheet.vars, ';' ∉ v.value.toList) ∧
    ∀ name values,
      (allValues (String.join (sheets.map (·.contents ++ "\n")))).lookup name = some values ↔
        values ≠ [] ∧ sheets.flatMap (fun sheet => ((allValues sheet.contents).lookup name).getD []) = values := by
  obtain ⟨_, hsheets⟩ := compile_eq_ok_iff.1 h
  have hcompiles : ∀ sheet ∈ sheets, ∃ layer, g.Compiles fileLabel sourceLabel layer sheet := by
    intro sheet hsheet
    obtain ⟨layer, _, hc⟩ := exists_of_forall₂ hsheets.flip hsheet
    exact ⟨layer, hc⟩
  refine ⟨?_, ?_, ?_⟩
  · obtain ⟨p, s, c, rfl, hp, hs, hc⟩ := Layer.forall₂_all_iff.1 hsheets
    simp [hp.layer_eq, hs.layer_eq, hc.layer_eq, Layer.all]
  · intro sheet hsheet
    obtain ⟨layer, hc⟩ := hcompiles sheet hsheet
    rw [hc.contents_eq]
    exact allValues_render_iff (hfile layer) hsource hc.isProper_name hc.pairwise_vars hc.nodup
  · intro name values
    have hrest : ∀ sheet ∈ sheets, ∀ rest,
        pattern.hits (sheet.contents.toList ++ rest) = all sheet.contents ++ pattern.hits rest := by
      intro sheet hsheet rest
      obtain ⟨layer, hc⟩ := hcompiles sheet hsheet
      rw [hc.contents_eq, hits_render_append layer (hfile layer) hsource, all_render (hfile layer) hsource]
    rw [lookup_allValues_eq_some_iff, all_joined hrest, valuesFor_flatMap]
    simp only [getD_lookup_allValues]

/-- A number, and a text with a semicolon. -/
private def noteDocument : Json :=
  .object [
    ("primitives", .object [("scale", .object [("base", .object [("$value", .text "4")])])]),
    ("semantic", .object [("note", .object [("$value", .text "{scale.base}; --x: y")])]),
    ("component", .object [])]

private def note : Graph := (Graph.ofJson noteDocument).toOption.get (by decide +kernel)

private def noteSheets : List Sheet :=
  ((Layer.all.mapM fun layer => (note.layerVariables layer).map fun vars => (layer, vars)) >>=
    (·.mapM fun c => Sheet.ofVariables c.1 (c.1.name ++ ".css") "tokens.json" c.2)).toOption.get (by decide +kernel)

private theorem compile_note : note.compile (·.name ++ ".css") "tokens.json" = .ok noteSheets := by
  have hedges : note.edges =
      .ok [("primitives.scale.base", []), ("semantic.note", ["primitives.scale.base"])] := by decide +kernel
  have hcycles : note.checkCycles = .ok () := by
    rw [checkCycles_of_edges hedges]
    simp [Reference.findCycle?, Reference.visitAll, Reference.visit_eq, List.lookup_cons, Except.map]
  rw [compile_of_checkCycles hcycles]
  exact eq_ok_get _

theorem compile_readBack_note :
    Graph.ofJson noteDocument = .ok note ∧ note.compile (·.name ++ ".css") "tokens.json" = .ok noteSheets ∧
    (∀ sheet ∈ noteSheets,
      allValues sheet.contents = sheet.vars.map (fun v => (v.name, [readBack v.value])) ↔ sheet.layer ≠ .semantic) ∧
    ∀ values,
      (allValues (String.join (noteSheets.map (·.contents ++ "\n")))).lookup "--note" = some values ↔
        values ≠ [] ∧
          noteSheets.flatMap (fun sheet => ((allValues sheet.contents).lookup "--note").getD []) = values := by
  have hfile : ∀ layer : Layer, ':' ∉ (layer.name ++ ".css").toList := by
    intro layer
    cases layer <;> decide +kernel
  have hsemicolon : ∀ sheet ∈ noteSheets, (∀ v ∈ sheet.vars, ';' ∉ v.value.toList) ↔ sheet.layer ≠ .semantic := by
    decide +kernel
  obtain ⟨_, hsheets, hjoined⟩ := compile_readBack compile_note hfile (by decide +kernel)
  refine ⟨eq_ok_get _, compile_note, fun sheet hsheet => ?_, hjoined "--note"⟩
  rw [hsheets sheet hsheet, hsemicolon sheet hsheet]

end Graph

end DesignTokens
