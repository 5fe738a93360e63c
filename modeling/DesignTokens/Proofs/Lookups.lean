import DesignTokens.Proofs.Compile
import DesignTokens.Proofs.CycleCheck

/-!
# No lookup without its variable

Whatever a text of an accepted graph refers to is compiled: its lookup names one variable of the stylesheet of its
layer, and this one has its path and its value.
-/

namespace DesignTokens

namespace Graph

open Reference

variable {g : Graph} {fileLabel : Layer → String} {sourceLabel : String} {sheets : List Sheet}

/-! ## What references are replaced by -/

/-- What a piece of a text is replaced by: a character stays, and a reference becomes the lookup of its token. -/
def Replaces (g : Graph) (context : String) : Text.Piece (List Char) → List Char → Prop
  | .plain c, part => part = [c]
  | .hit inner, part =>
    ∃ a, g.resolve (.ofList (Reference.braced inner)) context = .ok a ∧ part = a.lookup.toList

theorem substitute_eq_ok_iff {s context t : String} :
    g.substitute s context = .ok t ↔
      ∃ parts, List.Forall₂ (g.Replaces context) (Reference.pattern.pieces s.toList) parts ∧
        t = .ofList parts.flatten := by
  rw [substitute, bind_eq_ok_iff]
  refine exists_congr fun parts => ?_
  rw [mapM_eq_ok_iff]
  constructor
  · rintro ⟨hparts, ht⟩
    cases ht
    refine ⟨hparts.imp ?_, rfl⟩
    rintro (c | inner) part hpart
    · exact (Except.ok.inj hpart).symm
    · obtain ⟨a, ha, rfl⟩ := map_eq_ok_iff.1 hpart
      exact ⟨a, ha, rfl⟩
  · rintro ⟨hparts, rfl⟩
    refine ⟨hparts.imp ?_, rfl⟩
    rintro (c | inner) part hpart
    · exact congrArg Except.ok (Eq.symm hpart)
    · obtain ⟨a, ha, rfl⟩ := hpart
      exact map_eq_ok_iff.2 ⟨a, ha, rfl⟩

/-! ## Where their variables are -/

/-- The lookup of the token at `a` names one variable of the one stylesheet of its layer, and this variable has the
path of the token and its value, compiled. -/
def DefinedOnce (g : Graph) (sheets : List Sheet) (a : Address) : Prop :=
  ∃ sheet leaf value name, sheets.filter (·.layer == a.layer) = [sheet] ∧
    g.leaf? a = some leaf ∧ g.compileValue leaf.value a.path = .ok value ∧
    a.lookup = "var(" ++ name ++ ")" ∧ sheet.vars.filter (·.name == name) = [⟨name, value, a.path⟩]

theorem definedOnce_of_leaf? (h : g.compile fileLabel sourceLabel = .ok sheets) {a : Address} {leaf : Leaf}
    (hleaf : g.leaf? a = some leaf) : g.DefinedOnce sheets a := by
  obtain ⟨sheet, hsheet, hcompiles⟩ := exists_sheet h a.layer
  obtain ⟨value, hvalue⟩ := hcompiles.exists_value rfl hleaf
  have hmem : (⟨a.variableName, value, a.path⟩ : Variable) ∈ sheet.vars :=
    hcompiles.mem_vars_iff.2 ⟨a, leaf, rfl, hleaf, value, hvalue, rfl⟩
  exact ⟨sheet, leaf, value, a.variableName, hsheet, hleaf, hvalue, rfl,
    Variable.filter_name_eq hcompiles.nodup hmem⟩

/-- The text of each token of an accepted graph has its references replaced, and what they mean is defined once. -/
theorem lookups_defined (h : g.compile fileLabel sourceLabel = .ok sheets) {layer : Layer} {e : Entry}
    (he : e ∈ g.entries layer) {s : String} (hs : e.leaf.value = .text s) :
    (∃ parts, g.substitute s e.address.path = .ok (.ofList parts.flatten) ∧
      List.Forall₂ (g.Replaces e.address.path) (Reference.pattern.pieces s.toList) parts) ∧
    ∀ reference ∈ Reference.all s,
      ∃ a, g.resolve reference e.address.path = .ok a ∧ g.DefinedOnce sheets a := by
  obtain ⟨hlayer, hleaf⟩ := mem_entries_iff.1 he
  obtain ⟨sheet, _, hcompiles⟩ := exists_sheet h layer
  obtain ⟨value, hvalue⟩ := hcompiles.exists_value hlayer hleaf
  rw [hs, compileValue] at hvalue
  obtain ⟨t, ht, _⟩ := map_eq_ok_iff.1 hvalue
  obtain ⟨parts, hparts, rfl⟩ := substitute_eq_ok_iff.1 ht
  refine ⟨⟨parts, ht, hparts⟩, fun reference hr => ?_⟩
  obtain ⟨inner, hinner, rfl⟩ := List.mem_map.1 hr
  obtain ⟨piece, hpiece, hhit⟩ := List.mem_filterMap.1 hinner
  cases piece with
  | plain c => cases hhit
  | hit inner' =>
      cases hhit
      obtain ⟨part, _, a, ha, _⟩ := exists_of_forall₂ hparts hpiece
      obtain ⟨⟨leaf, hleaf⟩, _⟩ := resolve_eq_ok ha
      exact ⟨a, ha, definedOnce_of_leaf? h hleaf⟩

/-- A token whose text refers to one of another layer. -/
private def gapDocument : Json :=
  .object [
    ("primitives", .object [("scale", .object [("m", .object [("value", .text "4")])])]),
    ("semantic", .object [("gap", .object [("$value", .text "{scale.m} * 2")])]),
    ("component", .object [])]

private def gap : Graph := (Graph.ofJson gapDocument).toOption.get (by decide +kernel)

private theorem edges_gap : gap.edges = .ok [("primitives.scale.m", []), ("semantic.gap", ["primitives.scale.m"])] := by
  decide +kernel

theorem lookups_defined_gap :
    Graph.ofJson gapDocument = .ok gap ∧ ∃ sheets, gap.compile Layer.name "tokens" = .ok sheets ∧
      gap.resolve "{scale.m}" "semantic.gap" = .ok ⟨.primitives, ["scale", "m"]⟩ ∧
      gap.DefinedOnce sheets ⟨.primitives, ["scale", "m"]⟩ := by
  have hcycles : gap.checkCycles = .ok () := by
    rw [checkCycles_of_edges edges_gap]
    simp [findCycle?, visitAll, visit_eq, List.lookup_cons, Except.map]
  have hsome : (gap.compile Layer.name "tokens").toOption.isSome = true := by
    rw [compile_of_checkCycles hcycles]
    decide +kernel
  have hresolve : gap.resolve "{scale.m}" "semantic.gap" = .ok ⟨.primitives, ["scale", "m"]⟩ := by
    decide +kernel
  have hmem : ⟨⟨.semantic, ["gap"]⟩, .text "{scale.m} * 2", none⟩ ∈ gap.entries .semantic := by decide +kernel
  obtain ⟨_, hall⟩ := lookups_defined (eq_ok_get hsome) hmem rfl
  obtain ⟨a, ha, hdefined⟩ := hall "{scale.m}" (by decide +kernel)
  obtain rfl : a = ⟨.primitives, ["scale", "m"]⟩ := Except.ok.inj (ha.symm.trans hresolve)
  exact ⟨eq_ok_get _, _, eq_ok_get hsome, hresolve, hdefined⟩

end Graph

end DesignTokens
