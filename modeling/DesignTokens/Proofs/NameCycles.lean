import DesignTokens.Proofs.Compile
import DesignTokens.Proofs.CycleCheck

/-!
# Cycles of names

Stylesheets refer to variables by their names, and the search for cycles goes along paths. Of an accepted graph, a cycle
of names goes through a name that tokens of two layers have, or through a token that a later one with its path hides
from the search.
-/

namespace DesignTokens.Graph

open Reference

variable {g : Graph} {fileLabel : Layer → String} {sourceLabel : String} {sheets : List Sheet}

/-! ## Names that refer to names -/

/-- A token with the name `x` has a reference that the lookup of `y` is put in for. -/
def Links (g : Graph) (x y : String) : Prop :=
  ∃ a b, g.Refers a b ∧ a.variableName = x ∧ b.lookup = "var(" ++ y ++ ")"

/-- A token of another layer has the name of the one at `a`. -/
def SharesName (g : Graph) (a : Address) : Prop :=
  ∃ b leaf, g.leaf? b = some leaf ∧ b.layer ≠ a.layer ∧ b.variableName = a.variableName

/-- A token that is listed after the one at `a` has its path. -/
def Hidden (g : Graph) (a : Address) : Prop := ∃ e, g.holder? a.path = some e ∧ e.address ≠ a

/-- No token with the name shares it with another layer or is hidden. -/
def Distinctive (g : Graph) (name : String) : Prop :=
  ∀ a leaf, g.leaf? a = some leaf → a.variableName = name → ¬g.SharesName a ∧ ¬g.Hidden a

theorem links_iff {x y : String} : g.Links x y ↔ ∃ a b, g.Refers a b ∧ a.variableName = x ∧ b.variableName = y := by
  simp only [Links, Address.lookup, String.append_left_inj, String.append_right_inj]

theorem Refers.source {a b : Address} (h : g.Refers a b) : ∃ leaf, g.leaf? a = some leaf := by
  obtain ⟨leaf, _, hleaf, _⟩ := h
  exact ⟨leaf, hleaf⟩

/-! ## From names back to tokens -/

/-- A name that is distinctive belongs to one token of an accepted graph. -/
theorem Distinctive.eq_of_variableName (h : g.compile fileLabel sourceLabel = .ok sheets) {a b : Address} {s t : Leaf}
    (hname : g.Distinctive a.variableName) (ha : g.leaf? a = some s) (hb : g.leaf? b = some t)
    (hab : b.variableName = a.variableName) : b = a := by
  have hlayer : b.layer = a.layer := by
    by_contra hne
    exact (hname a s ha rfl).1 ⟨b, t, hb, hne, hab⟩
  obtain ⟨_, _, hcompiles⟩ := exists_sheet h a.layer
  have hentry : (⟨b, t⟩ : Entry) = ⟨a, s⟩ :=
    hcompiles.eq_of_variableName_eq (mem_entries_iff.2 ⟨hlayer, hb⟩) (mem_entries_iff.2 ⟨rfl, ha⟩) hab
  exact congrArg Entry.address hentry

theorem Refers.follows {a b : Address} (hab : g.Refers a b) (h : g.Distinctive a.variableName) : g.Follows a b := by
  obtain ⟨leaf, hleaf⟩ := hab.source
  have hsome : (g.holder? a.path).isSome := by
    rw [holder?, List.find?_isSome]
    exact ⟨⟨a, leaf⟩, List.mem_reverse.2 (mem_allEntries_iff.2 hleaf), beq_self_eq_true _⟩
  obtain ⟨e, he⟩ := Option.isSome_iff_exists.1 hsome
  have hea : e.address = a := by
    by_contra hne
    exact (h a leaf hleaf rfl).2 ⟨e, he, hne⟩
  exact ⟨e, he, by rwa [hea]⟩

/-- Names that lead to each other by distinctive names belong to tokens between which the search goes. -/
theorem exists_follows_of_links (h : g.compile fileLabel sourceLabel = .ok sheets) {x y : String}
    (hxy : Relation.TransGen (fun x y => g.Links x y ∧ g.Distinctive x) x y) :
    ∃ a b, a.variableName = x ∧ b.variableName = y ∧ (∃ leaf, g.leaf? a = some leaf) ∧ (∃ leaf, g.leaf? b = some leaf) ∧
      Relation.TransGen g.Follows a b := by
  induction hxy with
  | single hlink =>
      obtain ⟨hlink, hx⟩ := hlink
      obtain ⟨a, b, hab, rfl, rfl⟩ := links_iff.1 hlink
      exact ⟨a, b, rfl, rfl, hab.source, hab.target.1, .single (hab.follows hx)⟩
  | tail _ hlink ih =>
      obtain ⟨hlink, hy⟩ := hlink
      obtain ⟨a, b, ha, hb, hsource, ⟨leaf, hleaf⟩, hpath⟩ := ih
      obtain ⟨b', c, hbc, rfl, rfl⟩ := links_iff.1 hlink
      obtain ⟨leaf', hleaf'⟩ := hbc.source
      -- The token that the way so far leads to is the one whose references lead on, for both have the name.
      obtain rfl : b = b' := hy.eq_of_variableName h hleaf' hleaf hb
      exact ⟨a, c, ha, rfl, hsource, hbc.target.1, hpath.tail (hbc.follows hy)⟩

/-! ## Cycles -/

theorem acyclic_follows (h : g.compile fileLabel sourceLabel = .ok sheets) : Acyclic g.Follows := by
  have hcycles := (compile_eq_ok_iff.1 h).1
  obtain ⟨edges, hedges, _⟩ := bind_eq_ok_iff.1 hcycles
  rw [checkCycles_of_edges hedges] at hcycles
  rw [← acyclic_edge_iff hedges, ← findCycle?_eq_none_iff]
  cases hfind : findCycle? edges with
  | none => rfl
  | some cycle => simp [hfind] at hcycles

/-- The names of an accepted graph form no cycle but through a name that is not distinctive: a variable refers to itself
only where another layer has a token with its name, or where a later token has the path of its own. -/
theorem acyclic_links (h : g.compile fileLabel sourceLabel = .ok sheets) :
    Acyclic (fun x y => g.Links x y ∧ g.Distinctive x) ∧
    ∀ x, g.Links x x → ∃ a leaf, g.leaf? a = some leaf ∧ a.variableName = x ∧ (g.SharesName a ∨ g.Hidden a) := by
  have hacyclic : Acyclic (fun x y => g.Links x y ∧ g.Distinctive x) := by
    intro x hx
    obtain ⟨a, b, rfl, hb, ⟨s, hs⟩, ⟨t, ht⟩, hpath⟩ := exists_follows_of_links h hx
    obtain ⟨_, ⟨_, ha⟩, _⟩ := Relation.TransGen.head'_iff.1 hx
    obtain rfl : b = a := ha.eq_of_variableName h hs ht hb
    exact acyclic_follows h b hpath
  refine ⟨hacyclic, fun x hx => ?_⟩
  by_contra hnone
  push Not at hnone
  exact hacyclic x (.single ⟨hx, hnone⟩)

/-- Tokens of all layers, each of which refers to the one in the layer before. -/
private def chainDocument : Json :=
  .object [
    ("primitives", .object [("scale", .object [("m", .object [("value", .text "4")])])]),
    ("semantic", .object [("gap", .object [("$value", .text "{scale.m} * 2")])]),
    ("component", .object [("card", .object [("gap", .object [("$value", .text "{semantic.gap}")])])])]

private def chain : Graph := (Graph.ofJson chainDocument).toOption.get (by decide +kernel)

theorem acyclic_links_chain :
    Graph.ofJson chainDocument = .ok chain ∧ (∃ sheets, chain.compile Layer.name "tokens" = .ok sheets) ∧
      chain.Links "--card-gap" "--gap" ∧ chain.Links "--gap" "--scale-m" ∧
      Acyclic (fun x y => chain.Links x y ∧ chain.Distinctive x) := by
  have hedges : chain.edges = .ok [("component.card.gap", ["semantic.gap"]), ("primitives.scale.m", []),
      ("semantic.gap", ["primitives.scale.m"])] := by decide +kernel
  have hcycles : chain.checkCycles = .ok () := by
    rw [checkCycles_of_edges hedges]
    simp [findCycle?, visitAll, visit_eq, List.lookup_cons, Except.map]
  have hsome : (chain.compile Layer.name "tokens").toOption.isSome = true := by
    rw [compile_of_checkCycles hcycles]
    decide +kernel
  have hcard : chain.Refers ⟨.component, ["card", "gap"]⟩ ⟨.semantic, ["gap"]⟩ := by
    refine ⟨⟨.text "{semantic.gap}", none⟩, "{semantic.gap}", ?_, rfl, "{semantic.gap}", ?_, ?_⟩ <;>
      decide +kernel
  have hgap : chain.Refers ⟨.semantic, ["gap"]⟩ ⟨.primitives, ["scale", "m"]⟩ := by
    refine ⟨⟨.text "{scale.m} * 2", none⟩, "{scale.m} * 2", ?_, rfl, "{scale.m}", ?_, ?_⟩ <;>
      decide +kernel
  obtain ⟨hacyclic, _⟩ := acyclic_links (eq_ok_get hsome)
  refine ⟨eq_ok_get _, ⟨_, eq_ok_get hsome⟩, ?_, ?_, hacyclic⟩
  · exact ⟨_, _, hcard, by decide +kernel, by decide +kernel⟩
  · exact ⟨_, _, hgap, by decide +kernel, by decide +kernel⟩

/-- A token that refers to one of another layer with its own name. -/
private def sharedDocument : Json :=
  .object [
    ("primitives", .object [("gap", .object [("$value", .text "4")])]),
    ("semantic", .object [("gap", .object [("$value", .text "{primitives.gap}")])]),
    ("component", .object [])]

private def shared : Graph := (Graph.ofJson sharedDocument).toOption.get (by decide +kernel)

/-- Where two layers have one name, a variable of an accepted graph may refer to itself. -/
theorem not_acyclic_links_shared :
    Graph.ofJson sharedDocument = .ok shared ∧
      (∃ sheets, shared.compile Layer.name "tokens" = .ok sheets ∧
        ∃ sheet ∈ sheets, ⟨"--gap", "var(--gap)", "semantic.gap"⟩ ∈ sheet.vars) ∧
      shared.Links "--gap" "--gap" ∧ ¬Acyclic shared.Links := by
  have hedges : shared.edges = .ok [("primitives.gap", []), ("semantic.gap", ["primitives.gap"])] := by decide +kernel
  have hcycles : shared.checkCycles = .ok () := by
    rw [checkCycles_of_edges hedges]
    simp [findCycle?, visitAll, visit_eq, List.lookup_cons, Except.map]
  have hsome : (shared.compile Layer.name "tokens").toOption.isSome = true := by
    rw [compile_of_checkCycles hcycles]
    decide +kernel
  obtain ⟨sheet, hsheet, hcompiles⟩ := exists_sheet (eq_ok_get hsome) .semantic
  have hmem : ⟨"--gap", "var(--gap)", "semantic.gap"⟩ ∈ sheet.vars := by
    refine hcompiles.mem_vars_iff.2
      ⟨⟨.semantic, ["gap"]⟩, ⟨.text "{primitives.gap}", none⟩, rfl, ?_, "var(--gap)", ?_, ?_⟩ <;>
      decide +kernel
  have hrefers : shared.Refers ⟨.semantic, ["gap"]⟩ ⟨.primitives, ["gap"]⟩ := by
    refine ⟨⟨.text "{primitives.gap}", none⟩, "{primitives.gap}", ?_, rfl,
      "{primitives.gap}", ?_, ?_⟩ <;>
      decide +kernel
  have hlink : shared.Links "--gap" "--gap" := ⟨_, _, hrefers, by decide +kernel, by decide +kernel⟩
  refine ⟨eq_ok_get _, ⟨_, eq_ok_get hsome, sheet, ?_, hmem⟩, hlink, fun hac => hac _ (.single hlink)⟩
  exact List.mem_of_mem_filter (hsheet ▸ List.mem_singleton_self sheet)

end DesignTokens.Graph
