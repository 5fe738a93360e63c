import DesignTokens.Proofs.Lookups
import DesignTokens.Proofs.Verdict

/-!
# Tokens added to the last layer

A reference finds the last layer only where no other layer has its token. So whatever is added to the last layer, the
references there are keep their meaning, and the stylesheets of the other layers stay as they are.
-/

namespace DesignTokens

theorem Reference.pairwise_candidates (segments : List String) :
    (candidates segments).Pairwise fun a _ => a.layer ≠ .component := by
  have hall : (Layer.all.map fun layer => (⟨layer, segments⟩ : Address)).Pairwise
      fun a _ => a.layer ≠ .component := by
    simp [Layer.all]
  unfold candidates
  dsimp only
  split
  · split
    · exact List.pairwise_singleton ..
    · exact hall
  · exact hall

namespace Graph

/-- `g'` is `g` with tokens added to the last layer: the other layers have the same tokens, and no token of the last
one is lost or has another value. -/
structure Extends (g g' : Graph) : Prop where
  lower : ∀ layer, layer ≠ .component → g'.entries layer = g.entries layer
  component : ∀ e ∈ g.entries .component, ∃ e' ∈ g'.entries .component,
    e'.address = e.address ∧ e'.leaf.value = e.leaf.value

open Reference

variable {g g' : Graph} {a : Address} {reference context : String}

namespace Extends

/-! ## References keep their meaning -/

theorem leaf?_eq (h : g.Extends g') (ha : a.layer ≠ .component) : g'.leaf? a = g.leaf? a := by
  have hmem : ∀ (g : Graph) leaf, g.leaf? a = some leaf ↔ ⟨a, leaf⟩ ∈ g.entries a.layer := by
    intro g leaf
    simp [mem_entries_iff]
  refine Option.ext fun leaf => ?_
  rw [hmem, hmem, h.lower a.layer ha]

theorem exists_leaf (h : g.Extends g') {leaf : Leaf} (hleaf : g.leaf? a = some leaf) :
    ∃ leaf', g'.leaf? a = some leaf' ∧ leaf'.value = leaf.value := by
  by_cases ha : a.layer = .component
  · obtain ⟨⟨b, leaf'⟩, he', rfl, hvalue⟩ := h.component ⟨a, leaf⟩ (mem_entries_iff.2 ⟨ha, hleaf⟩)
    exact ⟨leaf', (mem_entries_iff.1 he').2, hvalue⟩
  · exact ⟨leaf, (h.leaf?_eq ha).trans hleaf, rfl⟩

/-- No candidate of a reference that comes before its token is added. -/
theorem find?_candidates (h : g.Extends g') {segments : List String}
    (ha : (candidates segments).find? (fun a => (g.leaf? a).isSome) = some a) :
    (candidates segments).find? (fun a => (g'.leaf? a).isSome) = some a := by
  rw [List.find?_eq_some_iff_append] at ha ⊢
  obtain ⟨hsome, before, after, hsplit, hbefore⟩ := ha
  obtain ⟨leaf, hleaf⟩ := Option.isSome_iff_exists.1 hsome
  obtain ⟨leaf', hleaf', _⟩ := h.exists_leaf hleaf
  refine ⟨by simp [hleaf'], before, after, hsplit, fun b hb => ?_⟩
  have hpairwise := pairwise_candidates segments
  rw [hsplit] at hpairwise
  have hlower : b.layer ≠ .component :=
    (List.pairwise_append.1 hpairwise).2.2 b hb a (List.mem_cons_self ..)
  rw [h.leaf?_eq hlower]
  exact hbefore b hb

theorem resolve (h : g.Extends g') (ha : g.resolve reference context = .ok a) :
    g'.resolve reference context = .ok a := by
  unfold Graph.resolve at ha ⊢
  dsimp only at ha ⊢
  split at ha
  · next b hb =>
      cases ha
      split at hb
      · cases hb
      · next hbraces =>
          rw [if_neg hbraces, h.find?_candidates hb]
  · cases ha

/-! ## Variables stay as they are -/

theorem substitute (h : g.Extends g') {s t : String} (ht : g.substitute s context = .ok t) :
    g'.substitute s context = .ok t := by
  rw [substitute_eq_ok_iff] at ht ⊢
  obtain ⟨parts, hparts, rfl⟩ := ht
  refine ⟨parts, hparts.imp ?_, rfl⟩
  rintro (c | inner) part hpart
  · exact hpart
  · obtain ⟨a, ha, rfl⟩ := hpart
    exact ⟨a, h.resolve ha, rfl⟩

theorem compileValue (h : g.Extends g') {value : TokenValue} {s : String}
    (hs : g.compileValue value context = .ok s) : g'.compileValue value context = .ok s := by
  cases value with
  | scalar _ => exact hs
  | text _ =>
      obtain ⟨t, ht, rfl⟩ := map_eq_ok_iff.1 hs
      exact map_eq_ok_iff.2 ⟨t, h.substitute ht, rfl⟩

variable {fileLabel : Layer → String} {sourceLabel : String} {layer : Layer} {sheet sheet' : Sheet}

/-- The sheet of a layer to which nothing is added is the same. -/
theorem sheet_eq (h : g.Extends g') (hl : layer ≠ .component) (hs : g.Compiles fileLabel sourceLabel layer sheet)
    (hs' : g'.Compiles fileLabel sourceLabel layer sheet') : sheet' = sheet := by
  obtain ⟨vars, hvars, hsort⟩ := hs.vars_eq
  obtain ⟨vars', hvars', hsort'⟩ := hs'.vars_eq
  have hcarried : g'.layerVariables layer = .ok vars := by
    rw [layerVariables, h.lower layer hl, mapM_eq_ok_iff]
    refine (mapM_eq_ok_iff.1 hvars).imp fun e v hv => ?_
    obtain ⟨value, hvalue, rfl⟩ := map_eq_ok_iff.1 hv
    exact map_eq_ok_iff.2 ⟨value, h.compileValue hvalue, rfl⟩
  obtain rfl : vars = vars' := Except.ok.inj (hcarried.symm.trans hvars')
  have hv : sheet'.vars = sheet.vars := hsort'.trans hsort.symm
  have hc : sheet'.contents = sheet.contents := by rw [hs'.contents_eq, hs.contents_eq, hv]
  have hlayer : sheet'.layer = sheet.layer := hs'.layer_eq.trans hs.layer_eq.symm
  cases sheet
  cases sheet'
  simp_all

/-- No variable is lost or changed. -/
theorem vars_subset (h : g.Extends g') (hs : g.Compiles fileLabel sourceLabel layer sheet)
    (hs' : g'.Compiles fileLabel sourceLabel layer sheet') : sheet.vars ⊆ sheet'.vars := by
  intro v hv
  obtain ⟨a, leaf, ha, hleaf, value, hvalue, rfl⟩ := hs.mem_vars_iff.1 hv
  obtain ⟨leaf', hleaf', heq⟩ := h.exists_leaf hleaf
  exact hs'.mem_vars_iff.2 ⟨a, leaf', ha, hleaf', value, heq ▸ h.compileValue hvalue, rfl⟩

end Extends

variable {fileLabel : Layer → String} {sourceLabel : String} {sheets sheets' : List Sheet}

/-- Adding tokens to the last layer of an accepted graph rebinds no reference: the sheets of the other layers are the
same, and each variable of the last one stays with its name, value and path. -/
theorem compile_extends (h : g.Extends g') (hsheets : g.compile fileLabel sourceLabel = .ok sheets)
    (hsheets' : g'.compile fileLabel sourceLabel = .ok sheets') :
    (∀ e ∈ g.allEntries, ∀ s, e.leaf.value = .text s → ∀ reference ∈ Reference.all s,
      ∃ a, g.resolve reference e.address.path = .ok a ∧ g'.resolve reference e.address.path = .ok a) ∧
    ∃ p s c c', sheets = [p, s, c] ∧ sheets' = [p, s, c'] ∧
      p.layer = .primitives ∧ s.layer = .semantic ∧ c.layer = .component ∧ c'.layer = .component ∧
      c.vars ⊆ c'.vars := by
  obtain ⟨hcycles, hcompiles⟩ := compile_eq_ok_iff.1 hsheets
  constructor
  · intro e he s hs reference hr
    obtain ⟨a, ha⟩ := allResolve_of_checkCycles hcycles e he s hs reference hr
    exact ⟨a, ha, h.resolve ha⟩
  · obtain ⟨p, s, c, rfl, hp, hs, hc⟩ := Layer.forall₂_all_iff.1 hcompiles
    obtain ⟨p', s', c', rfl, hp', hs', hc'⟩ := Layer.forall₂_all_iff.1 (compile_eq_ok_iff.1 hsheets').2
    obtain rfl := h.sheet_eq (by decide) hp hp'
    obtain rfl := h.sheet_eq (by decide) hs hs'
    exact ⟨p', s', c, c', rfl, rfl, hp.layer_eq, hs.layer_eq, hc.layer_eq, hc'.layer_eq, h.vars_subset hc hc'⟩

/-- A token of the lower layers that refers to one of the last. -/
private def cardDocument (card : List (String × Json)) : Json :=
  .object [
    ("primitives", .object [("m", .object [("$value", .text "4")])]),
    ("semantic", .object [("accent", .object [("$value", .text "{card.color}")])]),
    ("component", .object card)]

private def color : String × Json := ("card", .object [
  ("color", .object [("$value", .text "red")]),
  ("gap", .object [("$value", .text "{m} * 2")])])

private def card : Graph := (Graph.ofJson (cardDocument [color])).toOption.get (by decide +kernel)

/-- The added token has the keys of one that is referred to. -/
private def cardAndMore : Graph :=
  (Graph.ofJson (cardDocument [color, ("m", .object [("$value", .text "{primitives.m} + 1")])])).toOption.get
    (by decide +kernel)

theorem compile_extends_card :
    card.Extends cardAndMore ∧ ∃ sheets sheets', card.compile Layer.name "tokens" = .ok sheets ∧
      cardAndMore.compile Layer.name "tokens" = .ok sheets' ∧
      cardAndMore.resolve "{m}" "component.card.gap" = .ok ⟨.primitives, ["m"]⟩ ∧
      ∃ p s c c', sheets = [p, s, c] ∧ sheets' = [p, s, c'] ∧
        p.layer = .primitives ∧ s.layer = .semantic ∧ c.layer = .component ∧ c'.layer = .component ∧
        c.vars ⊆ c'.vars := by
  have hedges : card.edges = .ok [("component.card.color", []), ("component.card.gap", ["primitives.m"]),
      ("primitives.m", []), ("semantic.accent", ["component.card.color"])] := by decide +kernel
  have hedges' : cardAndMore.edges = .ok [("component.card.color", []), ("component.card.gap", ["primitives.m"]),
      ("component.m", ["primitives.m"]), ("primitives.m", []), ("semantic.accent", ["component.card.color"])] := by
    decide +kernel
  have hcycles : card.checkCycles = .ok () := by
    rw [checkCycles_of_edges hedges]
    simp [findCycle?, visitAll, visit_eq, List.lookup_cons, Except.map]
  have hcycles' : cardAndMore.checkCycles = .ok () := by
    rw [checkCycles_of_edges hedges']
    simp [findCycle?, visitAll, visit_eq, List.lookup_cons, Except.map]
  have hnames : ∀ layer, ¬card.Clashes layer ∧ ¬cardAndMore.Clashes layer := by
    intro layer
    cases layer <;> (unfold Clashes; decide +kernel)
  obtain ⟨sheets, hsheets⟩ := exists_compile hcycles fun layer => (hnames layer).1
  obtain ⟨sheets', hsheets'⟩ := exists_compile hcycles' fun layer => (hnames layer).2
  have hlower : ∀ layer, layer ≠ .component → cardAndMore.entries layer = card.entries layer := by
    intro layer hl
    cases layer with
    | primitives => decide +kernel
    | semantic => decide +kernel
    | component => exact absurd rfl hl
  have hextends : card.Extends cardAndMore := ⟨hlower, by decide +kernel⟩
  have hmem : ⟨⟨.component, ["card", "gap"]⟩, .text "{m} * 2", none⟩ ∈ card.allEntries := by decide +kernel
  obtain ⟨hrefs, hall⟩ := compile_extends hextends hsheets hsheets'
  obtain ⟨a, ha, ha'⟩ := hrefs _ hmem _ rfl "{m}" (by decide +kernel)
  have hm : card.resolve "{m}" "component.card.gap" = .ok ⟨.primitives, ["m"]⟩ := by decide +kernel
  obtain rfl : a = ⟨.primitives, ["m"]⟩ := Except.ok.inj (ha.symm.trans hm)
  exact ⟨hextends, sheets, sheets', hsheets, hsheets', ha', hall⟩

end Graph

end DesignTokens
