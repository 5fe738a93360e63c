import DesignTokens.Proofs.Compile
import DesignTokens.Proofs.CycleCheck
import DesignTokens.Token.Document

/-!
# Metadata has no influence

Of the keys that begin with `$`, the stylesheets of a document depend on `$value` alone. The kinds of tokens are read from
such keys too, but they are not written anywhere.
-/

namespace DesignTokens

/-! ## Runs that agree -/

/-- Two runs fail with the same fault, or give results that are related. -/
inductive Agree {α β : Type} (r : α → β → Prop) : Except Fault α → Except Fault β → Prop where
  | error (f : Fault) : Agree r (.error f) (.error f)
  | ok {a : α} {b : β} : r a b → Agree r (.ok a) (.ok b)

namespace Agree

variable {α β γ δ : Type} {r : α → β → Prop} {s : γ → δ → Prop} {x : Except Fault α} {y : Except Fault β}

theorem bind {f : α → Except Fault γ} {k : β → Except Fault δ} (h : Agree r x y)
    (hf : ∀ a b, r a b → Agree s (f a) (k b)) : Agree s (x >>= f) (y >>= k) := by
  cases h with
  | error e => exact .error e
  | ok hab => exact hf _ _ hab

theorem map {f : α → γ} {k : β → δ} (h : Agree r x y) (hf : ∀ a b, r a b → s (f a) (k b)) :
    Agree s (x.map f) (y.map k) := by
  cases h with
  | error e => exact .error e
  | ok hab => exact .ok (hf _ _ hab)

theorem of_map {f : α → γ} {k : β → δ} (h : Agree s (x.map f) (y.map k)) : Agree (fun a b => s (f a) (k b)) x y := by
  cases x <;> cases y <;> cases h
  · exact .error _
  · exact .ok ‹_›

theorem bind_eq {f : α → Except Fault γ} {k : β → Except Fault γ} (h : Agree r x y)
    (hf : ∀ a b, r a b → f a = k b) : (x >>= f) = (y >>= k) := by
  cases h with
  | error e => rfl
  | ok hab => exact hf _ _ hab

end Agree

/-! ## Values without metadata -/

namespace Document

/-- Keys of metadata that say nothing about values. -/
def isRemark (key : String) : Bool := isMetadata key && key != "$value"

end Document

namespace Json

open Document

mutual

/-- The value without remarks: no object in it, at any depth, has a key that begins with `$`, apart from `$value`. -/
def bare : Json → Json
  | array items => array (bareItems items)
  | object members => object (bareMembers members)
  | j => j

def bareItems : List Json → List Json
  | [] => []
  | j :: rest => bare j :: bareItems rest

def bareMembers : List (String × Json) → List (String × Json)
  | [] => []
  | (k, j) :: rest => if isRemark k then bareMembers rest else (k, bare j) :: bareMembers rest

end

theorem isObject_bare (j : Json) : j.bare.isObject = j.isObject := by
  cases j <;> rfl

theorem lookup_bareMembers {key : String} (h : isRemark key = false) (members : List (String × Json)) :
    (bareMembers members).lookup key = (members.lookup key).map bare := by
  induction members with
  | nil => rfl
  | cons m rest ih =>
      obtain ⟨k, j⟩ := m
      rw [bareMembers]
      by_cases hk : key = k
      · subst hk
        simp [h]
      · cases hr : isRemark k <;> simp [List.lookup_cons, beq_false_of_ne hk, ih]

end Json

namespace Document

open Json

theorem isRemark_eq_false {key : String} (h : isMetadata key = false) : isRemark key = false := by
  simp [isRemark, h]

theorem rawValue?_bareMembers (members : List (String × Json)) :
    rawValue? (bareMembers members) = (rawValue? members).map bare := by
  rw [rawValue?, rawValue?, lookup_bareMembers (by decide), lookup_bareMembers (by decide)]
  cases members.lookup "$value" with
  | some raw => rfl
  | none =>
      cases members.lookup "value" with
      | none => rfl
      | some raw => cases h : raw.isObject <;> simp [Option.filter, h, isObject_bare]

theorem tokenValue_bare (path : String) (j : Json) : tokenValue path j.bare = tokenValue path j := by
  cases j <;> rfl

end Document

/-! ## Nodes without kinds -/

namespace Node

mutual

/-- The node with the kinds of its tokens left out. -/
def plain : Node → Node
  | leaf token => leaf ⟨token.value, none⟩
  | group children => group (plainBelow children)

def plainBelow : List (String × Node) → List (String × Node)
  | [] => []
  | (k, node) :: rest => (k, plain node) :: plainBelow rest

end

theorem plainBelow_insert (key : String) (node : Node) (children : List (String × Node)) :
    plainBelow (Assoc.insert key node children) = Assoc.insert key node.plain (plainBelow children) := by
  induction children with
  | nil => rfl
  | cons b rest ih =>
      obtain ⟨k, n⟩ := b
      simp only [Assoc.insert, plainBelow]
      cases compare key k <;> simp [plainBelow, ih]

mutual

theorem tokens_plain : (node : Node) → tokens node.plain = (tokens node).map fun t => (t.1, ⟨t.2.value, none⟩)
  | .leaf token => rfl
  | .group children => by simp only [plain, tokens, tokensBelow_plainBelow children]

theorem tokensBelow_plainBelow :
    (children : List (String × Node)) →
      tokensBelow (plainBelow children) = (tokensBelow children).map fun t => (t.1, ⟨t.2.value, none⟩)
  | [] => rfl
  | (k, node) :: rest => by
      simp [plainBelow, tokensBelow, tokens_plain node, tokensBelow_plainBelow rest, Function.comp_def]

end

end Node

/-! ## Documents are read alike -/

namespace Document

open Json Node

mutual

theorem agree_node?_bare (path : String) :
    (j : Json) → Agree (fun n n' => n.map plain = n'.map plain) (node? path j.bare) (node? path j)
  | .object members => by
      rw [bare, node?, node?, rawValue?_bareMembers]
      cases rawValue? members with
      | some raw =>
          simp only [Option.map_some, tokenValue_bare]
          cases tokenValue path raw with
          | error f => exact .error f
          | ok v => exact .ok rfl
      | none => exact (agree_children_bareMembers path members).map fun _ _ h => congrArg (some ∘ Node.group) h
  | .null | .bool _ | .number _ | .text _ | .array _ => .ok rfl

theorem agree_children_bareMembers (path : String) :
    (members : List (String × Json)) →
      Agree (fun c c' => plainBelow c = plainBelow c') (children path (bareMembers members)) (children path members)
  | [] => .ok rfl
  | (key, json) :: rest => by
      have hrest := agree_children_bareMembers path rest
      have hnode := agree_node?_bare (path ++ "." ++ key) json
      rw [bareMembers]
      cases hm : isMetadata key with
      | true => cases hr : isRemark key <;> simpa [children, hm] using hrest
      | false =>
          simp only [isRemark_eq_false hm, children, hm, Bool.false_eq_true, if_false]
          generalize node? (path ++ "." ++ key) json.bare = x at hnode ⊢
          generalize node? (path ++ "." ++ key) json = y at hnode ⊢
          cases hnode with
          | error f => exact .error f
          | @ok n n' h =>
              cases n <;> cases n' <;> simp only [Option.map_none, Option.map_some, reduceCtorEq, Option.some.injEq] at h
              · exact hrest
              · refine hrest.map fun c c' hc => ?_
                rw [plainBelow_insert, plainBelow_insert, h, hc]

end

theorem agree_root_bareMembers (top : List (String × Json)) (layer : Layer) :
    Agree (fun c c' => plainBelow c.1 = plainBelow c'.1) (root (bareMembers top) layer) (root top layer) := by
  have hname : isRemark layer.name = false := isRemark_eq_false (by cases layer <;> decide)
  apply Agree.of_map (s := fun c c' => plainBelow c = plainBelow c') (f := Subtype.val) (k := Subtype.val)
  rw [map_val_root, map_val_root, lookup_bareMembers hname]
  cases top.lookup layer.name with
  | none => exact .error _
  | some j =>
      cases j with
      | object members => exact agree_children_bareMembers layer.name members
      | null | bool _ | number _ | text _ | array _ => exact .error _

theorem unknownKey?_bareMembers (top : List (String × Json)) : unknownKey? (bareMembers top) = unknownKey? top := by
  induction top with
  | nil => rfl
  | cons m rest ih =>
      obtain ⟨k, j⟩ := m
      rw [unknownKey?, unknownKey?] at ih
      rw [bareMembers]
      cases hr : isRemark k with
      | true =>
          have hm : isMetadata k = true := (Bool.and_eq_true_iff.1 hr).1
          simpa [unknownKey?, hm] using ih
      | false => simp [unknownKey?, List.find?_cons, ih]

end Document

namespace Graph

open Reference

variable {g g' : Graph}

/-- The graphs have the same tokens with the same values. -/
def SameValues (g g' : Graph) : Prop :=
  ∀ layer, (g.entries layer).map (fun e => (e.address, e.leaf.value)) =
    (g'.entries layer).map fun e => (e.address, e.leaf.value)

theorem sameValues_of_plainBelow (h : ∀ layer, Node.plainBelow (g.roots layer) = Node.plainBelow (g'.roots layer)) :
    g.SameValues g' := by
  have hentries : ∀ (g : Graph) layer, (g.entries layer).map (fun e => (e.address, e.leaf.value)) =
      (Node.tokensBelow (Node.plainBelow (g.roots layer))).map fun t => (⟨layer, t.1⟩, t.2.value) := by
    intro g layer
    simp [entries, Node.tokensBelow_plainBelow, Function.comp_def]
  intro layer
  rw [hentries, hentries, h]

theorem agree_ofJson_bare (j : Json) : Agree SameValues (ofJson j.bare) (ofJson j) := by
  cases j with
  | object top =>
      rw [Json.bare, ofJson, ofJson, Document.unknownKey?_bareMembers]
      cases Document.unknownKey? top with
      | some key => exact .error _
      | none =>
          refine (Document.agree_root_bareMembers top .primitives).bind fun p p' hp => ?_
          refine (Document.agree_root_bareMembers top .semantic).bind fun s s' hs => ?_
          refine (Document.agree_root_bareMembers top .component).bind fun c c' hc => ?_
          refine .ok (sameValues_of_plainBelow fun layer => ?_)
          cases layer with
          | primitives => exact hp
          | semantic => exact hs
          | component => exact hc
  | null | bool _ | number _ | text _ | array _ => exact .error _

/-! ## Graphs are compiled alike -/

namespace SameValues

theorem isSome_leaf? (h : g.SameValues g') (a : Address) : (g.leaf? a).isSome = (g'.leaf? a).isSome := by
  have hmem : ∀ g : Graph, (g.leaf? a).isSome = true ↔
      a ∈ ((g.entries a.layer).map fun e => (e.address, e.leaf.value)).map Prod.fst := by
    intro g
    rw [Option.isSome_iff_exists]
    simp only [List.map_map, List.mem_map, Function.comp_apply, mem_entries_iff]
    constructor
    · rintro ⟨leaf, hleaf⟩
      exact ⟨⟨a, leaf⟩, ⟨rfl, hleaf⟩, rfl⟩
    · rintro ⟨e, ⟨_, hleaf⟩, rfl⟩
      exact ⟨e.leaf, hleaf⟩
  rw [Bool.eq_iff_iff, hmem, hmem, h]

theorem resolve_eq (h : g.SameValues g') : g.resolve = g'.resolve := by
  funext reference context
  simp only [resolve, h.isSome_leaf?]

theorem compileValue_eq (h : g.SameValues g') : g.compileValue = g'.compileValue := by
  funext value context
  cases value with
  | scalar _ => rfl
  | text s => simp only [compileValue, substitute, h.resolve_eq]

/-- A run over tokens that looks at their addresses and values only. -/
theorem mapM_eq {α : Type} {es es' : List Entry} {step step' : Entry → Except Fault α}
    (h : es.map (fun e => (e.address, e.leaf.value)) = es'.map fun e => (e.address, e.leaf.value))
    (f : Address × TokenValue → Except Fault α) (hs : ∀ e, step e = f (e.address, e.leaf.value))
    (hs' : ∀ e, step' e = f (e.address, e.leaf.value)) : es.mapM step = es'.mapM step' := by
  have hmap := congrArg (List.mapM f) h
  rw [List.mapM_map, List.mapM_map] at hmap
  rw [funext hs, funext hs']
  exact hmap

theorem layerVariables_eq (h : g.SameValues g') : g.layerVariables = g'.layerVariables := by
  funext layer
  refine mapM_eq (h layer) (fun t => (g.compileValue t.2 t.1.path).map (⟨t.1.variableName, ·, t.1.path⟩))
    (fun _ => rfl) fun e => ?_
  rw [variableOf, h.compileValue_eq]

theorem edges_eq (h : g.SameValues g') : g.edges = g'.edges := by
  have hall : g.allEntries.map (fun e => (e.address, e.leaf.value)) =
      g'.allEntries.map fun e => (e.address, e.leaf.value) := by
    simp only [allEntries, List.map_flatMap, h _]
  have htargets : g.targets = g'.targets := by
    funext e
    simp only [targets, h.resolve_eq]
  rw [edges, edges, htargets]
  refine congrArg _ (mapM_eq hall (fun t => (g'.targets ⟨t.1, t.2, none⟩).map (t.1.path, ·)) (fun _ => rfl) fun _ => rfl)

theorem compile_eq (h : g.SameValues g') : g.compile = g'.compile := by
  funext fileLabel sourceLabel
  simp only [compile, checkCycles, h.layerVariables_eq, h.edges_eq]

end SameValues

end Graph

/-- Documents that are equal without their remarks have the same stylesheets, or the same fault. -/
theorem compile_eq_of_bare_eq {j k : Json} (h : j.bare = k.bare) (fileLabel : Layer → String) (sourceLabel : String) :
    (do (← Graph.ofJson j).compile fileLabel sourceLabel) = (do (← Graph.ofJson k).compile fileLabel sourceLabel) := by
  have hbare : ∀ j : Json, (do (← Graph.ofJson j.bare).compile fileLabel sourceLabel) =
      (do (← Graph.ofJson j).compile fileLabel sourceLabel) := fun j =>
    (Graph.agree_ofJson_bare j).bind_eq fun _ _ hg => congrFun₂ hg.compile_eq fileLabel sourceLabel
  rw [← hbare j, ← hbare k, h]

/-- Remarks at the top, between tokens and in a token; some of them look like tokens without a value. -/
private def remarkedDocument : Json :=
  .object [
    ("$themes", .array [.object [("$value", .null)]]),
    ("component", .object []),
    ("primitives", .object [
      ("$old", .object [("gap", .object [("$value", .null)])]),
      ("gap", .object [("$extensions", .object [("$value", .null)]), ("$type", .text "dimension"),
        ("$value", .text "4")])]),
    ("semantic", .object [("gap", .object [("$value", .text "{primitives.gap} * 2")])])]

private def remarklessDocument : Json :=
  .object [
    ("component", .object []),
    ("primitives", .object [("gap", .object [("$value", .text "4")])]),
    ("semantic", .object [("gap", .object [("$value", .text "{primitives.gap} * 2")])])]

private def remarkless : Graph := (Graph.ofJson remarklessDocument).toOption.get (by decide +kernel)

theorem compile_eq_of_bare_eq_gap :
    remarkedDocument.bare = remarklessDocument.bare ∧ remarkedDocument ≠ remarklessDocument ∧
      ∃ sheets, (do (← Graph.ofJson remarkedDocument).compile Layer.name "tokens") = .ok sheets ∧
        (do (← Graph.ofJson remarklessDocument).compile Layer.name "tokens") = .ok sheets := by
  have hbare : remarkedDocument.bare = remarklessDocument.bare := by rfl
  have hne : remarkedDocument ≠ remarklessDocument := by simp [remarkedDocument, remarklessDocument]
  have hedges : remarkless.edges = .ok [("primitives.gap", []), ("semantic.gap", ["primitives.gap"])] := by
    decide +kernel
  have hcycles : remarkless.checkCycles = .ok () := by
    rw [Graph.checkCycles_of_edges hedges]
    simp [Reference.findCycle?, Reference.visitAll, Reference.visit_eq, List.lookup_cons, Except.map]
  have hsome : (remarkless.compile Layer.name "tokens").toOption.isSome = true := by
    rw [Graph.compile_of_checkCycles hcycles]
    decide +kernel
  have hok : (do (← Graph.ofJson remarklessDocument).compile Layer.name "tokens") = .ok _ :=
    bind_eq_ok_iff.2 ⟨remarkless, eq_ok_get _, eq_ok_get hsome⟩
  exact ⟨hbare, hne, _, (compile_eq_of_bare_eq hbare _ _).trans hok, hok⟩

end DesignTokens
