import DesignTokens.Token.Graph

/-!
# The tokens listed are those found by their keys

Going down key by key and listing a tree depth first agree, because no group has two nodes with one key.
-/

namespace DesignTokens

namespace Node

/-- The node that keys lead to from a node; no key leads to the node itself. -/
def follow? : Node → List String → Option Node
  | node, [] => some node
  | leaf _, _ :: _ => none
  | group children, k :: ks => descend? children (k :: ks)

theorem descend?_cons (children : List (String × Node)) (k : String) (ks : List String) :
    descend? children (k :: ks) = (children.lookup k).bind (·.follow? ks) := by
  cases ks with
  | nil =>
      rw [descend?]
      cases h : children.lookup k with
      | none => rfl
      | some node => cases node <;> rfl
  | cons l ks =>
      rw [descend?]
      · cases h : children.lookup k with
        | none => rfl
        | some node => cases node <;> rfl
      · exact List.cons_ne_nil _ _

theorem Ordered.lookup_eq_none {k : String} {node : Node} {rest : List (String × Node)}
    (h : Ordered (.group ((k, node) :: rest))) : rest.lookup k = none := by
  cases h with
  | group hs _ => exact Assoc.lookup_eq_none_of_lt fun b hb => (List.pairwise_cons.1 hs).1 b hb

theorem Ordered.rest {b : String × Node} {rest : List (String × Node)} (h : Ordered (.group (b :: rest))) :
    Ordered (.group rest) := by
  cases h with
  | group hs hm => exact .group (List.pairwise_cons.1 hs).2 fun b hb => hm b (List.mem_cons_of_mem _ hb)

theorem Ordered.child {b : String × Node} {children : List (String × Node)} (h : Ordered (.group children))
    (hb : b ∈ children) : Ordered b.2 := by
  cases h with
  | group _ hm => exact hm b hb

mutual

theorem mem_tokens_iff {ks : List String} {t : Leaf} :
    (node : Node) → Ordered node → ((ks, t) ∈ tokens node ↔ (node.follow? ks).bind leaf? = some t)
  | .leaf token, _ => by
      cases ks with
      | nil =>
          simp only [tokens, List.mem_singleton, Prod.mk.injEq, true_and, follow?, Option.bind_some, leaf?,
            Option.some.injEq]
          exact eq_comm
      | cons k ks => simp [tokens, follow?]
  | .group children, h => by
      rw [tokens, mem_tokensBelow_iff children h]
      cases ks with
      | nil => simp [descend?, follow?, leaf?]
      | cons k ks => rfl

theorem mem_tokensBelow_iff {ks : List String} {t : Leaf} :
    (children : List (String × Node)) → Ordered (.group children) →
      ((ks, t) ∈ tokensBelow children ↔ (descend? children ks).bind leaf? = some t)
  | [], _ => by
      cases ks with
      | nil => simp [tokensBelow, descend?]
      | cons k ks => simp [tokensBelow, descend?_cons]
  | (k, node) :: rest, h => by
      have hnode : ∀ ls, (ls, t) ∈ tokens node ↔ (node.follow? ls).bind leaf? = some t :=
        fun ls => mem_tokens_iff node (h.child (List.mem_cons_self ..))
      have hrest : (ks, t) ∈ tokensBelow rest ↔ (descend? rest ks).bind leaf? = some t :=
        mem_tokensBelow_iff rest h.rest
      rw [tokensBelow, List.mem_append, hrest]
      cases ks with
      | nil => simp [descend?]
      | cons l ls =>
          rw [descend?_cons, descend?_cons, List.lookup_cons]
          by_cases hl : l = k
          · subst hl
            simp [h.lookup_eq_none, hnode]
          · simp [beq_false_of_ne hl, Ne.symm hl]

end

end Node

namespace Graph

theorem mem_entries_iff {g : Graph} {layer : Layer} {e : Entry} :
    e ∈ g.entries layer ↔ e.address.layer = layer ∧ g.leaf? e.address = some e.leaf := by
  obtain ⟨⟨l, ks⟩, t⟩ := e
  have hmem : (ks, t) ∈ Node.tokensBelow (g.roots layer) ↔
      (Node.descend? (g.roots layer) ks).bind Node.leaf? = some t :=
    Node.mem_tokensBelow_iff (g.roots layer) (g.ordered layer)
  simp only [entries, List.mem_map, Prod.exists, Entry.mk.injEq, Address.mk.injEq]
  constructor
  · rintro ⟨ks', t', hm, ⟨rfl, rfl⟩, rfl⟩
    exact ⟨rfl, hmem.1 hm⟩
  · rintro ⟨rfl, h⟩
    exact ⟨ks, t, hmem.2 h, ⟨rfl, rfl⟩, rfl⟩

theorem mem_allEntries_iff {g : Graph} {e : Entry} : e ∈ g.allEntries ↔ g.leaf? e.address = some e.leaf := by
  simp only [allEntries, List.mem_flatMap, mem_entries_iff]
  constructor
  · rintro ⟨_, _, _, h⟩
    exact h
  · intro h
    exact ⟨_, Layer.mem_all _, rfl, h⟩

end Graph

end DesignTokens
