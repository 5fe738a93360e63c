import DesignTokens.Proofs.Entries
import Mathlib.Data.List.Nodup

/-!
# A tree as it is listed and as one goes down in it

The tokens of a layer are listed in the order of their keys, each of them once. On the way to a token there are groups
only, so the keys of a token do not go on beyond those of another one.
-/

namespace DesignTokens

namespace Node

/-! ## Ways down -/

theorem follow?_append (node : Node) (ks ls : List String) :
    node.follow? (ks ++ ls) = (node.follow? ks).bind (·.follow? ls) := by
  induction ks generalizing node with
  | nil => rfl
  | cons k ks ih =>
      cases node with
      | leaf token => rfl
      | group children =>
          change descend? children (k :: (ks ++ ls)) = (descend? children (k :: ks)).bind (·.follow? ls)
          simp only [descend?_cons, Option.bind_assoc, ih]

theorem descend?_append {children : List (String × Node)} {ks : List String} (hk : ks ≠ []) (ls : List String) :
    descend? children (ks ++ ls) = (descend? children ks).bind (·.follow? ls) := by
  obtain ⟨k, ks, rfl⟩ := List.exists_cons_of_ne_nil hk
  exact follow?_append (.group children) (k :: ks) ls

/-- Only a group has anything below it. -/
theorem exists_group_of_follow? {node below : Node} {ks : List String} (hk : ks ≠ [])
    (h : node.follow? ks = some below) : ∃ children, node = .group children := by
  cases node with
  | leaf token =>
      cases ks with
      | nil => exact absurd rfl hk
      | cons k ks => cases h
  | group children => exact ⟨children, rfl⟩

/-! ## The order of the tokens -/

theorem Ordered.key_lt {b c : String × Node} {rest : List (String × Node)} (h : Ordered (.group (b :: rest)))
    (hc : c ∈ rest) : b.1 < c.1 := by
  cases h with
  | group hs _ => exact compareOfLessAndEq_eq_lt.1 ((List.pairwise_cons.1 hs).1 c hc)

theorem exists_child_of_mem_tokensBelow {t : List String × Leaf} :
    {children : List (String × Node)} → t ∈ tokensBelow children → ∃ b ∈ children, ∃ ks, t.1 = b.1 :: ks
  | [], h => by simp [tokensBelow] at h
  | (k, node) :: rest, h => by
      rw [tokensBelow, List.mem_append] at h
      rcases h with h | h
      · obtain ⟨u, _, rfl⟩ := List.mem_map.1 h
        exact ⟨_, List.mem_cons_self .., u.1, rfl⟩
      · obtain ⟨b, hb, hks⟩ := exists_child_of_mem_tokensBelow h
        exact ⟨b, List.mem_cons_of_mem _ hb, hks⟩

mutual

theorem pairwise_tokens : (node : Node) → Ordered node → (tokens node).Pairwise fun s t => s.1 < t.1
  | .leaf _, _ => List.pairwise_singleton ..
  | .group children, h => pairwise_tokensBelow children h

/-- The keys of the tokens increase, since those of each group do. -/
theorem pairwise_tokensBelow :
    (children : List (String × Node)) → Ordered (.group children) →
      (tokensBelow children).Pairwise fun s t => s.1 < t.1
  | [], _ => .nil
  | (k, node) :: rest, h => by
      rw [tokensBelow, List.pairwise_append]
      refine ⟨?_, pairwise_tokensBelow rest h.rest, fun s hs t ht => ?_⟩
      · have hnode := pairwise_tokens node (h.child (List.mem_cons_self ..))
        exact List.pairwise_map.2 (hnode.imp fun hst => List.cons_lt_cons_iff.2 (.inr ⟨rfl, hst⟩))
      · obtain ⟨s, _, rfl⟩ := List.mem_map.1 hs
        obtain ⟨b, hb, ks, hks⟩ := exists_child_of_mem_tokensBelow ht
        rw [hks]
        exact List.cons_lt_cons_iff.2 (.inl (h.key_lt hb))

end

end Node

namespace Graph

variable {g : Graph} {layer : Layer}

theorem get?_append {ks : List String} (hk : ks ≠ []) (ls : List String) :
    g.get? ⟨layer, ks ++ ls⟩ = (g.get? ⟨layer, ks⟩).bind (·.follow? ls) :=
  Node.descend?_append hk ls

theorem exists_get?_of_leaf? {a : Address} {token : Leaf} (h : g.leaf? a = some token) :
    g.get? a = some (.leaf token) := by
  obtain ⟨node, hget, hleaf⟩ := Option.bind_eq_some_iff.1 h
  cases node with
  | leaf t => cases hleaf; exact hget
  | group children => cases hleaf

/-- On the way to a token there are groups. -/
theorem exists_group_of_leaf? {ks ls : List String} {token : Leaf} (h : g.leaf? ⟨layer, ks ++ ls⟩ = some token)
    (hk : ks ≠ []) (hl : ls ≠ []) : ∃ children, g.get? ⟨layer, ks⟩ = some (.group children) := by
  have hget := exists_get?_of_leaf? h
  rw [get?_append hk] at hget
  obtain ⟨node, hnode, hfollow⟩ := Option.bind_eq_some_iff.1 hget
  obtain ⟨children, rfl⟩ := Node.exists_group_of_follow? hl hfollow
  exact ⟨children, hnode⟩

theorem segments_ne_nil {a : Address} {token : Leaf} (h : g.leaf? a = some token) : a.segments ≠ [] := by
  intro hnil
  simp [leaf?, get?, hnil, Node.descend?] at h

theorem pairwise_entries : (g.entries layer).Pairwise fun e f => e.address.segments < f.address.segments :=
  List.pairwise_map.2 (Node.pairwise_tokensBelow (g.roots layer) (g.ordered layer))

theorem nodup_entries : (g.entries layer).Nodup := by
  refine pairwise_entries.imp fun {e f} hlt => ?_
  rintro rfl
  exact List.lt_irrefl _ hlt

/-- The listing of a layer and the look-up by keys see the same tree: a token is listed, and once, exactly if its keys
lead to it, and the listing is in lexicographic order of the keys. No listed token has the keys of another one with more
keys behind them, since the keys on the way to a token lead to groups. -/
theorem entries_exact (g : Graph) (layer : Layer) :
    (∀ e : Entry, (g.entries layer).count e =
      if e.address.layer = layer ∧ g.leaf? e.address = some e.leaf then 1 else 0) ∧
    (g.entries layer).Pairwise (fun e f => e.address.segments < f.address.segments) ∧
    (∀ e ∈ g.entries layer, ∀ f ∈ g.entries layer,
      e.address.segments <+: f.address.segments → e.address.segments = f.address.segments) ∧
    ∀ e ∈ g.entries layer, ∀ ks, ks ≠ [] → ks <+: e.address.segments → ks ≠ e.address.segments →
      ∃ children, g.get? ⟨layer, ks⟩ = some (.group children) := by
  have hgroup : ∀ e ∈ g.entries layer, ∀ ks, ks ≠ [] → ks <+: e.address.segments → ks ≠ e.address.segments →
      ∃ children, g.get? ⟨layer, ks⟩ = some (.group children) := by
    rintro ⟨⟨_, _⟩, token⟩ he ks hk ⟨ls, rfl⟩ hne
    obtain ⟨rfl, hleaf⟩ := mem_entries_iff.1 he
    exact exists_group_of_leaf? hleaf hk fun hl => hne (by simp [hl])
  refine ⟨fun e => ?_, pairwise_entries, fun e he f hf hpre => ?_, hgroup⟩
  · simp only [nodup_entries.count, mem_entries_iff]
  · by_contra hne
    obtain ⟨⟨_, ks⟩, token⟩ := e
    obtain ⟨rfl, hleaf⟩ := mem_entries_iff.1 he
    obtain ⟨children, hget⟩ := hgroup f hf ks (segments_ne_nil hleaf) hpre hne
    rw [exists_get?_of_leaf? hleaf] at hget
    cases hget

end Graph

end DesignTokens
