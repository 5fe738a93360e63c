import DesignTokens.Reference.Cycle
import Mathlib.Data.List.Chain
import Mathlib.Data.List.Nodup
import Mathlib.Data.List.TakeWhile
import Mathlib.Logic.Relation

/-!
# The search finds a cycle exactly if there is one

What the search has done is a list in which the targets of each node stand behind it, so none of its nodes lies on a
cycle. What it has on its way is a path back to the start, so a node met again closes a cycle.
-/

namespace DesignTokens.Reference

/-! ## Cycles of a relation -/

section Relation

variable {α β : Type} {r : α → α → Prop}

/-- The nodes of a cycle in order: each leads to the next one, and only the last is a repetition, of the first. -/
def IsCycle (r : α → α → Prop) (ns : List α) : Prop :=
  ∃ n rest, ns = n :: rest ++ [n] ∧ (n :: rest).Nodup ∧ ns.IsChain r

/-- Nothing leads back to itself. -/
def Acyclic (r : α → α → Prop) : Prop := ∀ n, ¬Relation.TransGen r n n

theorem transGen_of_isChain {n m : α} {ns : List α} (h : (n :: ns ++ [m]).IsChain r) : Relation.TransGen r n m := by
  induction ns generalizing n with
  | nil => exact .single (List.isChain_cons_cons.1 h).1
  | cons k ns ih =>
      obtain ⟨hk, hrest⟩ := List.isChain_cons_cons.1 h
      exact .head hk (ih hrest)

theorem IsCycle.not_acyclic {ns : List α} (h : IsCycle r ns) : ¬Acyclic r := by
  obtain ⟨n, rest, rfl, _, hchain⟩ := h
  exact fun hac => hac n (transGen_of_isChain hchain)

end Relation

/-! ## The relation of an edge map -/

variable {edges : Edges}

/-- The map lists `b` among the targets of `a`. -/
def Edge (edges : Edges) (a b : String) : Prop := ∃ targets, edges.lookup a = some targets ∧ b ∈ targets

theorem Edge.mem_keys {a b : String} (h : Edge edges a b) : a ∈ edges.map Prod.fst := by
  obtain ⟨targets, ht, _⟩ := h
  induction edges with
  | nil => cases ht
  | cons e rest ih =>
      rw [List.lookup_cons] at ht
      split at ht
      · next hk => exact List.mem_map.2 ⟨e, List.mem_cons_self .., (eq_of_beq hk).symm⟩
      · exact List.mem_cons_of_mem _ (ih ht)

/-! ## What is done lies on no cycle -/

/-- The targets of each node stand behind it. -/
def Settled (edges : Edges) : List String → Prop
  | [] => True
  | n :: rest => (∀ m, Edge edges n m → m ∈ rest) ∧ Settled edges rest

theorem Settled.not_transGen {done : List String} (h : Settled edges done) {n : String} (hn : n ∈ done) :
    ¬Relation.TransGen (Edge edges) n n := by
  induction done generalizing n with
  | nil => cases hn
  | cons d rest ih =>
      rcases List.mem_cons.1 hn with rfl | hn
      · intro hc
        -- A cycle through the head goes through the node behind it that its first step leads to.
        obtain ⟨m, hm, hmn⟩ := Relation.TransGen.head'_iff.1 hc
        exact ih h.2 (h.1 m hm) (.tail' hmn hm)
      · exact ih h.2 hn

/-! ## The four cases of a visit -/

section Visit

variable {way done targets : List String} {node : String}

theorem visit_of_done (hd : done.contains node = true) : visit edges way done node = .ok done := by
  rw [visit, if_pos hd]

theorem visit_of_way (hd : ¬done.contains node = true) (hw : way.contains node = true) :
    visit edges way done node = .error (node :: (way.takeWhile (· != node)).reverse ++ [node]) := by
  rw [visit, if_neg hd, dif_pos hw]

theorem visit_of_lookup_none (hd : ¬done.contains node = true) (hw : ¬way.contains node = true)
    (hl : edges.lookup node = none) : visit edges way done node = .ok (node :: done) := by
  rw [visit, if_neg hd, dif_neg hw]
  split
  · rfl
  · next ht => rw [hl] at ht; cases ht

theorem visit_of_lookup_some (hd : ¬done.contains node = true) (hw : ¬way.contains node = true)
    (hl : edges.lookup node = some targets) :
    visit edges way done node = (visitAll edges (node :: way) done targets).map (node :: ·) := by
  rw [visit, if_neg hd, dif_neg hw]
  split
  · next ht => rw [hl] at ht; cases ht
  · next ht => rw [hl] at ht; cases ht; rfl

theorem visit_eq : visit edges way done node =
    if done.contains node then .ok done
    else if way.contains node then .error (node :: (way.takeWhile (· != node)).reverse ++ [node])
    else
      match edges.lookup node with
      | none => .ok (node :: done)
      | some targets => (visitAll edges (node :: way) done targets).map (node :: ·) := by
  split
  · next hd => exact visit_of_done hd
  · next hd =>
      split
      · next hw => exact visit_of_way hd hw
      · next hw =>
          split
          · next hl => exact visit_of_lookup_none hd hw hl
          · next hl => exact visit_of_lookup_some hd hw hl

theorem edge_iff_of_lookup_some (hl : edges.lookup node = some targets) {m : String} :
    Edge edges node m ↔ m ∈ targets := by
  constructor
  · rintro ⟨ts, ht, hm⟩
    rw [hl] at ht
    cases ht
    exact hm
  · exact fun hm => ⟨targets, hl, hm⟩

end Visit

/-! ## A search that ends well -/

theorem visit_ok (edges : Edges) :
    (∀ way done node, ∀ done', Settled edges done → visit edges way done node = .ok done' →
      Settled edges done' ∧ node ∈ done' ∧ done ⊆ done') ∧
    ∀ way done nodes, ∀ done', Settled edges done → visitAll edges way done nodes = .ok done' →
      Settled edges done' ∧ nodes ⊆ done' ∧ done ⊆ done' := by
  apply visit.mutual_induct
  case case1 =>
    intro way done node hd done' hs h
    rw [visit_of_done hd] at h
    cases h
    exact ⟨hs, by simpa using hd, List.Subset.refl _⟩
  case case2 =>
    intro way done node hd hw done' hs h
    rw [visit_of_way hd hw] at h
    cases h
  case case3 =>
    intro way done node hd hw hl done' hs h
    rw [visit_of_lookup_none hd hw hl] at h
    cases h
    refine ⟨⟨?_, hs⟩, List.mem_cons_self .., List.subset_cons_self ..⟩
    rintro m ⟨targets, ht, _⟩
    rw [hl] at ht
    cases ht
  case case4 =>
    intro way done node hd hw targets hl ih done' hs h
    rw [visit_of_lookup_some hd hw hl] at h
    cases hv : visitAll edges (node :: way) done targets with
    | error c => rw [hv] at h; cases h
    | ok more =>
        rw [hv] at h
        cases h
        obtain ⟨hsm, hts, hsub⟩ := ih more hs hv
        refine ⟨⟨fun m hm => hts ((edge_iff_of_lookup_some hl).1 hm), hsm⟩, List.mem_cons_self .., ?_⟩
        exact List.Subset.trans hsub (List.subset_cons_self ..)
  case case5 =>
    intro way done done' hs h
    rw [visitAll] at h
    cases h
    exact ⟨hs, List.nil_subset _, List.Subset.refl _⟩
  case case6 =>
    intro way done node rest c hv _ done' hs h
    rw [visitAll, hv] at h
    cases h
  case case7 =>
    intro way done node rest more hv ih₁ ih₂ done' hs h
    rw [visitAll, hv] at h
    obtain ⟨hsm, hn, hsub⟩ := ih₁ more hs hv
    obtain ⟨hs', hrest, hsub'⟩ := ih₂ done' hsm h
    exact ⟨hs', List.cons_subset.2 ⟨hsub' hn, hrest⟩, List.Subset.trans hsub hsub'⟩

/-! ## A search that meets its own way -/

/-- Each node of a way is a target of the one behind it. -/
def IsWay (edges : Edges) (way : List String) : Prop := way.IsChain (fun a b => Edge edges b a)

/-- The way from its head back to a node on it, turned round, is a cycle. -/
theorem isCycle_of_isWay {way : List String} {node : String} (hway : IsWay edges (node :: way)) (hnd : way.Nodup)
    (hmem : node ∈ way) : IsCycle (Edge edges) (node :: (way.takeWhile (· != node)).reverse ++ [node]) := by
  have hsplit : way = way.takeWhile (· != node) ++ way.dropWhile (· != node) := List.takeWhile_append_dropWhile.symm
  have hnot : node ∉ way.takeWhile (· != node) := by
    intro hm
    simpa using List.mem_takeWhile_imp hm
  obtain ⟨rest, hrest⟩ : ∃ rest, way.dropWhile (· != node) = node :: rest := by
    cases hd : way.dropWhile (· != node) with
    | nil =>
        rw [hd, List.append_nil] at hsplit
        exact absurd (hsplit ▸ hmem) hnot
    | cons c rest =>
        have hc : c = node := by simpa [hd] using List.head?_dropWhile_not (· != node) way
        exact ⟨rest, by rw [hc]⟩
  refine ⟨node, _, rfl, ?_, ?_⟩
  · rw [List.nodup_cons, List.mem_reverse, List.nodup_reverse]
    exact ⟨hnot, hnd.sublist (List.takeWhile_sublist _)⟩
  · have hturn : node :: (way.takeWhile (· != node)).reverse ++ [node] =
        (node :: way.takeWhile (· != node) ++ [node]).reverse := by simp
    rw [hturn, List.isChain_reverse]
    refine List.IsChain.prefix hway ⟨rest, ?_⟩
    rw [List.cons_append, List.cons_append, List.append_assoc, List.singleton_append, ← hrest, ← hsplit]

theorem visit_error (edges : Edges) :
    (∀ way done node, ∀ cycle, IsWay edges (node :: way) → way.Nodup → visit edges way done node = .error cycle →
      IsCycle (Edge edges) cycle) ∧
    ∀ way done nodes, ∀ cycle, (∀ n ∈ nodes, IsWay edges (n :: way)) → way.Nodup →
      visitAll edges way done nodes = .error cycle → IsCycle (Edge edges) cycle := by
  apply visit.mutual_induct
  case case1 =>
    intro way done node hd cycle _ _ h
    rw [visit_of_done hd] at h
    cases h
  case case2 =>
    intro way done node hd hw cycle hway hnd h
    rw [visit_of_way hd hw] at h
    cases h
    exact isCycle_of_isWay hway hnd (by simpa using hw)
  case case3 =>
    intro way done node hd hw hl cycle _ _ h
    rw [visit_of_lookup_none hd hw hl] at h
    cases h
  case case4 =>
    intro way done node hd hw targets hl ih cycle hway hnd h
    rw [visit_of_lookup_some hd hw hl] at h
    cases hv : visitAll edges (node :: way) done targets with
    | ok more => rw [hv] at h; cases h
    | error c =>
        rw [hv] at h
        obtain rfl : c = cycle := Except.error.inj h
        refine ih c (fun n hn => ?_) (List.nodup_cons.2 ⟨by simpa using hw, hnd⟩) hv
        exact List.isChain_cons_cons.2 ⟨(edge_iff_of_lookup_some hl).2 hn, hway⟩
  case case5 =>
    intro way done cycle _ _ h
    rw [visitAll] at h
    cases h
  case case6 =>
    intro way done node rest c hv ih cycle hway hnd h
    rw [visitAll, hv] at h
    cases h
    exact ih c (hway node (List.mem_cons_self ..)) hnd hv
  case case7 =>
    intro way done node rest more hv _ ih cycle hway hnd h
    rw [visitAll, hv] at h
    exact ih cycle (fun n hn => hway n (List.mem_cons_of_mem _ hn)) hnd h

/-! ## The search as a whole -/

theorem isCycle_of_findCycle? {cycle : List String} (h : findCycle? edges = some cycle) :
    IsCycle (Edge edges) cycle := by
  unfold findCycle? at h
  split at h
  · next hv =>
      cases h
      exact (visit_error edges).2 [] [] _ _ (fun _ _ => List.isChain_singleton _) List.nodup_nil hv
  · cases h

theorem findCycle?_eq_none_iff : findCycle? edges = none ↔ Acyclic (Edge edges) := by
  constructor
  · intro h n hn
    unfold findCycle? at h
    split at h
    · cases h
    · next done hv =>
        obtain ⟨hs, hkeys, _⟩ := (visit_ok edges).2 [] [] _ _ trivial hv
        obtain ⟨m, hm, _⟩ := Relation.TransGen.head'_iff.1 hn
        exact hs.not_transGen (hkeys hm.mem_keys) hn
  · intro hac
    cases h : findCycle? edges with
    | none => rfl
    | some cycle => exact absurd hac (isCycle_of_findCycle? h).not_acyclic

end DesignTokens.Reference
