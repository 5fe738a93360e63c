import DesignTokens.Proofs.Cycle
import DesignTokens.Proofs.Steps
import Mathlib.Data.List.Dedup
import Mathlib.Data.List.Perm.Subperm
import Mathlib.Logic.Function.Basic

/-!
# The search with marks and a stack

The same search as a run over marks and a stack that all visits share. What is marked as in progress is what stands on
the stack, and this is the way of the search; so a visit goes deeper only to a node that is not on the way, and no
deeper than there are nodes.
-/

namespace DesignTokens.Reference

/-- How far a search has come with a node. -/
inductive Mark where
  | inProgress
  | done
  deriving DecidableEq

/-- What the visits of a search share: the marks, and the stack with the latest node last. -/
@[ext]
structure Trail where
  marks : String → Option Mark
  stack : List String

/-- Why a search stops. -/
inductive Stop where
  | tooDeep
  | cycle (chain : List String)

namespace Trail

def empty : Trail := ⟨fun _ => none, []⟩

/-- Marks a node as in progress and puts it on the stack. -/
def enter (s : Trail) (node : String) : Trail :=
  ⟨Function.update s.marks node (some .inProgress), s.stack ++ [node]⟩

/-- Takes the last node off the stack and marks `node` as done. -/
def leave (s : Trail) (node : String) : Trail := ⟨Function.update s.marks node (some .done), s.stack.dropLast⟩

/-- The stack from a node on, and the node again; the whole stack if the node is not on it. -/
def chain (s : Trail) (node : String) : List String := s.stack.drop ((s.stack.idxOf? node).getD 0) ++ [node]

end Trail

/-- Visits a node, with at most `depth` visits one within the other. -/
def explore (edges : Edges) : (depth : Nat) → Trail → String → Except Stop Trail
  | 0, _, _ => .error .tooDeep
  | depth + 1, s, node =>
    match s.marks node with
    | some .done => .ok s
    | some .inProgress => .error (.cycle (s.chain node))
    | none => (((edges.lookup node).getD []).foldlM (explore edges depth) (s.enter node)).map (·.leave node)

/-- Visits the keys of the map, one after the other. -/
def search (edges : Edges) (depth : Nat) : Except Stop Trail :=
  (edges.map Prod.fst).foldlM (explore edges depth) .empty

/-- The keys and targets of the map, each of them once. -/
def nodes (edges : Edges) : List String := (edges.flatMap fun e => e.1 :: e.2).dedup

/-- In a search without a limit `node` is visited with the trail `s`, within `depth - 1` other visits. -/
inductive Visits (edges : Edges) : (depth : Nat) → Trail → String → Prop where
  | key {before after : List String} {node : String} {limit : Nat} {s : Trail} :
      edges.map Prod.fst = before ++ node :: after → before.foldlM (explore edges limit) .empty = .ok s →
        Visits edges 1 s node
  | target {depth limit : Nat} {s s' : Trail} {node target : String} {before after : List String} :
      Visits edges depth s node → s.marks node = none → (edges.lookup node).getD [] = before ++ target :: after →
        before.foldlM (explore edges limit) (s.enter node) = .ok s' → Visits edges (depth + 1) s' target

variable {edges : Edges} {way done targets : List String} {node : String} {depth : Nat} {s : Trail}

/-! ## The nodes of a map -/

theorem mem_nodes_of_key (h : node ∈ edges.map Prod.fst) : node ∈ nodes edges := by
  obtain ⟨e, he, rfl⟩ := List.mem_map.1 h
  exact List.mem_dedup.2 (List.mem_flatMap.2 ⟨e, he, List.mem_cons_self ..⟩)

theorem mem_nodes_of_target (hl : edges.lookup node = some targets) {target : String} (h : target ∈ targets) :
    target ∈ nodes edges :=
  List.mem_dedup.2
    (List.mem_flatMap.2 ⟨(node, targets), Assoc.mem_of_lookup_eq_some hl, List.mem_cons_of_mem _ h⟩)

/-! ## The trail of a way -/

/-- The trail of a search on a way, when it has done some nodes. -/
def Trail.of (way done : List String) : Trail :=
  ⟨fun n => if n ∈ done then some .done else if n ∈ way then some .inProgress else none, way.reverse⟩

namespace Trail

theorem of_nil : Trail.of [] [] = .empty := by
  simp [of, empty]

theorem enter_of (hd : node ∉ done) : (of way done).enter node = of (node :: way) done := by
  ext1
  · funext n
    by_cases hn : n = node
    · simp [enter, of, hn, hd]
    · simp [enter, of, hn]
  · simp [enter, of]

theorem leave_of : (of (node :: way) done).leave node = of way (node :: done) := by
  ext1
  · funext n
    by_cases hn : n = node
    · simp [leave, of, hn]
    · simp [leave, of, hn]
  · simp [leave, of]

/-- A way without repetitions has a node once, so the stack from there on is the way back to it. -/
theorem chain_of (hw : node ∈ way) (hnd : way.Nodup) :
    (of way done).chain node = node :: (way.takeWhile (· != node)).reverse ++ [node] := by
  obtain ⟨front, rest, rfl, hfront⟩ := List.eq_append_cons_of_mem hw
  have hrest : node ∉ rest := (List.nodup_cons.1 (List.nodup_append.1 hnd).2.1).1
  have htake : (front ++ node :: rest).takeWhile (· != node) = front := by
    have hpos : ∀ n ∈ front, (n != node) = true := by
      intro n hn
      exact bne_iff_ne.2 fun he => hfront (he ▸ hn)
    simp [List.takeWhile_append_of_pos hpos]
  have hidx : (rest.reverse ++ node :: front.reverse).idxOf? node = some rest.length := by
    have hnone : rest.reverse.findIdx? (· == node) = none :=
      List.findIdx?_eq_none_iff.2 fun n hn => beq_false_of_ne fun he => hrest (he ▸ List.mem_reverse.1 hn)
    simp [List.idxOf?, List.findIdx?_append, hnone, List.findIdx?_cons]
  simp [chain, of, htake, hidx]

end Trail

/-! ## The cases of a visit -/

theorem explore_of_done (h : s.marks node = some .done) : explore edges (depth + 1) s node = .ok s := by
  simp [explore, h]

theorem explore_of_inProgress (h : s.marks node = some .inProgress) :
    explore edges (depth + 1) s node = .error (.cycle (s.chain node)) := by
  simp [explore, h]

theorem explore_of_none (h : s.marks node = none) :
    explore edges (depth + 1) s node =
      (((edges.lookup node).getD []).foldlM (explore edges depth) (s.enter node)).map (·.leave node) := by
  simp [explore, h]

/-! ## Both searches agree -/

/-- The outcome of a search on a way, as one of a search with a trail. -/
def outcomeOn (way : List String) (x : Except (List String) (List String)) : Except Stop Trail :=
  (x.map (Trail.of way)).mapError .cycle

/-- As long as the limit is above the number of nodes, with those on the way counted, it is not noticed. -/
theorem explore_of (edges : Edges) :
    (∀ way done node, ∀ depth, way.Nodup → way ⊆ nodes edges → node ∈ nodes edges →
      (nodes edges).length < depth + way.length →
        explore edges depth (.of way done) node = outcomeOn way (visit edges way done node)) ∧
    ∀ way done targets, ∀ depth, way.Nodup → way ⊆ nodes edges → targets ⊆ nodes edges →
      (nodes edges).length < depth + way.length →
        targets.foldlM (explore edges depth) (.of way done) = outcomeOn way (visitAll edges way done targets) := by
  have hpos : ∀ {way : List String} {depth}, way.Nodup → way ⊆ nodes edges →
      (nodes edges).length < depth + way.length → ∃ d, depth = d + 1 := by
    intro way depth hnd hsub hlt
    have hle : way.length ≤ (nodes edges).length := (hnd.subperm hsub).length_le
    exact ⟨depth - 1, by omega⟩
  apply visit.mutual_induct
  case case1 =>
    intro way done node hd depth hnd hsub hn hlt
    obtain ⟨depth, rfl⟩ := hpos hnd hsub hlt
    have hd' : node ∈ done := by simpa using hd
    rw [visit_of_done hd, explore_of_done (by simp [Trail.of, hd'])]
    rfl
  case case2 =>
    intro way done node hd hw depth hnd hsub hn hlt
    obtain ⟨depth, rfl⟩ := hpos hnd hsub hlt
    have hd' : node ∉ done := by simpa using hd
    have hw' : node ∈ way := by simpa using hw
    rw [visit_of_way hd hw, explore_of_inProgress (by simp [Trail.of, hd', hw']), Trail.chain_of hw' hnd]
    rfl
  case case3 =>
    intro way done node hd hw hl depth hnd hsub hn hlt
    obtain ⟨depth, rfl⟩ := hpos hnd hsub hlt
    have hd' : node ∉ done := by simpa using hd
    have hw' : node ∉ way := by simpa using hw
    rw [visit_of_lookup_none hd hw hl, explore_of_none (by simp [Trail.of, hd', hw']), hl, Trail.enter_of hd']
    simp [outcomeOn, Except.map, Except.mapError, Trail.leave_of, pure, Except.pure]
  case case4 =>
    intro way done node hd hw targets hl ih depth hnd hsub hn hlt
    obtain ⟨depth, rfl⟩ := hpos hnd hsub hlt
    have hd' : node ∉ done := by simpa using hd
    have hw' : node ∉ way := by simpa using hw
    have hin := ih depth (List.nodup_cons.2 ⟨hw', hnd⟩) (List.cons_subset.2 ⟨hn, hsub⟩)
      (fun n hn => mem_nodes_of_target hl hn) (by simp only [List.length_cons]; omega)
    rw [visit_of_lookup_some hd hw hl, explore_of_none (by simp [Trail.of, hd', hw']), hl, Trail.enter_of hd',
      Option.getD_some, hin]
    cases visitAll edges (node :: way) done targets with
    | error c => rfl
    | ok more => simp [outcomeOn, Except.map, Except.mapError, Trail.leave_of]
  case case5 =>
    intro way done depth _ _ _ _
    rw [visitAll]
    rfl
  case case6 =>
    intro way done node rest c hv ih depth hnd hsub hn hlt
    obtain ⟨hn, hrest⟩ := List.cons_subset.1 hn
    rw [visitAll, hv, List.foldlM_cons, ih depth hnd hsub hn hlt, hv]
    rfl
  case case7 =>
    intro way done node rest more hv ih₁ ih₂ depth hnd hsub hn hlt
    obtain ⟨hn, hrest⟩ := List.cons_subset.1 hn
    rw [visitAll, hv, List.foldlM_cons, ih₁ depth hnd hsub hn hlt, hv]
    exact ih₂ depth hnd hsub hrest hlt

theorem search_eq (h : (nodes edges).length < depth) :
    search edges depth = outcomeOn [] (visitAll edges [] [] (edges.map Prod.fst)) := by
  rw [search, ← Trail.of_nil]
  exact (explore_of edges).2 [] [] _ depth List.nodup_nil (List.nil_subset _) (fun _ => mem_nodes_of_key) (by simpa)

/-! ## The visits of a search -/

theorem exists_of_explore (depth : Nat) {way done : List String} {node : String} {s : Trail}
    (h : explore edges depth (.of way done) node = .ok s) (hdis : way.Disjoint done) :
    ∃ more, s = .of way more ∧ way.Disjoint more := by
  induction depth generalizing way done node s with
  | zero => cases h
  | succ depth ih =>
      by_cases hd : node ∈ done
      · rw [explore_of_done (by simp [Trail.of, hd])] at h
        cases h
        exact ⟨done, rfl, hdis⟩
      by_cases hw : node ∈ way
      · rw [explore_of_inProgress (by simp [Trail.of, hd, hw])] at h
        cases h
      · rw [explore_of_none (by simp [Trail.of, hd, hw]), Trail.enter_of hd] at h
        obtain ⟨s', hs', rfl⟩ := map_eq_ok_iff.1 h
        -- The visits below keep to the way that goes on to the node.
        obtain ⟨more, rfl, hmore⟩ := foldlM_induct
          (p := fun s => ∃ more, s = Trail.of (node :: way) more ∧ (node :: way).Disjoint more)
          ⟨done, rfl, List.disjoint_cons_left.2 ⟨hd, hdis⟩⟩ (fun _ _ _ ⟨_, hs, hm⟩ hstep => ih (hs ▸ hstep) hm) hs'
        exact ⟨node :: more, Trail.leave_of, List.disjoint_cons_right.2 ⟨hw, (List.disjoint_cons_left.1 hmore).2⟩⟩

theorem exists_of_foldlM {limit : Nat} (h : targets.foldlM (explore edges limit) (.of way done) = .ok s)
    (hdis : way.Disjoint done) : ∃ more, s = .of way more ∧ way.Disjoint more :=
  foldlM_induct (p := fun s => ∃ more, s = Trail.of way more ∧ way.Disjoint more) ⟨done, rfl, hdis⟩
    (fun _ _ _ ⟨_, hs, hm⟩ hstep => exists_of_explore limit (hs ▸ hstep) hm) h

/-- A visit finds the trail of a way as long as the visits around it, and all nodes of it are nodes of the map. -/
theorem Visits.exists_way (h : Visits edges depth s node) :
    ∃ way done, s = .of way done ∧ way.Disjoint done ∧ depth = way.length + 1 ∧ way.Nodup ∧ way ⊆ nodes edges ∧
      node ∈ nodes edges := by
  induction h with
  | key hkeys hrun =>
      rw [← Trail.of_nil] at hrun
      obtain ⟨done, rfl, hdis⟩ := exists_of_foldlM hrun (List.disjoint_nil_left _)
      exact ⟨[], done, rfl, hdis, rfl, List.nodup_nil, List.nil_subset _, mem_nodes_of_key (by simp [hkeys])⟩
  | @target depth limit s s' node target before after _ hnone htargets hrun ih =>
      obtain ⟨way, done, rfl, hdis, rfl, hnd, hsub, hn⟩ := ih
      have hfresh : node ∉ done ∧ node ∉ way := by
        by_cases hd : node ∈ done <;> by_cases hw : node ∈ way <;> simp_all [Trail.of]
      rw [Trail.enter_of hfresh.1] at hrun
      obtain ⟨more, rfl, hmore⟩ := exists_of_foldlM hrun (List.disjoint_cons_left.2 ⟨hfresh.1, hdis⟩)
      refine ⟨node :: way, more, rfl, hmore, rfl, List.nodup_cons.2 ⟨hfresh.2, hnd⟩, List.cons_subset.2 ⟨hn, hsub⟩, ?_⟩
      cases hl : edges.lookup node with
      | none => simp [hl] at htargets
      | some targets =>
          rw [hl, Option.getD_some] at htargets
          exact mem_nodes_of_target hl (by simp [htargets])

/-! ## The search as a whole -/

theorem search_eq_error_iff (h : (nodes edges).length < depth) {stop : Stop} :
    search edges depth = .error stop ↔ ∃ chain, stop = .cycle chain ∧ findCycle? edges = some chain := by
  rw [search_eq h, findCycle?]
  cases visitAll edges [] [] (edges.map Prod.fst) with
  | error c =>
      constructor
      · rintro ⟨⟩
        exact ⟨c, rfl, rfl⟩
      · rintro ⟨_, rfl, ⟨⟩⟩
        rfl
  | ok done => simp [outcomeOn, Except.map, Except.mapError]

theorem exists_search_eq_ok_iff (h : (nodes edges).length < depth) :
    (∃ s, search edges depth = .ok s) ↔ findCycle? edges = none := by
  rw [search_eq h, findCycle?]
  cases visitAll edges [] [] (edges.map Prod.fst) with
  | error c => simp [outcomeOn, Except.map, Except.mapError]
  | ok done => simp [outcomeOn, Except.map, Except.mapError]

/-- With one visit more than there are nodes the search ends: well, if there is no cycle, or else with a cycle. No visit
is deeper, and each of them finds on the stack just the nodes that are marked as in progress. -/
theorem search_exact (edges : Edges) :
    ((∃ s, search edges ((nodes edges).length + 1) = .ok s) ↔ Acyclic (Edge edges)) ∧
    (∀ stop, search edges ((nodes edges).length + 1) = .error stop →
      ∃ chain, stop = .cycle chain ∧ IsCycle (Edge edges) chain) ∧
    (∀ chain, search edges ((nodes edges).length + 1) = .error (.cycle chain) ↔ findCycle? edges = some chain) ∧
    (∀ depth > (nodes edges).length, search edges depth = search edges ((nodes edges).length + 1)) ∧
    ∀ depth s node, Visits edges depth s node →
      depth ≤ (nodes edges).length + 1 ∧ ∀ n, s.marks n = some .inProgress ↔ n ∈ s.stack := by
  have hlimit : (nodes edges).length < (nodes edges).length + 1 := Nat.lt_succ_self _
  refine ⟨?_, fun stop hstop => ?_, fun chain => ?_, fun depth hdepth => ?_, fun depth s node hvisit => ?_⟩
  · rw [exists_search_eq_ok_iff hlimit, findCycle?_eq_none_iff]
  · obtain ⟨chain, rfl, hchain⟩ := (search_eq_error_iff hlimit).1 hstop
    exact ⟨chain, rfl, isCycle_of_findCycle? hchain⟩
  · simp [search_eq_error_iff hlimit]
  · rw [search_eq hdepth, search_eq hlimit]
  · obtain ⟨way, done, rfl, hdis, rfl, hnd, hsub, -⟩ := hvisit.exists_way
    have hle : way.length ≤ (nodes edges).length := (hnd.subperm hsub).length_le
    refine ⟨Nat.succ_le_succ hle, fun n => ?_⟩
    by_cases hd : n ∈ done
    · simpa [Trail.of, hd] using fun hw => hdis hw hd
    · simp [Trail.of, hd]

end DesignTokens.Reference
