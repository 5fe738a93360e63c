import DesignTokens.Reference.Basic

/-!
Cycles of references. A depth-first search goes through a finite map of edges; it ends because it goes deeper only
from a key that is not yet on its way.
-/

namespace DesignTokens.Reference

/-- The targets of each node that has any. -/
abbrev Edges := List (String × List String)

/-- The keys of the map that are not on the way. -/
def unvisited (edges : Edges) (way : List String) : List String :=
  (edges.map Prod.fst).filter fun k => !way.contains k

theorem unvisited_cons_lt {edges : Edges} {way targets : List String} {node : String}
    (hw : ¬way.contains node) (h : edges.lookup node = some targets) :
    (unvisited edges (node :: way)).length < (unvisited edges way).length := by
  have hmem : node ∈ unvisited edges way := by
    have : node ∈ edges.map Prod.fst := by
      clear hw
      induction edges with
      | nil => simp at h
      | cons e rest ih =>
        obtain ⟨k, ts⟩ := e
        rw [List.lookup_cons] at h
        split at h
        · next hk => simp [eq_of_beq hk]
        · exact List.mem_cons_of_mem _ (ih h)
    simp only [unvisited, List.mem_filter, this, true_and]
    simpa using hw
  have heq : unvisited edges (node :: way) = (unvisited edges way).filter (· != node) := by
    simp only [unvisited, List.filter_filter]
    congr 1
    funext k
    by_cases hk : k = node <;> simp [hk]
  rw [heq]
  exact List.length_filter_lt_length_iff_exists.2 ⟨node, hmem, by simp⟩

mutual

/-- Searches from a node for a node that leads back to itself. `way` holds the nodes from here back to the start,
`done` those that no cycle can be reached from. The answer is a cycle, or the nodes done now. -/
def visit (edges : Edges) (way done : List String) (node : String) : Except (List String) (List String) :=
  if done.contains node then .ok done
  else if _hw : way.contains node then .error (node :: (way.takeWhile (· != node)).reverse ++ [node])
  else
    match _h : edges.lookup node with
    | none => .ok (node :: done)
    | some targets => (visitAll edges (node :: way) done targets).map (node :: ·)
termination_by ((unvisited edges way).length, 0)
decreasing_by exact Prod.Lex.left _ _ (unvisited_cons_lt _hw _h)

/-- Searches from several nodes, one after the other. -/
def visitAll (edges : Edges) (way done : List String) : List String → Except (List String) (List String)
  | [] => .ok done
  | node :: rest =>
    match visit edges way done node with
    | .error cycle => .error cycle
    | .ok done => visitAll edges way done rest
termination_by nodes => ((unvisited edges way).length, nodes.length + 1)
decreasing_by
  · exact Prod.Lex.right _ (by simp)
  · exact Prod.Lex.right _ (by simp)

end

/-- A cycle of the map, if it has any: each node is a target of the one before, and the last is the first. -/
def findCycle? (edges : Edges) : Option (List String) :=
  match visitAll edges [] [] (edges.map Prod.fst) with
  | .error cycle => some cycle
  | .ok _ => none

end DesignTokens.Reference

namespace DesignTokens.Graph

/-- The paths of the tokens that the references of an entry mean. -/
def targets (g : Graph) (e : Entry) : Except Fault (List String) :=
  match e.leaf.value with
  | .scalar _ => .ok []
  | .text s =>
    (Reference.all s).mapM fun reference => (g.resolve reference e.address.path).map Address.path

/-- The edges between the paths of tokens. -/
def edges (g : Graph) : Except Fault Reference.Edges :=
  (g.allEntries.mapM fun e => (g.targets e).map fun ts => (e.address.path, ts)).map Assoc.ofList

/-- Refuses a graph in which a token leads to itself by references. -/
def checkCycles (g : Graph) : Except Fault Unit := do
  match Reference.findCycle? (← g.edges) with
  | some cycle => .error (.referenceCycle cycle)
  | none => .ok ()

end DesignTokens.Graph
