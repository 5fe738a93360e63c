import DesignTokens.Proofs.Compile
import DesignTokens.Proofs.CycleCheck

/-!
# The verdict on a graph

Of several faults of a graph one is told: the first reference that leads nowhere, or else a cycle, or else the least
name that two tokens of one layer have. A graph without faults is accepted.
-/

namespace DesignTokens

/-! ## The first name that occurs twice -/

namespace Variable

variable {vars seen : List Variable} {u v : Variable}

theorem exists_of_repeatAfter? (h : repeatAfter? seen vars = some (u, v)) (hseen : (seen.map Variable.name).Nodup) :
    ∃ before after, vars = before ++ v :: after ∧ u ∈ seen ++ before ∧ u.name = v.name ∧
      ((seen ++ before).map Variable.name).Nodup := by
  induction vars generalizing seen with
  | nil => cases h
  | cons w vars ih =>
      rw [repeatAfter?] at h
      split at h
      · next first hfirst =>
          cases h
          have hname : u.name = v.name := by simpa using List.find?_some hfirst
          refine ⟨[], vars, rfl, ?_, hname, by simpa using hseen⟩
          simpa using List.mem_of_find?_eq_some hfirst
      · next hnone =>
          have hw : w.name ∉ seen.map Variable.name := by
            rintro hw
            obtain ⟨x, hx, hname⟩ := List.mem_map.1 hw
            exact (List.find?_eq_none.1 hnone x hx) (beq_iff_eq.2 hname)
          obtain ⟨before, after, rfl, hu, hname, hnd⟩ := ih h (List.nodup_cons.2 ⟨hw, hseen⟩)
          have hperm : (seen ++ w :: before).Perm (w :: seen ++ before) := List.perm_middle
          exact ⟨w :: before, after, rfl, hperm.mem_iff.2 hu, hname, (hperm.map _).nodup_iff.2 hnd⟩

/-- No name comes after a greater one. -/
def NameSorted (vars : List Variable) : Prop := vars.Pairwise fun u v => (compare u.name v.name).isLE

/-- Where names are sorted, the first one that occurs twice does so in two variables that follow each other. -/
theorem exists_of_firstRepeat? (hs : NameSorted vars) (h : firstRepeat? vars = some (u, v)) :
    ∃ before after, vars = before ++ u :: v :: after ∧ u.name = v.name ∧
      ((before ++ [u]).map Variable.name).Nodup := by
  obtain ⟨before, after, rfl, hu, hname, hnd⟩ := exists_of_repeatAfter? h List.nodup_nil
  rw [List.nil_append] at hu hnd
  obtain ⟨front, between, rfl⟩ := List.append_of_mem hu
  cases between with
  | nil => exact ⟨front, after, by simp, hname, hnd⟩
  | cons w between =>
      -- What stands between the two has a name between theirs, which are equal.
      have hw : u.name = w.name := by
        simp only [NameSorted, List.append_assoc, List.cons_append, List.pairwise_append, List.pairwise_cons] at hs
        have huw : (compare u.name w.name).isLE := hs.2.1.1 w (List.mem_cons_self ..)
        have hwv : (compare w.name v.name).isLE := hs.2.1.2.1 v (by simp)
        rw [← hname] at hwv
        exact Std.LawfulEqCmp.eq_of_compare (Std.OrientedCmp.isLE_antisymm huw hwv)
      rw [List.map_append, List.nodup_append, List.map_cons, List.map_cons, hw] at hnd
      exact absurd (List.mem_cons_self ..) (List.nodup_cons.1 hnd.2.1).1

theorem filter_name_of_adjacent {before after : List Variable}
    (hnd : ((before ++ [u]).map Variable.name).Nodup) (hname : u.name = v.name) :
    (before ++ u :: v :: after).filter (·.name == u.name) = u :: v :: after.filter (·.name == u.name) := by
  have hbefore : before.filter (·.name == u.name) = [] := by
    rw [List.map_append, List.nodup_append] at hnd
    rw [List.filter_eq_nil_iff]
    intro w hw hwu
    exact hnd.2.2 w.name (List.mem_map_of_mem hw) u.name (List.mem_singleton_self _) (beq_iff_eq.1 hwu)
  rw [List.filter_append, hbefore, List.nil_append, List.filter_cons_of_pos (by simp),
    List.filter_cons_of_pos (by simp [hname])]

/-- Where names are sorted, no name that occurs twice is less than the first that does. -/
theorem isLE_of_adjacent {before after : List Variable} (hs : NameSorted (before ++ u :: v :: after))
    (hnd : ((before ++ [u]).map Variable.name).Nodup) {name : String}
    (hcount : 1 < ((before ++ u :: v :: after).map Variable.name).count name) : (compare u.name name).isLE := by
  have hmem : name ∈ (v :: after).map Variable.name := by
    -- The name occurs at most once up to `u`, so it occurs once more after it.
    have hsplit : before ++ u :: v :: after = (before ++ [u]) ++ v :: after := by simp
    rw [hsplit, List.map_append, List.count_append] at hcount
    have hone := List.nodup_iff_count_le_one.1 hnd name
    exact List.count_pos_iff.1 (by omega)
  obtain ⟨w, hw, rfl⟩ := List.mem_map.1 hmem
  have hs := (List.pairwise_append.1 hs).2.1
  exact (List.pairwise_cons.1 hs).1 w hw

/-! ## Variables in the order of their source paths -/

/-- `ranked` are the variables in the order of their source paths. Those with one path stay in the order they had. -/
structure IsRanked (vars ranked : List Variable) : Prop where
  sorted : ranked.Pairwise fun u v => (compare u.sourcePath v.sourcePath).isLE
  stable : ∀ path, ranked.filter (·.sourcePath == path) = vars.filter (·.sourcePath == path)

theorem sublist_sort {ws : List Variable} (hs : ws.Pairwise fun u v => (order u v).isLE) (h : ws.Sublist vars) :
    ws.Sublist (sort vars) := by
  exact List.sublist_mergeSort (fun _ _ _ => Std.TransCmp.isLE_trans) order_isLE_total hs h

theorem order_isLE_iff :
    (order u v).isLE ↔ compare u.name v.name = .lt ∨
      u.name = v.name ∧ (compare u.sourcePath v.sourcePath).isLE := by
  rw [order, Ordering.isLE_then_iff_or, Std.LawfulEqCmp.compare_eq_iff_eq]

theorem nameSorted_sort (vars : List Variable) : NameSorted (sort vars) := by
  refine (pairwise_order_sort vars).imp fun {u v} h => ?_
  rcases order_isLE_iff.1 h with h | ⟨h, _⟩
  · rw [h]; rfl
  · rw [h]; simp

theorem isRanked_filter_sort (vars : List Variable) (name : String) :
    IsRanked (vars.filter (·.name == name)) ((sort vars).filter (·.name == name)) := by
  refine ⟨?_, fun path => ?_⟩
  · have hs : ((sort vars).filter (·.name == name)).Pairwise fun u v => (order u v).isLE :=
      (pairwise_order_sort vars).filter _
    refine hs.imp_of_mem fun {u v} hu hv h => ?_
    have hu : u.name = name := by simpa using (List.mem_filter.1 hu).2
    have hv : v.name = name := by simpa using (List.mem_filter.1 hv).2
    rcases order_isLE_iff.1 h with h | ⟨_, h⟩
    · simp [hu, hv] at h
    · exact h
  · -- The variables with this name and this path are equal in the order, so sorting keeps them as they stand.
    rw [List.filter_filter, List.filter_filter]
    generalize hp : (fun v : Variable => v.sourcePath == path && v.name == name) = p
    have hsub : (vars.filter p).Sublist (sort vars) := by
      refine sublist_sort ?_ List.filter_sublist
      refine List.pairwise_of_forall_mem_list fun u hu v hv => order_isLE_iff.2 (.inr ?_)
      have hu := (List.mem_filter.1 hu).2
      have hv := (List.mem_filter.1 hv).2
      simp only [← hp, Bool.and_eq_true, beq_iff_eq] at hu hv
      simp [hu, hv]
    have hsub := hsub.filter p
    simp only [List.filter_filter, Bool.and_self] at hsub
    exact (hsub.eq_of_length (perm_sort.filter p).length_eq.symm).symm

/-- `first` and `second` have the least name that occurs twice, and come first among the variables with that name in the
order of their source paths. -/
structure IsLeastRepeat (vars : List Variable) (first second : Variable) : Prop where
  name_eq : first.name = second.name
  least : ∀ name, 1 < (vars.map Variable.name).count name → (compare first.name name).isLE
  ranked : ∃ rest, IsRanked (vars.filter (·.name == first.name)) (first :: second :: rest)

theorem isLeastRepeat_of_firstRepeat? (h : firstRepeat? (sort vars) = some (u, v)) : IsLeastRepeat vars u v := by
  obtain ⟨before, after, heq, hname, hnd⟩ := exists_of_firstRepeat? (nameSorted_sort vars) h
  have hsorted := nameSorted_sort vars
  rw [heq] at hsorted
  refine ⟨hname, fun name hcount => ?_, after.filter (·.name == u.name), ?_⟩
  · rw [← (perm_sort.map Variable.name).count_eq, heq] at hcount
    exact isLE_of_adjacent hsorted hnd hcount
  · rw [← filter_name_of_adjacent hnd hname, ← heq]
    exact isRanked_filter_sort vars u.name

end Variable

theorem Sheet.ofVariables_eq_error_iff {layer : Layer} {fileLabel sourceLabel : String} {vars : List Variable}
    {f : Fault} :
    Sheet.ofVariables layer fileLabel sourceLabel vars = .error f ↔
      ∃ first second, Variable.firstRepeat? (Variable.sort vars) = some (first, second) ∧
        f = .duplicateVariable layer first second := by
  have hunique : Sheet.ofVariables layer fileLabel sourceLabel vars = .error f ↔
      Variable.assertUnique layer (Variable.sort vars) = .error f := by
    rw [ofVariables, bind_eq_error_iff]
    exact or_iff_left (by rintro ⟨_, _, h⟩; cases h)
  rw [hunique, Variable.assertUnique]
  cases Variable.firstRepeat? (Variable.sort vars) with
  | none =>
      constructor
      · intro h
        cases h
      · rintro ⟨_, _, h, _⟩
        cases h
  | some pair =>
      constructor
      · intro h
        cases h
        exact ⟨pair.1, pair.2, rfl, rfl⟩
      · rintro ⟨first, second, hpair, rfl⟩
        cases hpair
        rfl

namespace Graph

open Reference

variable {g : Graph} {fileLabel : Layer → String} {sourceLabel : String} {f : Fault}

/-! ## The first reference that leads nowhere -/

/-- The reference leads nowhere from the token at `a`. -/
def Dangles (g : Graph) (a : Address) (reference : String) : Prop := ¬∃ b, g.resolve reference a.path = .ok b

/-- The token has a reference that leads nowhere. -/
def HasDangling (g : Graph) (e : Entry) : Prop :=
  ∃ s, e.leaf.value = .text s ∧ ∃ reference ∈ Reference.all s, g.Dangles e.address reference

/-- The token is the first one that has a reference that leads nowhere, and this is the first such reference of it. -/
structure FirstDangling (g : Graph) (e : Entry) (reference : String) : Prop where
  entry : IsFirst g.HasDangling g.allEntries e
  reference : ∃ s, e.leaf.value = .text s ∧ IsFirst (g.Dangles e.address) (Reference.all s) reference

/-- Pieces that are no items cannot fail. -/
theorem mapM_pieces_eq_error_iff {α β γ : Type} {step : Text.Piece α → Except Fault β} {k : α → Except Fault γ}
    (hplain : ∀ c, ∃ y, step (.plain c) = .ok y) (hhit : ∀ a f, step (.hit a) = .error f ↔ k a = .error f)
    {ps : List (Text.Piece α)} : ps.mapM step = .error f ↔ (ps.filterMap Text.Piece.hit?).mapM k = .error f := by
  induction ps with
  | nil => exact ⟨nofun, nofun⟩
  | cons p ps ih =>
      rw [mapM_cons_eq_error_iff, ih]
      cases p with
      | plain c =>
          obtain ⟨y, hy⟩ := hplain c
          rw [List.filterMap_cons_none rfl, hy]
          simp
      | hit a =>
          have hok : (∃ y, step (.hit a) = .ok y) ↔ ∃ z, k a = .ok z := by
            rw [← not_iff_not, not_exists_eq_ok_iff, not_exists_eq_ok_iff]
            exact exists_congr (hhit a)
          rw [hhit, hok, ← mapM_cons_eq_error_iff]
          rfl

/-- The references of a text are replaced one by one, and the first that leads nowhere stops it. -/
theorem substitute_eq_error_iff {s context : String} :
    g.substitute s context = .error f ↔ (Reference.all s).mapM (g.resolve · context) = .error f := by
  rw [substitute, bind_eq_error_iff, Reference.all, List.mapM_map, Text.Pattern.hits]
  refine (or_iff_left ?_).trans (mapM_pieces_eq_error_iff (fun c => ?_) fun inner f => ?_)
  · rintro ⟨_, _, h⟩
    cases h
  · exact ⟨[c], rfl⟩
  · dsimp only [Function.comp_apply]
    exact map_eq_error_iff

theorem exists_substitute_iff {s context : String} :
    (∃ t, g.substitute s context = .ok t) ↔
      ∀ reference ∈ Reference.all s, ∃ a, g.resolve reference context = .ok a := by
  rw [← not_iff_not, not_exists_eq_ok_iff, ← exists_mapM_eq_ok_iff, not_exists_eq_ok_iff]
  exact exists_congr fun f => substitute_eq_error_iff

theorem mapM_resolve_eq_error_iff {context : String} {references : List String} :
    references.mapM (g.resolve · context) = .error f ↔
      ∃ reference, IsFirst (fun r => ¬∃ b, g.resolve r context = .ok b) references reference ∧
        f = .unresolvedReference reference context := by
  rw [mapM_eq_error_iff]
  refine exists_congr fun reference => and_congr_right fun hfirst => ?_
  obtain ⟨_, _, _, _, hdangles⟩ := hfirst
  obtain ⟨e, he⟩ := not_exists_eq_ok_iff.1 hdangles
  rw [he, resolve_eq_error he]
  exact ⟨fun h => (Except.error.inj h).symm, fun h => by rw [h]⟩

theorem variableOf_eq_error_iff {e : Entry} :
    g.variableOf e = .error f ↔ ∃ s reference, e.leaf.value = .text s ∧
      IsFirst (g.Dangles e.address) (Reference.all s) reference ∧
      f = .unresolvedReference reference e.address.path := by
  rw [variableOf, map_eq_error_iff]
  cases hv : e.leaf.value with
  | scalar s => simp [compileValue]
  | text s =>
      rw [compileValue, map_eq_error_iff, substitute_eq_error_iff, mapM_resolve_eq_error_iff]
      constructor
      · rintro ⟨reference, h⟩
        exact ⟨s, reference, rfl, h⟩
      · rintro ⟨_, reference, hs, h⟩
        cases hs
        exact ⟨reference, h⟩

theorem exists_variableOf_iff {e : Entry} : (∃ v, g.variableOf e = .ok v) ↔ ¬g.HasDangling e := by
  cases hv : e.leaf.value with
  | scalar s => simp [variableOf, compileValue, map_eq_ok_iff, HasDangling, hv]
  | text s =>
      have hsubstitute : (∃ v, g.variableOf e = .ok v) ↔ ∃ t, g.substitute s e.address.path = .ok t := by
        simp [variableOf, compileValue, map_eq_ok_iff, hv]
      rw [hsubstitute, exists_substitute_iff]
      simp [HasDangling, Dangles, hv]

/-! ## The stages of the compilation -/

theorem collect_eq_error_iff :
    (Layer.all.mapM fun layer => (g.layerVariables layer).map fun vars => (layer, vars)) = .error f ↔
      g.allEntries.mapM g.variableOf = .error f := by
  rw [allEntries, mapM_flatMap, map_eq_error_iff]
  exact mapM_eq_error_congr fun layer f => map_eq_error_iff

theorem mapM_variableOf_eq_error_iff :
    g.allEntries.mapM g.variableOf = .error f ↔
      ∃ e reference, g.FirstDangling e reference ∧ f = .unresolvedReference reference e.address.path := by
  rw [mapM_eq_error_iff]
  simp only [exists_variableOf_iff, not_not, variableOf_eq_error_iff]
  constructor
  · rintro ⟨e, he, s, reference, hs, hreference, hf⟩
    exact ⟨e, reference, ⟨he, s, hs, hreference⟩, hf⟩
  · rintro ⟨e, reference, ⟨he, s, hs, hreference⟩, hf⟩
    exact ⟨e, he, s, reference, hs, hreference, hf⟩

theorem allResolve_iff_variableOf : g.AllResolve ↔ ∀ e ∈ g.allEntries, ∃ v, g.variableOf e = .ok v := by
  simp only [exists_variableOf_iff, HasDangling, Dangles, AllResolve, not_exists, not_and, not_forall, not_not]

theorem exists_layerVariables (h : g.AllResolve) :
    ∃ vars : Layer → List Variable, ∀ layer, g.layerVariables layer = .ok (vars layer) := by
  refine Classical.skolem.1 fun layer => exists_mapM_eq_ok_iff.2 fun e he => ?_
  exact allResolve_iff_variableOf.1 h e (List.mem_flatMap.2 ⟨layer, Layer.mem_all layer, he⟩)

theorem compile_of_layerVariables {vars : Layer → List Variable}
    (h : ∀ layer, g.layerVariables layer = .ok (vars layer)) :
    g.compile fileLabel sourceLabel = g.checkCycles >>= fun _ =>
      Layer.all.mapM fun layer => Sheet.ofVariables layer (fileLabel layer) sourceLabel (vars layer) := by
  have hcollect : (Layer.all.mapM fun layer => (g.layerVariables layer).map fun vars => (layer, vars)) =
      .ok (Layer.all.map fun layer => (layer, vars layer)) := by
    rw [mapM_eq_ok_iff, List.forall₂_map_right_iff]
    exact List.forall₂_same.2 fun layer _ => by rw [h]; rfl
  rw [compile, hcollect]
  exact congrArg (g.checkCycles >>= ·) (funext fun _ => List.mapM_map)

/-- Two tokens of the layer have one name. -/
def Clashes (g : Graph) (layer : Layer) : Prop := ¬((g.entries layer).map fun e => e.address.variableName).Nodup

theorem exists_ofVariables_iff {layer : Layer} {vars : List Variable} (h : g.layerVariables layer = .ok vars)
    {label : String} : (∃ sheet, Sheet.ofVariables layer label sourceLabel vars = .ok sheet) ↔ ¬g.Clashes layer := by
  rw [Clashes, not_not, ← map_name_of_layerVariables h, ← (Variable.perm_sort.map _).nodup_iff]
  simp only [Sheet.ofVariables_eq_ok_iff, exists_and_left, exists_eq, and_true]

/-! ## The verdict -/

/-- The stylesheet holds the variables of the tokens of a layer, and their names increase. -/
structure HoldsSorted (g : Graph) (layer : Layer) (sheet : Sheet) : Prop where
  layer_eq : sheet.layer = layer
  perm : ∃ vars, g.layerVariables layer = .ok vars ∧ sheet.vars.Perm vars
  sorted : sheet.vars.Pairwise fun u v => compare u.name v.name = .lt

theorem Compiles.holdsSorted {layer : Layer} {sheet : Sheet} (h : g.Compiles fileLabel sourceLabel layer sheet) :
    g.HoldsSorted layer sheet := by
  obtain ⟨vars, hvars, hsort⟩ := h.vars_eq
  exact ⟨h.layer_eq, ⟨vars, hvars, hsort ▸ Variable.perm_sort⟩, h.pairwise_vars⟩

theorem compile_of_not_allResolve (h : ¬g.AllResolve) : ∃ e reference, g.FirstDangling e reference ∧
    g.compile fileLabel sourceLabel = .error (.unresolvedReference reference e.address.path) := by
  rw [allResolve_iff_variableOf, ← exists_mapM_eq_ok_iff, not_exists_eq_ok_iff] at h
  obtain ⟨f, hf⟩ := h
  obtain ⟨e, reference, hfirst, rfl⟩ := mapM_variableOf_eq_error_iff.1 hf
  exact ⟨e, reference, hfirst, bind_eq_error_iff.2 (.inl (collect_eq_error_iff.2 hf))⟩

theorem exists_chain_of_checkCycles (h : g.AllResolve) (hf : g.checkCycles = .error f) :
    ∃ chain, f = .referenceCycle chain := by
  obtain ⟨edges, hedges⟩ := allResolve_iff_edges.1 h
  rw [checkCycles_of_edges hedges] at hf
  split at hf
  · next chain _ => exact ⟨chain, (Except.error.inj hf).symm⟩
  · cases hf

theorem compile_of_clashes {vars : Layer → List Variable} (hvars : ∀ layer, g.layerVariables layer = .ok (vars layer))
    (hcycles : g.checkCycles = .ok ()) (h : ∃ layer, g.Clashes layer) :
    ∃ layer first second, IsFirst g.Clashes Layer.all layer ∧ Variable.IsLeastRepeat (vars layer) first second ∧
      g.compile fileLabel sourceLabel = .error (.duplicateVariable layer first second) := by
  have hclashes : (fun layer => ¬∃ sheet,
      Sheet.ofVariables layer (fileLabel layer) sourceLabel (vars layer) = .ok sheet) = g.Clashes := by
    funext layer
    rw [exists_ofVariables_iff (hvars layer), not_not]
  have hfail : ¬∃ sheets, g.compile fileLabel sourceLabel = .ok sheets := by
    obtain ⟨layer, hlayer⟩ := h
    rw [compile_of_layerVariables hvars, hcycles]
    intro hok
    exact (exists_ofVariables_iff (hvars layer)).1 (exists_mapM_eq_ok_iff.1 hok layer (Layer.mem_all layer)) hlayer
  obtain ⟨f, hf⟩ := not_exists_eq_ok_iff.1 hfail
  have hrun := hf
  rw [compile_of_layerVariables hvars, hcycles] at hrun
  obtain ⟨layer, hfirst, hlayer⟩ := mapM_eq_error_iff.1 hrun
  rw [hclashes] at hfirst
  obtain ⟨first, second, hrepeat, rfl⟩ := Sheet.ofVariables_eq_error_iff.1 hlayer
  exact ⟨layer, first, second, hfirst, Variable.isLeastRepeat_of_firstRepeat? hrepeat, hf⟩

theorem compile_of_not_clashes {vars : Layer → List Variable}
    (hvars : ∀ layer, g.layerVariables layer = .ok (vars layer)) (hcycles : g.checkCycles = .ok ())
    (h : ∀ layer, ¬g.Clashes layer) :
    ∃ sheets, g.compile fileLabel sourceLabel = .ok sheets ∧ List.Forall₂ g.HoldsSorted Layer.all sheets := by
  obtain ⟨sheets, hsheets⟩ : ∃ sheets, g.compile fileLabel sourceLabel = .ok sheets := by
    rw [compile_of_layerVariables hvars, hcycles]
    exact exists_mapM_eq_ok_iff.2 fun layer _ => (exists_ofVariables_iff (hvars layer)).2 (h layer)
  exact ⟨sheets, hsheets, (compile_eq_ok_iff.1 hsheets).2.imp fun _ _ => Compiles.holdsSorted⟩

theorem exists_compile (hcycles : g.checkCycles = .ok ()) (h : ∀ layer, ¬g.Clashes layer) :
    ∃ sheets, g.compile fileLabel sourceLabel = .ok sheets := by
  obtain ⟨vars, hvars⟩ := exists_layerVariables (allResolve_of_checkCycles hcycles)
  obtain ⟨sheets, hsheets, _⟩ := compile_of_not_clashes hvars hcycles h
  exact ⟨sheets, hsheets⟩

/-- A graph with references that lead nowhere is refused for the first of them, whatever else is wrong with it; one with
a cycle for the cycle, whatever its names are; and one in which two tokens of a layer have one name for the least such
name of the first such layer, with the first two of its tokens. Any other graph has its three stylesheets. -/
theorem compile_verdict (g : Graph) (fileLabel : Layer → String) (sourceLabel : String) :
    (¬g.AllResolve → ∃ e reference, g.FirstDangling e reference ∧
      g.compile fileLabel sourceLabel = .error (.unresolvedReference reference e.address.path)) ∧
    (g.AllResolve →
      (∀ f, g.checkCycles = .error f →
        (∃ chain, f = .referenceCycle chain) ∧ g.compile fileLabel sourceLabel = .error f) ∧
      (g.checkCycles = .ok () →
        ((∃ layer, g.Clashes layer) → ∃ layer vars first second, IsFirst g.Clashes Layer.all layer ∧
          g.layerVariables layer = .ok vars ∧ Variable.IsLeastRepeat vars first second ∧
          g.compile fileLabel sourceLabel = .error (.duplicateVariable layer first second)) ∧
        ((∀ layer, ¬g.Clashes layer) → ∃ sheets, g.compile fileLabel sourceLabel = .ok sheets ∧
          List.Forall₂ g.HoldsSorted Layer.all sheets))) := by
  refine ⟨compile_of_not_allResolve, fun hall => ?_⟩
  obtain ⟨vars, hvars⟩ := exists_layerVariables hall
  refine ⟨fun f hf => ⟨exists_chain_of_checkCycles hall hf, ?_⟩, fun hcycles => ⟨fun hclash => ?_, ?_⟩⟩
  · rw [compile_of_layerVariables hvars, hf]
    rfl
  · obtain ⟨layer, first, second, hfirst, hleast, herror⟩ := compile_of_clashes hvars hcycles hclash
    exact ⟨layer, vars layer, first, second, hfirst, hvars layer, hleast, herror⟩
  · exact compile_of_not_clashes hvars hcycles

/-- Two tokens of one layer whose names are the same by a rule for one of them. -/
private def spacingDocument : Json :=
  .object [
    ("primitives", .object [("scale", .object [("base", .object [("$value", .text "16")])])]),
    ("semantic", .object [
      ("space", .object [("m", .object [("$value", .text "{scale.base}")])]),
      ("spacing", .object [("m", .object [("$value", .text "8")])])]),
    ("component", .object [])]

private def spacing : Graph := (Graph.ofJson spacingDocument).toOption.get (by decide +kernel)

theorem compile_verdict_spacing :
    Graph.ofJson spacingDocument = .ok spacing ∧ spacing.AllResolve ∧ spacing.checkCycles = .ok () ∧
      spacing.Clashes .semantic ∧
      ∃ first second, first.name = second.name ∧
        spacing.compile Layer.name "tokens" = .error (.duplicateVariable .semantic first second) := by
  have hedges : spacing.edges = .ok [("primitives.scale.base", []), ("semantic.space.m", ["primitives.scale.base"]),
      ("semantic.spacing.m", [])] := by decide +kernel
  have hall : spacing.AllResolve := allResolve_iff_edges.2 ⟨_, hedges⟩
  have hcycles : spacing.checkCycles = .ok () := by
    rw [checkCycles_of_edges hedges]
    simp [findCycle?, visitAll, visit_eq, List.lookup_cons, Except.map]
  have hclash : ∀ layer, spacing.Clashes layer ↔ layer = .semantic := by
    intro layer
    cases layer <;> (unfold Clashes; decide +kernel)
  obtain ⟨_, hresolved⟩ := compile_verdict spacing Layer.name "tokens"
  obtain ⟨_, hnames⟩ := hresolved hall
  obtain ⟨layer, _, first, second, ⟨_, _, _, _, hlayer⟩, _, hleast, herror⟩ :=
    (hnames hcycles).1 ⟨.semantic, (hclash _).2 rfl⟩
  obtain rfl := (hclash layer).1 hlayer
  exact ⟨eq_ok_get _, hall, hcycles, (hclash _).2 rfl, first, second, hleast.name_eq, herror⟩

end Graph

end DesignTokens
