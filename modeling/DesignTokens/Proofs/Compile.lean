import DesignTokens.Proofs.Entries
import DesignTokens.Proofs.Steps
import DesignTokens.Sheet.Compile
import Mathlib.Data.List.Nodup

/-!
# What a graph is compiled to

A graph is accepted exactly if its cycles are none and each layer has a stylesheet: the variables of its tokens, put
in order, with different names.
-/

namespace DesignTokens

/-! ## Variables -/

namespace Variable

variable {vars seen : List Variable}

theorem repeatAfter?_eq_none_iff :
    repeatAfter? seen vars = none ↔ (∀ v ∈ vars, ∀ u ∈ seen, u.name ≠ v.name) ∧ (vars.map Variable.name).Nodup := by
  induction vars generalizing seen with
  | nil => simp [repeatAfter?]
  | cons v vars ih =>
      rw [repeatAfter?, List.map_cons, List.nodup_cons, List.forall_mem_cons]
      cases hf : seen.find? (·.name == v.name) with
      | some u =>
          have hname : u.name = v.name := by simpa using List.find?_some hf
          have hu : ¬∀ u ∈ seen, u.name ≠ v.name := fun h => h u (List.mem_of_find?_eq_some hf) hname
          simp [hu]
      | none =>
          have hv : ∀ u ∈ seen, u.name ≠ v.name := by simpa using hf
          simp only [ih, List.forall_mem_cons, List.mem_map, not_exists, not_and]
          constructor
          · rintro ⟨h, hnd⟩
            exact ⟨⟨hv, fun w hw => (h w hw).2⟩, fun w hw => Ne.symm (h w hw).1, hnd⟩
          · rintro ⟨⟨_, h⟩, hne, hnd⟩
            exact ⟨fun w hw => ⟨Ne.symm (hne w hw), h w hw⟩, hnd⟩

theorem firstRepeat?_eq_none_iff : firstRepeat? vars = none ↔ (vars.map Variable.name).Nodup := by
  rw [firstRepeat?, repeatAfter?_eq_none_iff]
  simp

theorem assertUnique_eq_ok_iff {layer : Layer} :
    assertUnique layer vars = .ok () ↔ (vars.map Variable.name).Nodup := by
  rw [← firstRepeat?_eq_none_iff, assertUnique]
  cases firstRepeat? vars <;> simp

instance : Std.TransCmp order :=
  inferInstanceAs (Std.TransCmp (compareLex (compareOn Variable.name) (compareOn Variable.sourcePath)))

theorem perm_sort : (sort vars).Perm vars := List.mergeSort_perm vars _

theorem mem_sort {v : Variable} : v ∈ sort vars ↔ v ∈ vars := List.mem_mergeSort

theorem order_isLE_total (u v : Variable) : ((order u v).isLE || (order v u).isLE) = true := by
  have hswap : order v u = (order u v).swap := Std.OrientedCmp.eq_swap
  rw [hswap]
  cases order u v <;> rfl

theorem pairwise_order_sort (vars : List Variable) : (sort vars).Pairwise fun u v => (order u v).isLE = true :=
  List.pairwise_mergeSort (fun _ _ _ => Std.TransCmp.isLE_trans) order_isLE_total vars

theorem pairwise_sort (h : ((sort vars).map Variable.name).Nodup) :
    (sort vars).Pairwise fun u v => compare u.name v.name = .lt := by
  refine ((pairwise_order_sort vars).and (List.pairwise_map.1 h)).imp fun {u v} huv => ?_
  obtain ⟨hle, hne⟩ := huv
  cases hc : compare u.name v.name with
  | lt => rfl
  | eq => exact absurd (Std.LawfulEqCmp.eq_of_compare hc) hne
  | gt => simp [order, hc] at hle

theorem filter_name_eq_toList (h : (vars.map Variable.name).Nodup) (name : String) :
    vars.filter (·.name == name) = (vars.find? (·.name == name)).toList := by
  induction vars with
  | nil => rfl
  | cons v vars ih =>
      obtain ⟨hv, hnd⟩ := List.nodup_cons.1 h
      by_cases hn : v.name = name
      · subst hn
        have hnil : vars.filter (·.name == v.name) = [] := by
          rw [List.filter_eq_nil_iff]
          intro w hw hname
          exact hv (List.mem_map.2 ⟨w, hw, beq_iff_eq.1 hname⟩)
        simp [hnil]
      · simp [hn, ih hnd]

/-- Where names differ, a name picks out its variable. -/
theorem filter_name_eq (h : (vars.map Variable.name).Nodup) {v : Variable} (hv : v ∈ vars) :
    vars.filter (·.name == v.name) = [v] := by
  have hmem : v ∈ vars.filter (·.name == v.name) := List.mem_filter.2 ⟨hv, beq_self_eq_true _⟩
  rw [filter_name_eq_toList h, Option.mem_toList] at hmem
  rw [filter_name_eq_toList h, hmem]
  rfl

theorem lookup_map {α : Type} (vars : List Variable) (f : Variable → α) (name : String) :
    (vars.map fun v => (v.name, f v)).lookup name = (vars.find? (·.name == name)).map f := by
  induction vars with
  | nil => rfl
  | cons v vars ih =>
      rw [List.map_cons, List.lookup_cons, List.find?_cons, ih, BEq.comm]
      cases v.name == name <;> rfl

end Variable

/-! ## Stylesheets -/

theorem Layer.forall₂_all_iff {α : Type} {r : Layer → α → Prop} {xs : List α} :
    List.Forall₂ r Layer.all xs ↔
      ∃ p s c, xs = [p, s, c] ∧ r .primitives p ∧ r .semantic s ∧ r .component c := by
  constructor
  · intro h
    match xs, h with
    | _, .cons hp (.cons hs (.cons hc .nil)) => exact ⟨_, _, _, rfl, hp, hs, hc⟩
  · rintro ⟨p, s, c, rfl, hp, hs, hc⟩
    exact .cons hp (.cons hs (.cons hc .nil))

theorem Sheet.ofVariables_eq_ok_iff {layer : Layer} {fileLabel sourceLabel : String} {vars : List Variable}
    {sheet : Sheet} :
    Sheet.ofVariables layer fileLabel sourceLabel vars = .ok sheet ↔
      ((Variable.sort vars).map Variable.name).Nodup ∧
      sheet = ⟨layer, Variable.sort vars, Sheet.render layer fileLabel sourceLabel (Variable.sort vars)⟩ := by
  rw [ofVariables, bind_eq_ok_iff]
  constructor
  · rintro ⟨_, hunique, h⟩
    cases h
    exact ⟨Variable.assertUnique_eq_ok_iff.1 hunique, rfl⟩
  · rintro ⟨hnd, rfl⟩
    exact ⟨(), Variable.assertUnique_eq_ok_iff.2 hnd, rfl⟩

namespace Graph

variable {g : Graph} {fileLabel : Layer → String} {sourceLabel : String}

/-- `sheet` is what a layer is compiled to. -/
structure Compiles (g : Graph) (fileLabel : Layer → String) (sourceLabel : String) (layer : Layer) (sheet : Sheet) :
    Prop where
  layer_eq : sheet.layer = layer
  nodup : (sheet.vars.map Variable.name).Nodup
  contents_eq : sheet.contents = Sheet.render layer (fileLabel layer) sourceLabel sheet.vars
  vars_eq : ∃ vars, g.layerVariables layer = .ok vars ∧ sheet.vars = Variable.sort vars

theorem compiles_iff {layer : Layer} {sheet : Sheet} :
    g.Compiles fileLabel sourceLabel layer sheet ↔
      ∃ vars, g.layerVariables layer = .ok vars ∧
        Sheet.ofVariables layer (fileLabel layer) sourceLabel vars = .ok sheet := by
  constructor
  · rintro ⟨rfl, hnd, hcontents, vars, hvars, hsort⟩
    refine ⟨vars, hvars, Sheet.ofVariables_eq_ok_iff.2 ⟨hsort ▸ hnd, ?_⟩⟩
    rw [← hsort, ← hcontents]
  · rintro ⟨vars, hvars, h⟩
    obtain ⟨hnd, rfl⟩ := Sheet.ofVariables_eq_ok_iff.1 h
    exact ⟨rfl, hnd, rfl, vars, hvars, rfl⟩

theorem compile_eq_ok_iff {sheets : List Sheet} :
    g.compile fileLabel sourceLabel = .ok sheets ↔
      g.checkCycles = .ok () ∧ List.Forall₂ (g.Compiles fileLabel sourceLabel) Layer.all sheets := by
  have hlayer : ∀ layer sheet, g.Compiles fileLabel sourceLabel layer sheet ↔
      ∃ c, ((g.layerVariables layer).map fun vars => (layer, vars)) = .ok c ∧
        Sheet.ofVariables c.1 (fileLabel c.1) sourceLabel c.2 = .ok sheet := by
    intro layer sheet
    simp only [compiles_iff, map_eq_ok_iff]
    constructor
    · rintro ⟨vars, hvars, h⟩
      exact ⟨_, ⟨vars, hvars, rfl⟩, h⟩
    · rintro ⟨_, ⟨vars, hvars, rfl⟩, h⟩
      exact ⟨vars, hvars, h⟩
  simp only [funext₂ fun layer sheet => propext (hlayer layer sheet), ← exists_mapM_mapM_eq_ok_iff, compile,
    bind_eq_ok_iff]
  constructor
  · rintro ⟨collected, hcollected, _, hcycles, h⟩
    exact ⟨hcycles, collected, hcollected, h⟩
  · rintro ⟨hcycles, collected, hcollected, h⟩
    exact ⟨collected, hcollected, (), hcycles, h⟩

theorem compile_of_checkCycles (h : g.checkCycles = .ok ()) :
    g.compile fileLabel sourceLabel =
      (Layer.all.mapM fun layer => (g.layerVariables layer).map fun vars => (layer, vars)) >>=
        (·.mapM fun c => Sheet.ofVariables c.1 (fileLabel c.1) sourceLabel c.2) := by
  rw [compile, h]
  rfl

/-- An accepted graph has one stylesheet for each layer. -/
theorem exists_sheet {sheets : List Sheet} (h : g.compile fileLabel sourceLabel = .ok sheets) (layer : Layer) :
    ∃ sheet, sheets.filter (·.layer == layer) = [sheet] ∧ g.Compiles fileLabel sourceLabel layer sheet := by
  obtain ⟨_, hsheets⟩ := compile_eq_ok_iff.1 h
  obtain ⟨primitives, semantic, component, rfl, hp, hs, hc⟩ := Layer.forall₂_all_iff.1 hsheets
  cases layer with
  | primitives => exact ⟨primitives, by simp [hp.layer_eq, hs.layer_eq, hc.layer_eq], hp⟩
  | semantic => exact ⟨semantic, by simp [hp.layer_eq, hs.layer_eq, hc.layer_eq], hs⟩
  | component => exact ⟨component, by simp [hp.layer_eq, hs.layer_eq, hc.layer_eq], hc⟩

theorem map_layer_of_compile {sheets : List Sheet} (h : g.compile fileLabel sourceLabel = .ok sheets) :
    sheets.map Sheet.layer = Layer.all := by
  obtain ⟨primitives, semantic, component, rfl, hp, hs, hc⟩ := Layer.forall₂_all_iff.1 (compile_eq_ok_iff.1 h).2
  simp [hp.layer_eq, hs.layer_eq, hc.layer_eq, Layer.all]

theorem compiles_of_mem {sheets : List Sheet} (h : g.compile fileLabel sourceLabel = .ok sheets) {sheet : Sheet}
    (hsheet : sheet ∈ sheets) : g.Compiles fileLabel sourceLabel sheet.layer sheet := by
  obtain ⟨layer, _, hc⟩ := exists_of_forall₂ (compile_eq_ok_iff.1 h).2.flip hsheet
  rwa [hc.layer_eq]

theorem Compiles.pairwise_vars {layer : Layer} {sheet : Sheet} (h : g.Compiles fileLabel sourceLabel layer sheet) :
    sheet.vars.Pairwise fun u v => compare u.name v.name = .lt := by
  obtain ⟨vars, _, hsort⟩ := h.vars_eq
  have hnd := h.nodup
  rw [hsort] at hnd ⊢
  exact Variable.pairwise_sort hnd

theorem map_name_of_layerVariables {layer : Layer} {vars : List Variable} (h : g.layerVariables layer = .ok vars) :
    vars.map Variable.name = (g.entries layer).map fun e => e.address.variableName := by
  rw [layerVariables, mapM_eq_ok_iff] at h
  generalize g.entries layer = entries at h
  induction h with
  | nil => rfl
  | cons hv _ ih =>
      obtain ⟨value, _, rfl⟩ := map_eq_ok_iff.1 hv
      rw [List.map_cons, List.map_cons, ih]

theorem Compiles.length_vars {layer : Layer} {sheet : Sheet} (h : g.Compiles fileLabel sourceLabel layer sheet) :
    sheet.vars.length = (g.entries layer).length := by
  obtain ⟨vars, hvars, hsort⟩ := h.vars_eq
  have hnames := congrArg List.length (map_name_of_layerVariables hvars)
  rw [List.length_map, List.length_map] at hnames
  rw [hsort, Variable.perm_sort.length_eq, hnames]

/-- The sheets of an accepted graph have as many variables as it has tokens. -/
theorem length_flatMap_vars {sheets : List Sheet} (h : g.compile fileLabel sourceLabel = .ok sheets) :
    (sheets.flatMap Sheet.vars).length = g.leafCount := by
  obtain ⟨primitives, semantic, component, rfl, hp, hs, hc⟩ := Layer.forall₂_all_iff.1 (compile_eq_ok_iff.1 h).2
  simp [leafCount, allEntries, Layer.all, hp.length_vars, hs.length_vars, hc.length_vars]

/-- In one layer of an accepted graph, a name belongs to one token. -/
theorem Compiles.eq_of_variableName_eq {layer : Layer} {sheet : Sheet}
    (h : g.Compiles fileLabel sourceLabel layer sheet) {d e : Entry} (hd : d ∈ g.entries layer)
    (he : e ∈ g.entries layer) (hname : d.address.variableName = e.address.variableName) : d = e := by
  obtain ⟨vars, hvars, hsort⟩ := h.vars_eq
  have hnd := h.nodup
  rw [hsort, (Variable.perm_sort.map _).nodup_iff, map_name_of_layerVariables hvars] at hnd
  exact List.inj_on_of_nodup_map hnd hd he hname

theorem Compiles.mem_vars_iff {layer : Layer} {sheet : Sheet} (h : g.Compiles fileLabel sourceLabel layer sheet)
    {v : Variable} :
    v ∈ sheet.vars ↔ ∃ a leaf, a.layer = layer ∧ g.leaf? a = some leaf ∧
      ∃ value, g.compileValue leaf.value a.path = .ok value ∧ v = ⟨a.variableName, value, a.path⟩ := by
  obtain ⟨vars, hvars, hsort⟩ := h.vars_eq
  rw [hsort, Variable.mem_sort, mem_iff_of_mapM_eq_ok hvars]
  simp only [mem_entries_iff, variableOf, map_eq_ok_iff]
  constructor
  · rintro ⟨e, ⟨hlayer, hleaf⟩, value, hvalue, hv⟩
    exact ⟨e.address, e.leaf, hlayer, hleaf, value, hvalue, hv.symm⟩
  · rintro ⟨a, leaf, hlayer, hleaf, value, hvalue, hv⟩
    exact ⟨⟨a, leaf⟩, ⟨hlayer, hleaf⟩, value, hvalue, hv.symm⟩

theorem Compiles.exists_value {layer : Layer} {sheet : Sheet} (h : g.Compiles fileLabel sourceLabel layer sheet)
    {a : Address} {leaf : Leaf} (ha : a.layer = layer) (hleaf : g.leaf? a = some leaf) :
    ∃ value, g.compileValue leaf.value a.path = .ok value := by
  obtain ⟨vars, hvars, _⟩ := h.vars_eq
  obtain ⟨v, hv⟩ := exists_mapM_eq_ok_iff.1 ⟨vars, hvars⟩ ⟨a, leaf⟩ (mem_entries_iff.2 ⟨ha, hleaf⟩)
  obtain ⟨value, hvalue, _⟩ := map_eq_ok_iff.1 hv
  exact ⟨value, hvalue⟩

end Graph

end DesignTokens
