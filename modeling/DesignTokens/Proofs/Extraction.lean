import DesignTokens.Legacy.Coverage
import DesignTokens.Proofs.Declaration

/-!
# Values by name

The maps from names to values that are taken from the declarations of a text, and the names that are covered by them.
-/

namespace DesignTokens

namespace Declaration

/-- The values declared for a name, in order. -/
def valuesFor (ds : List Declaration) (name : String) : List String :=
  (ds.filter (·.name == name)).map value

variable {name : String}

@[simp] theorem valuesFor_nil : valuesFor [] name = [] := rfl

theorem valuesFor_append (ds es : List Declaration) :
    valuesFor (ds ++ es) name = valuesFor ds name ++ valuesFor es name := by
  simp [valuesFor]

theorem valuesFor_cons (d : Declaration) (ds : List Declaration) :
    valuesFor (d :: ds) name = (if d.name = name then [d.value] else []) ++ valuesFor ds name := by
  by_cases h : d.name = name <;> simp [valuesFor, h]

theorem mem_valuesFor {ds : List Declaration} {d : Declaration} (h : d ∈ ds) : d.value ∈ valuesFor ds d.name :=
  List.mem_map_of_mem (List.mem_filter.2 ⟨h, beq_self_eq_true _⟩)

theorem exists_of_mem_valuesFor {ds : List Declaration} {w : String} (h : w ∈ valuesFor ds name) :
    ∃ d ∈ ds, d.name = name ∧ d.value = w := by
  obtain ⟨d, hd, hw⟩ := List.mem_map.1 h
  obtain ⟨hd, hname⟩ := List.mem_filter.1 hd
  exact ⟨d, hd, beq_iff_eq.1 hname, hw⟩

/-! ## All values of each name -/

/-- Adds a declaration to the values of its name. -/
private def collect (m : List (String × List String)) (d : Declaration) : List (String × List String) :=
  Assoc.insert d.name ((m.lookup d.name).getD [] ++ [d.value]) m

private theorem allValues_eq_foldl (s : String) : allValues s = (all s).foldl collect [] := rfl

private theorem sorted_foldl_collect (ds : List Declaration) {m : List (String × List String)}
    (hm : Assoc.Sorted m) : Assoc.Sorted (ds.foldl collect m) := by
  induction ds generalizing m with
  | nil => exact hm
  | cons d ds ih => exact ih (Assoc.sorted_insert hm)

private theorem lookup_foldl_collect (ds : List Declaration) {m : List (String × List String)}
    (hm : Assoc.Sorted m) :
    (ds.foldl collect m).lookup name =
      if valuesFor ds name = [] then m.lookup name else some ((m.lookup name).getD [] ++ valuesFor ds name) := by
  induction ds generalizing m with
  | nil => simp
  | cons d ds ih =>
      rw [List.foldl_cons, ih (m := collect m d) (Assoc.sorted_insert hm), collect, Assoc.lookup_insert _ _ _ hm,
        valuesFor_cons]
      by_cases h : d.name = name
      · subst h
        by_cases hv : valuesFor ds d.name = [] <;> simp [hv]
      · simp [h, Ne.symm h]

theorem sorted_allValues (s : String) : Assoc.Sorted (allValues s) := by
  rw [allValues_eq_foldl]
  exact sorted_foldl_collect _ Assoc.sorted_nil

theorem lookup_allValues (s : String) :
    (allValues s).lookup name = if valuesFor (all s) name = [] then none else some (valuesFor (all s) name) := by
  rw [allValues_eq_foldl, lookup_foldl_collect _ Assoc.sorted_nil]
  rfl

theorem lookup_allValues_eq_some_iff {s : String} {values : List String} :
    (allValues s).lookup name = some values ↔ values ≠ [] ∧ valuesFor (all s) name = values := by
  rw [lookup_allValues]
  by_cases h : valuesFor (all s) name = []
  · simp [h, eq_comm]
  · rw [if_neg h, Option.some.injEq]
    exact ⟨fun he => ⟨he ▸ h, he⟩, And.right⟩

theorem exists_mem_allValues_iff {s : String} {p : List String → Prop} :
    (∃ values, (name, values) ∈ allValues s ∧ p values) ↔
      valuesFor (all s) name ≠ [] ∧ p (valuesFor (all s) name) := by
  have hmem : ∀ values, (name, values) ∈ allValues s ↔ (allValues s).lookup name = some values := fun _ =>
    ⟨Assoc.lookup_eq_some_of_mem (sorted_allValues s), Assoc.mem_of_lookup_eq_some⟩
  simp only [hmem, lookup_allValues_eq_some_iff]
  constructor
  · rintro ⟨_, ⟨hne, rfl⟩, hp⟩
    exact ⟨hne, hp⟩
  · rintro ⟨hne, hp⟩
    exact ⟨_, ⟨hne, rfl⟩, hp⟩

theorem getD_lookup_allValues (s : String) : ((allValues s).lookup name).getD [] = valuesFor (all s) name := by
  rw [lookup_allValues]
  by_cases h : valuesFor (all s) name = [] <;> simp [h]

/-! ## The last value of each name -/

theorem lookup_lastValues (s name : String) :
    (lastValues s).lookup name = (valuesFor (all s) name).getLast? := by
  rw [lastValues, Assoc.lookup_ofList]
  induction all s with
  | nil => rfl
  | cons d ds ih =>
      rw [List.map_cons, List.reverse_cons, List.lookup_append, ih, valuesFor_cons, List.getLast?_append]
      by_cases h : d.name = name
      · simp [h]
      · simp [h, Ne.symm h]

end Declaration

theorem Conflict.first?_eq_none_iff {name : String} {legacy : List String} {generated : String} :
    first? name legacy generated = none ↔ ∀ w ∈ legacy, w = generated := by
  simp [first?]

/-- A conflict has the first value that differs. -/
theorem Conflict.first?_eq_some_iff {name generated : String} {values : List String} {k : Conflict} :
    first? name values generated = some k ↔
      k.name = name ∧ k.generated = generated ∧ k.legacy ≠ k.generated ∧
        ∃ before after, values = before ++ k.legacy :: after ∧ ∀ w ∈ before, w = k.generated := by
  rw [first?, Option.map_eq_some_iff]
  constructor
  · rintro ⟨w, hfind, rfl⟩
    obtain ⟨hne, before, after, rfl, hbefore⟩ := List.find?_eq_some_iff_append.1 hfind
    exact ⟨rfl, rfl, by simpa using hne, before, after, rfl, by simpa using hbefore⟩
  · rintro ⟨rfl, rfl, hne, before, after, rfl, hbefore⟩
    exact ⟨k.legacy, List.find?_eq_some_iff_append.2
      ⟨by simpa using hne, before, after, rfl, by simpa using hbefore⟩, rfl⟩

namespace Classification

variable {legacy : List (String × List String)} {generated : List (String × String)} {name : String}

theorem covered_classify :
    (classify legacy generated).covered =
      (legacy.filter fun b => (generated.lookup b.1).any fun v => b.2.all (· == v)).map Prod.fst := by
  induction legacy with
  | nil => rfl
  | cons b rest ih =>
      have hstep : classify (b :: rest) generated = add generated b (classify rest generated) := rfl
      rw [hstep, add, List.filter_cons]
      cases hg : generated.lookup b.1 with
      | none => simp [ih]
      | some v =>
          cases hc : Conflict.first? b.1 b.2 v with
          | none => simp [ih, hc, if_pos (Conflict.first?_eq_none_iff.1 hc)]
          | some c =>
              have hne : ¬∀ w ∈ b.2, w = v := fun hall => by simp [Conflict.first?_eq_none_iff.2 hall] at hc
              simp [ih, hc, hne]

theorem conflicts_classify :
    (classify legacy generated).conflicts =
      legacy.filterMap fun b => (generated.lookup b.1).bind (Conflict.first? b.1 b.2) := by
  induction legacy with
  | nil => rfl
  | cons b rest ih =>
      have hstep : classify (b :: rest) generated = add generated b (classify rest generated) := rfl
      rw [hstep, add, List.filterMap_cons]
      cases hg : generated.lookup b.1 with
      | none => simp [ih]
      | some v => cases hc : Conflict.first? b.1 b.2 v <;> simp [ih, hc]

theorem missing_classify :
    (classify legacy generated).missing =
      (legacy.filter fun b => (generated.lookup b.1).isNone).map Prod.fst := by
  induction legacy with
  | nil => rfl
  | cons b rest ih =>
      have hstep : classify (b :: rest) generated = add generated b (classify rest generated) := rfl
      rw [hstep, add, List.filter_cons]
      cases hg : generated.lookup b.1 with
      | none => simp [ih]
      | some v => cases hc : Conflict.first? b.1 b.2 v <;> simp [ih, hc]

theorem mem_conflicts_classify :
    (∃ c ∈ (classify legacy generated).conflicts, c.name = name) ↔
      ∃ values, (name, values) ∈ legacy ∧ ∃ v, generated.lookup name = some v ∧ ¬∀ w ∈ values, w = v := by
  rw [conflicts_classify]
  constructor
  · rintro ⟨c, hc, rfl⟩
    obtain ⟨b, hb, hc⟩ := List.mem_filterMap.1 hc
    obtain ⟨v, hv, hc⟩ := Option.bind_eq_some_iff.1 hc
    obtain ⟨w, hw, rfl⟩ := Option.map_eq_some_iff.1 hc
    have hne : w ≠ v := by simpa using List.find?_some hw
    exact ⟨b.2, hb, v, hv, fun hall => hne (hall w (List.mem_of_find?_eq_some hw))⟩
  · rintro ⟨values, hm, v, hv, hne⟩
    obtain ⟨w, hw⟩ : ∃ w, values.find? (· != v) = some w := by
      simpa [List.find?_isSome, ← Option.isSome_iff_exists] using hne
    exact ⟨⟨name, w, v⟩, List.mem_filterMap.2 ⟨_, hm, by simp [hv, Conflict.first?, hw]⟩, rfl⟩

theorem mem_missing_classify :
    name ∈ (classify legacy generated).missing ↔
      ∃ values, (name, values) ∈ legacy ∧ generated.lookup name = none := by
  simp [missing_classify]

theorem mem_covered_classify :
    name ∈ (classify legacy generated).covered ↔
      ∃ values, (name, values) ∈ legacy ∧ ∃ v, generated.lookup name = some v ∧ ∀ w ∈ values, w = v := by
  simp [covered_classify, Option.any_eq_true]

section Texts

open Declaration

variable {legacy generated : String}

/-- A name is covered if the text declares it, and only with the value generated last. -/
theorem mem_covered_ofTexts :
    name ∈ (ofTexts legacy generated).covered ↔
      valuesFor (all legacy) name ≠ [] ∧
        ∃ v, (lastValues generated).lookup name = some v ∧ ∀ w ∈ valuesFor (all legacy) name, w = v := by
  rw [ofTexts, mem_covered_classify, exists_mem_allValues_iff]

/-- A name is in conflict if the text declares it with a value that differs from the one generated last. -/
theorem mem_conflicts_ofTexts :
    (∃ c ∈ (ofTexts legacy generated).conflicts, c.name = name) ↔
      valuesFor (all legacy) name ≠ [] ∧
        ∃ v, (lastValues generated).lookup name = some v ∧ ¬∀ w ∈ valuesFor (all legacy) name, w = v := by
  rw [ofTexts, mem_conflicts_classify, exists_mem_allValues_iff]

/-- A name is missing if the text declares it and nothing is generated for it. -/
theorem mem_missing_ofTexts :
    name ∈ (ofTexts legacy generated).missing ↔
      valuesFor (all legacy) name ≠ [] ∧ (lastValues generated).lookup name = none := by
  rw [ofTexts, mem_missing_classify, exists_mem_allValues_iff]

/-- A name that the text declares and that is not covered is in conflict or missing. -/
theorem notMem_covered_ofTexts_iff (h : valuesFor (all legacy) name ≠ []) :
    name ∉ (ofTexts legacy generated).covered ↔
      (∃ c ∈ (ofTexts legacy generated).conflicts, c.name = name) ∨ name ∈ (ofTexts legacy generated).missing := by
  rw [mem_covered_ofTexts, mem_conflicts_ofTexts, mem_missing_ofTexts]
  cases (lastValues generated).lookup name <;> simp [h]

end Texts

end Classification

end DesignTokens
