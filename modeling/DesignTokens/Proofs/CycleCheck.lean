import DesignTokens.Proofs.Cycle
import DesignTokens.Proofs.Resolve
import DesignTokens.Proofs.Steps
import DesignTokens.Token.Document

/-!
# Which graphs are refused for a cycle

The search goes along paths, and of several tokens with one path only the last counts. Where each token that is referred
to has the references of the last one with its path, a graph is refused exactly if its tokens refer to each other in a
cycle.
-/

namespace DesignTokens

/-! ## Cycles and images -/

namespace Reference

variable {α : Type} {r s : α → α → Prop}

theorem exists_rel_of_isChain {n m : α} {ns : List α} (h : (n :: ns).IsChain r) (hm : m ∈ ns) : ∃ k, r k m := by
  induction ns generalizing n with
  | nil => cases hm
  | cons k ns ih =>
      obtain ⟨hk, hrest⟩ := List.isChain_cons_cons.1 h
      rcases List.mem_cons.1 hm with rfl | hm
      · exact ⟨n, hk⟩
      · exact ih hrest hm

theorem IsCycle.exists_rel {ns : List α} (h : IsCycle r ns) {m : α} (hm : m ∈ ns) : ∃ k, r k m := by
  obtain ⟨n, rest, rfl, _, hchain⟩ := h
  refine exists_rel_of_isChain hchain ?_
  rcases List.mem_cons.1 hm with rfl | hm
  · exact List.mem_append_right _ (List.mem_singleton_self _)
  · exact hm

/-- Cycles of `r` are cycles of `s` if the relations agree on the nodes that `r` leads to. -/
theorem IsCycle.imp {ns : List α} (h : IsCycle r ns) (himp : ∀ a, (∃ k, r k a) → ∀ b, r a b → s a b) :
    IsCycle s ns := by
  have hto : ∀ a ∈ ns, ∃ k, r k a := fun a ha => h.exists_rel ha
  obtain ⟨n, rest, hns, hnd, hchain⟩ := h
  refine ⟨n, rest, hns, hnd, ?_⟩
  clear hns
  induction ns with
  | nil => exact .nil
  | cons a ns ih =>
      cases ns with
      | nil => exact .singleton _
      | cons b ns =>
          obtain ⟨hab, hrest⟩ := List.isChain_cons_cons.1 hchain
          refine List.isChain_cons_cons.2 ⟨himp a (hto a (List.mem_cons_self ..)) b hab, ?_⟩
          exact ih (fun a ha => hto a (List.mem_cons_of_mem _ ha)) hrest

theorem Acyclic.imp (h : Acyclic s) (himp : ∀ a, (∃ k, r k a) → ∀ b, r a b → s a b) : Acyclic r := by
  intro n hn
  have hend : ∀ {m}, Relation.TransGen r n m → ∃ k, r k m := by
    intro m hm
    obtain ⟨k, _, hk⟩ := Relation.TransGen.tail'_iff.1 hm
    exact ⟨k, hk⟩
  have hall : ∀ {m}, Relation.TransGen r n m → Relation.TransGen s n m := by
    intro m hm
    induction hm with
    | single hnm => exact .single (himp n (hend hn) _ hnm)
    | tail hnk hkm ih => exact .tail ih (himp _ (hend hnk) _ hkm)
  exact h n (hall hn)

end Reference

namespace Graph

open Reference

variable {g : Graph}

/-! ## What tokens refer to -/

/-- A reference in the text of the token at `a` leads to the token at `b`. -/
def Refers (g : Graph) (a b : Address) : Prop :=
  ∃ leaf s, g.leaf? a = some leaf ∧ leaf.value = .text s ∧
    ∃ reference ∈ Reference.all s, g.resolve reference a.path = .ok b

/-- Every reference of every token leads to a token. -/
def AllResolve (g : Graph) : Prop :=
  ∀ e ∈ g.allEntries, ∀ s, e.leaf.value = .text s →
    ∀ reference ∈ Reference.all s, ∃ b, g.resolve reference e.address.path = .ok b

/-- The last token listed with a path. -/
def holder? (g : Graph) (path : String) : Option Entry := g.allEntries.reverse.find? (·.address.path == path)

/-- The search goes from `a` to `b`: the last token with the path of `a` refers to `b`. -/
def Follows (g : Graph) (a b : Address) : Prop := ∃ e, g.holder? a.path = some e ∧ g.Refers e.address b

/-- Each token that is referred to has the references of the last one with its path. -/
def Unshadowed (g : Graph) : Prop := ∀ a b, g.Refers a b → ∀ c, g.Follows b c ↔ g.Refers b c

theorem refers_iff_of_mem {e : Entry} (he : e ∈ g.allEntries) {b : Address} :
    g.Refers e.address b ↔
      ∃ s, e.leaf.value = .text s ∧ ∃ reference ∈ Reference.all s, g.resolve reference e.address.path = .ok b := by
  have hl := mem_allEntries_iff.1 he
  constructor
  · rintro ⟨leaf, s, hleaf, hs, hr⟩
    rw [hl] at hleaf
    cases hleaf
    exact ⟨s, hs, hr⟩
  · rintro ⟨s, hs, hr⟩
    exact ⟨e.leaf, s, hl, hs, hr⟩

theorem Refers.target {a b : Address} (h : g.Refers a b) : (∃ leaf, g.leaf? b = some leaf) ∧ b.Undotted := by
  obtain ⟨_, _, _, _, _, _, hr⟩ := h
  exact resolve_eq_ok hr

theorem mem_of_holder? {path : String} {e : Entry} (h : g.holder? path = some e) :
    e ∈ g.allEntries ∧ e.address.path = path := by
  have hp := List.find?_some h
  exact ⟨List.mem_reverse.1 (List.mem_of_find?_eq_some h), by simpa using hp⟩

theorem unshadowed_of_undotted (h : ∀ e ∈ g.allEntries, e.address.Undotted) : g.Unshadowed := by
  intro a b hab c
  obtain ⟨⟨leaf, hleaf⟩, hb⟩ := hab.target
  have hmem : (⟨b, leaf⟩ : Entry) ∈ g.allEntries := mem_allEntries_iff.2 hleaf
  have hsome : (g.holder? b.path).isSome := by
    rw [holder?, List.find?_isSome]
    exact ⟨_, List.mem_reverse.2 hmem, beq_self_eq_true _⟩
  obtain ⟨e, he⟩ := Option.isSome_iff_exists.1 hsome
  obtain ⟨hem, hpath⟩ := mem_of_holder? he
  have heq : e.address = b := Address.eq_of_path_eq (h e hem) hb hpath
  constructor
  · rintro ⟨e', he', hc⟩
    rw [he] at he'
    cases he'
    rwa [heq] at hc
  · intro hc
    exact ⟨e, he, by rwa [heq]⟩

/-! ## The edges between paths -/

theorem mem_targets_iff {e : Entry} (he : e ∈ g.allEntries) {ts : List String} (h : g.targets e = .ok ts)
    {q : String} : q ∈ ts ↔ ∃ b, g.Refers e.address b ∧ b.path = q := by
  unfold targets at h
  split at h
  · next s hv =>
      cases h
      constructor
      · intro hq
        cases hq
      · rintro ⟨b, hb, _⟩
        obtain ⟨s', hs', _⟩ := (refers_iff_of_mem he).1 hb
        rw [hv] at hs'
        cases hs'
  · next s hv =>
      rw [mem_iff_of_mapM_eq_ok h]
      constructor
      · rintro ⟨r, hr, hq⟩
        obtain ⟨b, hb, hbq⟩ := map_eq_ok_iff.1 hq
        exact ⟨b, (refers_iff_of_mem he).2 ⟨s, hv, r, hr, hb⟩, hbq⟩
      · rintro ⟨b, hb, hbq⟩
        obtain ⟨s', hs', r, hr, hres⟩ := (refers_iff_of_mem he).1 hb
        rw [hv] at hs'
        cases hs'
        exact ⟨r, hr, map_eq_ok_iff.2 ⟨b, hres, hbq⟩⟩

/-- The bindings of a list of entries, looked up by path, are those of the first entry with the path. -/
theorem lookup_of_forall₂ {es : List Entry} {bs : Edges}
    (h : List.Forall₂ (fun e b => (g.targets e).map (fun ts => (e.address.path, ts)) = .ok b) es bs) {p : String}
    {ts : List String} :
    bs.lookup p = some ts ↔ ∃ e, es.find? (·.address.path == p) = some e ∧ g.targets e = .ok ts := by
  induction h with
  | nil => simp
  | @cons e b es bs heb _ ih =>
      obtain ⟨us, hus, rfl⟩ := map_eq_ok_iff.1 heb
      rw [List.lookup_cons, List.find?_cons]
      by_cases hp : e.address.path = p
      · simp [hp, hus, eq_comm]
      · simp [hp, Ne.symm hp, beq_false_of_ne, ih]

theorem edge_iff {edges : Edges} (h : g.edges = .ok edges) {p q : String} :
    Edge edges p q ↔ ∃ e b, g.holder? p = some e ∧ g.Refers e.address b ∧ b.path = q := by
  obtain ⟨bs, hbs, rfl⟩ := map_eq_ok_iff.1 h
  have hlookup : ∀ ts, (Assoc.ofList bs).lookup p = some ts ↔ ∃ e, g.holder? p = some e ∧ g.targets e = .ok ts := by
    intro ts
    rw [Assoc.lookup_ofList, lookup_of_forall₂ (List.forall₂_reverse_iff.2 (mapM_eq_ok_iff.1 hbs)), holder?]
  constructor
  · rintro ⟨ts, hts, hq⟩
    obtain ⟨e, he, hte⟩ := (hlookup ts).1 hts
    obtain ⟨b, hb, hbq⟩ := (mem_targets_iff (mem_of_holder? he).1 hte).1 hq
    exact ⟨e, b, he, hb, hbq⟩
  · rintro ⟨e, b, he, hb, hbq⟩
    obtain ⟨hem, _⟩ := mem_of_holder? he
    obtain ⟨c, hc⟩ := exists_mapM_eq_ok_iff.1 ⟨bs, hbs⟩ e hem
    obtain ⟨ts, hts, _⟩ := map_eq_ok_iff.1 hc
    exact ⟨ts, (hlookup ts).2 ⟨e, he, hts⟩, (mem_targets_iff hem hts).2 ⟨b, hb, hbq⟩⟩

/-! ## From paths back to tokens -/

theorem edge_of_follows {edges : Edges} (h : g.edges = .ok edges) {a b : Address} (hab : g.Follows a b) :
    Edge edges a.path b.path := by
  obtain ⟨e, he, hb⟩ := hab
  exact (edge_iff h).2 ⟨e, b, he, hb, rfl⟩

theorem follows_of_edge {edges : Edges} (h : g.edges = .ok edges) {a b : Address} (hb : b.Undotted)
    (hab : Edge edges a.path b.path) : g.Follows a b := by
  obtain ⟨e, b', he, hb', hpath⟩ := (edge_iff h).1 hab
  have heq : b' = b := Address.eq_of_path_eq hb'.target.2 hb hpath
  exact ⟨e, he, heq ▸ hb'⟩

theorem exists_addresses {ns : List String} (h : ∀ p ∈ ns, ∃ a : Address, a.Undotted ∧ a.path = p) :
    ∃ as : List Address, as.map Address.path = ns ∧ ∀ a ∈ as, a.Undotted := by
  induction ns with
  | nil => exact ⟨[], rfl, by simp⟩
  | cons p ns ih =>
      obtain ⟨⟨a, ha, hp⟩, hns⟩ := List.forall_mem_cons.1 h
      obtain ⟨as, has, hall⟩ := ih hns
      exact ⟨a :: as, by rw [List.map_cons, hp, has], List.forall_mem_cons.2 ⟨ha, hall⟩⟩

/-- A cycle of paths is the cycle of the tokens that references with these paths lead to. -/
theorem exists_isCycle_follows {edges : Edges} (h : g.edges = .ok edges) {ns : List String}
    (hc : IsCycle (Edge edges) ns) : ∃ as, IsCycle g.Follows as ∧ as.map Address.path = ns := by
  have htarget : ∀ p ∈ ns, ∃ a : Address, a.Undotted ∧ a.path = p := by
    intro p hp
    obtain ⟨q, hq⟩ := hc.exists_rel hp
    obtain ⟨_, b, _, hb, hpath⟩ := (edge_iff h).1 hq
    exact ⟨b, hb.target.2, hpath⟩
  obtain ⟨as, rfl, hall⟩ := exists_addresses htarget
  obtain ⟨n, rest, hns, hnd, hchain⟩ := hc
  refine ⟨as, ?_, rfl⟩
  obtain ⟨front, last, rfl, hfront, hlast⟩ := List.map_eq_append_iff.1 hns
  obtain ⟨a, as, rfl, rfl, rfl⟩ := List.map_eq_cons_iff.1 hfront
  obtain ⟨b, bs, rfl, hb, hbs⟩ := List.map_eq_cons_iff.1 hlast
  obtain rfl : bs = [] := List.map_eq_nil_iff.1 hbs
  obtain rfl : b = a := Address.eq_of_path_eq (hall b (by simp)) (hall a (by simp)) hb
  refine ⟨b, as, rfl, List.Nodup.of_map Address.path (by rwa [List.map_cons]), ?_⟩
  rw [List.isChain_map] at hchain
  have hfollows : ∀ as : List Address, (∀ a ∈ as, a.Undotted) →
      as.IsChain (fun a b => Edge edges a.path b.path) → as.IsChain g.Follows := by
    intro as has hch
    induction hch with
    | nil => exact .nil
    | singleton a => exact .singleton a
    | cons_cons hab _ ih =>
        obtain ⟨_, hrest⟩ := List.forall_mem_cons.1 has
        exact .cons_cons (follows_of_edge h (hrest _ (List.mem_cons_self ..)) hab) (ih hrest)
  exact hfollows _ hall hchain

theorem acyclic_edge_iff {edges : Edges} (h : g.edges = .ok edges) : Acyclic (Edge edges) ↔ Acyclic g.Follows := by
  constructor
  · intro hac a ha
    exact hac a.path (Relation.TransGen.lift Address.path (fun _ _ hab => edge_of_follows h hab) a a ha)
  · intro hac
    rw [← findCycle?_eq_none_iff]
    cases hf : findCycle? edges with
    | none => rfl
    | some cycle =>
        obtain ⟨as, has, _⟩ := exists_isCycle_follows h (isCycle_of_findCycle? hf)
        exact absurd hac has.not_acyclic

theorem allResolve_iff : g.AllResolve ↔ ∀ e ∈ g.allEntries, ∃ ts, g.targets e = .ok ts := by
  refine forall₂_congr fun e _ => ?_
  unfold targets
  constructor
  · intro h
    split
    · exact ⟨[], rfl⟩
    · next s hv =>
        refine exists_mapM_eq_ok_iff.2 fun r hr => ?_
        obtain ⟨b, hb⟩ := h s hv r hr
        exact ⟨b.path, map_eq_ok_iff.2 ⟨b, hb, rfl⟩⟩
  · intro h s hv r hr
    rw [hv] at h
    obtain ⟨p, hp⟩ := exists_mapM_eq_ok_iff.1 h r hr
    obtain ⟨b, hb, _⟩ := map_eq_ok_iff.1 hp
    exact ⟨b, hb⟩

theorem allResolve_iff_edges : g.AllResolve ↔ ∃ edges, g.edges = .ok edges := by
  have hmap : (∃ edges, g.edges = .ok edges) ↔
      ∃ bs, (g.allEntries.mapM fun e => (g.targets e).map fun ts => (e.address.path, ts)) = .ok bs := by
    constructor
    · rintro ⟨_, h⟩
      obtain ⟨bs, hbs, _⟩ := map_eq_ok_iff.1 h
      exact ⟨bs, hbs⟩
    · rintro ⟨bs, hbs⟩
      exact ⟨_, map_eq_ok_iff.2 ⟨bs, hbs, rfl⟩⟩
  rw [hmap, exists_mapM_eq_ok_iff, allResolve_iff]
  refine forall₂_congr fun e _ => ?_
  constructor
  · rintro ⟨ts, hts⟩
    exact ⟨_, map_eq_ok_iff.2 ⟨ts, hts, rfl⟩⟩
  · rintro ⟨b, hb⟩
    obtain ⟨ts, hts, _⟩ := map_eq_ok_iff.1 hb
    exact ⟨ts, hts⟩

/-! ## The check -/

theorem checkCycles_of_edges {edges : Edges} (h : g.edges = .ok edges) :
    g.checkCycles = match findCycle? edges with
      | some cycle => .error (.referenceCycle cycle)
      | none => .ok () := by
  rw [checkCycles, h]
  rfl

theorem allResolve_of_checkCycles (h : g.checkCycles = .ok ()) : g.AllResolve := by
  obtain ⟨edges, hedges, _⟩ := bind_eq_ok_iff.1 h
  exact allResolve_iff_edges.2 ⟨edges, hedges⟩

/-- A graph whose references all lead to tokens is refused exactly if the search can go round, along last tokens of
their paths, and then for the paths of a cycle. Where no token that is referred to is shadowed, the same holds of the
references themselves. -/
theorem checkCycles_exact (h : g.AllResolve) :
    (g.checkCycles = .ok () ↔ Acyclic g.Follows) ∧
    (∀ f, g.checkCycles = .error f →
      ∃ as, IsCycle g.Follows as ∧ f = .referenceCycle (as.map Address.path)) ∧
    (g.Unshadowed →
      (g.checkCycles = .ok () ↔ Acyclic g.Refers) ∧
      ∀ f, g.checkCycles = .error f → ∃ as, IsCycle g.Refers as ∧ f = .referenceCycle (as.map Address.path)) := by
  obtain ⟨edges, hedges⟩ := allResolve_iff_edges.1 h
  have hok : g.checkCycles = .ok () ↔ Acyclic g.Follows := by
    rw [← acyclic_edge_iff hedges, ← findCycle?_eq_none_iff, checkCycles_of_edges hedges]
    cases findCycle? edges <;> simp
  have herror : ∀ f, g.checkCycles = .error f →
      ∃ as, IsCycle g.Follows as ∧ f = .referenceCycle (as.map Address.path) := by
    intro f hf
    rw [checkCycles_of_edges hedges] at hf
    split at hf
    · next cycle hc =>
        cases hf
        obtain ⟨as, has, hpaths⟩ := exists_isCycle_follows hedges (isCycle_of_findCycle? hc)
        exact ⟨as, has, by rw [hpaths]⟩
    · cases hf
  refine ⟨hok, herror, fun hsh => ?_⟩
  -- Whatever the search goes to is referred to by some token, so both relations lead to unshadowed tokens only.
  have hto : ∀ a, (∃ k, g.Follows k a) → ∃ k, g.Refers k a := by
    rintro a ⟨_, e, _, ha⟩
    exact ⟨e.address, ha⟩
  have hfr : ∀ a, (∃ k, g.Follows k a) → ∀ b, g.Follows a b → g.Refers a b := by
    intro a ha b hab
    obtain ⟨k, hk⟩ := hto a ha
    exact (hsh k a hk b).1 hab
  have hrf : ∀ a, (∃ k, g.Refers k a) → ∀ b, g.Refers a b → g.Follows a b := by
    rintro a ⟨k, hk⟩ b hab
    exact (hsh k a hk b).2 hab
  constructor
  · rw [hok]
    exact ⟨fun hac => hac.imp hrf, fun hac => hac.imp hfr⟩
  · intro f hf
    obtain ⟨as, has, hpaths⟩ := herror f hf
    exact ⟨as, has.imp hfr, hpaths⟩

/-- Two tokens of two layers that refer to each other. -/
private def circleDocument : Json :=
  .object [
    ("primitives", .object [("base", .object [("$value", .text "{gap}")])]),
    ("semantic", .object [("gap", .object [("$value", .text "{ primitives.base } + 1")])]),
    ("component", .object [])]

private def circle : Graph := (Graph.ofJson circleDocument).toOption.get (by decide +kernel)

private theorem edges_circle : circle.edges = .ok
    [("primitives.base", ["semantic.gap"]), ("semantic.gap", ["primitives.base"])] := by
  decide +kernel

theorem checkCycles_exact_circle :
    Graph.ofJson circleDocument = .ok circle ∧ circle.AllResolve ∧ circle.Unshadowed ∧ ¬Acyclic circle.Refers ∧
      ∃ as, IsCycle circle.Refers as ∧
        as.map Address.path = ["primitives.base", "semantic.gap", "primitives.base"] := by
  have hall : circle.AllResolve := allResolve_iff_edges.2 ⟨_, edges_circle⟩
  have hun : circle.Unshadowed := unshadowed_of_undotted (by decide +kernel)
  have hcheck : circle.checkCycles =
      .error (.referenceCycle ["primitives.base", "semantic.gap", "primitives.base"]) := by
    rw [checkCycles_of_edges edges_circle]
    simp [findCycle?, visitAll, visit_eq, List.lookup_cons, Except.map]
  obtain ⟨_, _, hrefers⟩ := checkCycles_exact hall
  obtain ⟨hok, hchain⟩ := hrefers hun
  refine ⟨eq_ok_get _, hall, hun, ?_, ?_⟩
  · rw [← hok, hcheck]
    simp
  · obtain ⟨as, has, hpaths⟩ := hchain _ hcheck
    exact ⟨as, has, by simpa using hpaths.symm⟩

/-- A token that refers to itself, and one with the same path after it. -/
private def shadowedDocument : Json :=
  .object [
    ("primitives", .object [
      ("a", .object [("b", .object [("$value", .text "{a.b}")])]),
      ("a.b", .object [("$value", .text "1")])]),
    ("semantic", .object []),
    ("component", .object [])]

private def shadowed : Graph := (Graph.ofJson shadowedDocument).toOption.get (by decide +kernel)

private theorem edges_shadowed : shadowed.edges = .ok [("primitives.a.b", [])] := by decide +kernel

/-- The check misses a token that refers to itself if another one has its path. -/
theorem not_exact_shadowed :
    Graph.ofJson shadowedDocument = .ok shadowed ∧ shadowed.AllResolve ∧ shadowed.checkCycles = .ok () ∧
      shadowed.Refers ⟨.primitives, ["a", "b"]⟩ ⟨.primitives, ["a", "b"]⟩ ∧
      ¬(shadowed.checkCycles = .ok () ↔ Acyclic shadowed.Refers) := by
  have hcheck : shadowed.checkCycles = .ok () := by
    rw [checkCycles_of_edges edges_shadowed]
    simp [findCycle?, visitAll, visit_eq, Except.map]
  have hself : shadowed.Refers ⟨.primitives, ["a", "b"]⟩ ⟨.primitives, ["a", "b"]⟩ := by
    refine ⟨⟨.text "{a.b}", none⟩, "{a.b}", ?_, rfl, "{a.b}", ?_, ?_⟩ <;> decide +kernel
  refine ⟨eq_ok_get _, allResolve_iff_edges.2 ⟨_, edges_shadowed⟩, hcheck, hself, ?_⟩
  intro h
  exact h.1 hcheck _ (.single hself)

end Graph

end DesignTokens
