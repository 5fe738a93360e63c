import DesignTokens.Proofs.Entries
import DesignTokens.Proofs.Fields
import DesignTokens.Reference.Basic

/-!
# Paths and references

A reference leads to a token whose keys contain no point, and such tokens are told apart by their paths.
-/

namespace DesignTokens

namespace Address

/-- No key of the address contains a point. -/
def Undotted (a : Address) : Prop := ∀ key ∈ a.segments, '.' ∉ key.toList

instance (a : Address) : Decidable a.Undotted := inferInstanceAs (Decidable (∀ key ∈ a.segments, '.' ∉ key.toList))

theorem fields_dotted {path : String} {segments : List String} (hp : '.' ∉ path.toList)
    (h : ∀ key ∈ segments, '.' ∉ key.toList) :
    Text.fields '.' (dotted path segments).toList = path.toList :: segments.map String.toList := by
  have htext : ∀ (segments : List String) (p : String),
      (dotted p segments).toList = p.toList ++ segments.flatMap fun key => '.' :: key.toList := by
    intro segments
    induction segments with
    | nil => intro p; simp [dotted]
    | cons key rest ih =>
        intro p
        have hstep : dotted p (key :: rest) = dotted (p ++ "." ++ key) rest := rfl
        rw [hstep, ih]
        simp
  rw [htext]
  induction segments generalizing path with
  | nil => simpa using Text.fields_of_notMem hp
  | cons key rest ih =>
      obtain ⟨hkey, hrest⟩ := List.forall_mem_cons.1 h
      rw [List.flatMap_cons, List.cons_append, Text.fields_append_cons hp, ih hkey hrest, List.map_cons]

theorem point_notMem_layerName (layer : Layer) : '.' ∉ layer.name.toList := by
  cases layer <;> decide +kernel

theorem eq_of_path_eq {a b : Address} (ha : a.Undotted) (hb : b.Undotted) (h : a.path = b.path) : a = b := by
  have hfields := congrArg (fun p : String => Text.fields '.' p.toList) h
  simp only [path, fields_dotted (point_notMem_layerName _) ha, fields_dotted (point_notMem_layerName _) hb,
    List.cons.injEq] at hfields
  obtain ⟨hlayer, hsegments⟩ := hfields
  have hname : a.layer.name = b.layer.name := String.toList_inj.1 hlayer
  have hl : a.layer = b.layer := by
    have := Layer.ofName?_name a.layer
    rw [hname, Layer.ofName?_name] at this
    exact (Option.some.inj this).symm
  have hs : a.segments = b.segments := (List.map_inj_right fun _ _ h => String.toList_inj.1 h).1 hsegments
  cases a
  cases b
  simp_all

end Address

namespace Reference

/-- A candidate has the keys given, or those after the first one. -/
theorem segments_of_mem_candidates {segments : List String} {a : Address} (h : a ∈ candidates segments) :
    ∀ key ∈ a.segments, key ∈ segments := by
  have hany : ∀ {segments : List String}, a ∈ Layer.all.map (fun layer => (⟨layer, segments⟩ : Address)) →
      ∀ key ∈ a.segments, key ∈ segments := by
    intro segments ha key hkey
    obtain ⟨layer, _, rfl⟩ := List.mem_map.1 ha
    exact hkey
  unfold candidates at h
  dsimp only at h
  split at h
  · split at h
    · rw [List.mem_singleton] at h
      subst h
      exact fun key hkey => List.mem_cons_of_mem _ hkey
    · exact hany h
  · exact hany h

end Reference

namespace Graph

variable {g : Graph} {reference context : String} {a : Address}

theorem resolve_eq_ok (h : g.resolve reference context = .ok a) :
    (∃ leaf, g.leaf? a = some leaf) ∧ a.Undotted := by
  unfold resolve at h
  dsimp only at h
  split at h
  · next b hb =>
      cases h
      split at hb
      · cases hb
      · have hleaf := List.find?_some hb
        refine ⟨Option.isSome_iff_exists.1 hleaf, fun key hkey => ?_⟩
        have hmem := Reference.segments_of_mem_candidates (List.mem_of_find?_eq_some hb) key hkey
        obtain ⟨f, hf, rfl⟩ := List.mem_map.1 hmem
        rw [String.toList_ofList]
        exact Text.notMem_of_mem_fields hf
  · cases h

/-- The error of a reference names the reference and where it stands. -/
theorem resolve_eq_error {f : Fault} (h : g.resolve reference context = .error f) :
    f = .unresolvedReference reference context := by
  unfold resolve at h
  dsimp only at h
  split at h
  · cases h
  · cases h
    rfl

end Graph

end DesignTokens
