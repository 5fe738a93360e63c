import DesignTokens.Proofs.Blank
import DesignTokens.Proofs.Resolve
import DesignTokens.Proofs.Steps
import DesignTokens.Token.Document

/-!
# The spellings of a reference

A reference may stand in braces or not, with white space around its keys and around the braces, and may name the layer
of its token or leave it to the search. All spellings of the same keys lead to the same token.
-/

namespace DesignTokens

namespace Text

variable {sep c : Char} {f : List Char} {fs : List (List Char)}

theorem mem_join (h : c ∈ join [sep] fs) : c = sep ∨ ∃ f ∈ fs, c ∈ f := by
  fun_induction join [sep] fs with
  | case1 => cases h
  | case2 f => exact .inr ⟨f, List.mem_singleton.2 rfl, h⟩
  | case3 f g fs ih =>
      rcases List.mem_append.1 h with h | h
      · rcases List.mem_append.1 h with h | h
        · exact .inr ⟨f, List.mem_cons_self .., h⟩
        · exact .inl (List.mem_singleton.1 h)
      · rcases ih h with h | ⟨d, hd, h⟩
        · exact .inl h
        · exact .inr ⟨d, List.mem_cons_of_mem _ hd, h⟩

theorem head?_join (h : c ∈ (join [sep] (f :: fs)).head?) : c ∈ f.head? ∨ c = sep := by
  cases fs with
  | nil => exact .inl h
  | cons g fs =>
      cases f with
      | nil => exact .inr (Option.some.inj h).symm
      | cons d f => exact .inl h

theorem getLast?_join (h : c ∈ (join [sep] (fs ++ [f])).getLast?) : c ∈ f.getLast? ∨ c = sep := by
  rw [join_concat] at h
  rcases List.eq_nil_or_concat' f with rfl | ⟨f, d, rfl⟩
  · rcases List.eq_nil_or_concat' fs with rfl | ⟨fs, g, rfl⟩
    · cases h
    · refine .inr ?_
      simpa [← List.append_assoc, eq_comm] using h
  · refine .inl ?_
    simpa [← List.append_assoc] using h

end Text

namespace Reference

open Text

/-! ## White space and braces -/

/-- The ways to write a text as a reference: bare or in braces, with white space around it and around the braces. -/
inductive Spells (s : List Char) : List Char → Prop where
  | bare {before after : List Char} :
      (∀ c ∈ before, isBlank c = true) → (∀ c ∈ after, isBlank c = true) → Spells s (before ++ s ++ after)
  | braced {before left right after : List Char} :
      (∀ c ∈ before, isBlank c = true) → (∀ c ∈ left, isBlank c = true) → (∀ c ∈ right, isBlank c = true) →
        (∀ c ∈ after, isBlank c = true) → Spells s (before ++ braced (left ++ s ++ right) ++ after)

theorem trimmed_braced (inner : List Char) : Trimmed (braced inner) := .of_cons_concat rfl rfl

theorem clean_of_spells {s reference : List Char} (h : Spells s reference) (hs : Trimmed s)
    (hbraces : ∀ c ∈ s, c ≠ '{' ∧ c ≠ '}') : clean reference = s := by
  cases h with
  | bare hbefore hafter =>
      have hopen : s.head? ≠ some '{' := fun h => (hbraces _ (List.mem_of_mem_head? h)).1 rfl
      have hclose : s.getLast? ≠ some '}' := fun h => (hbraces _ (List.mem_of_getLast? h)).2 rfl
      have htrim : trim ([] ++ s ++ []) = s := hs.trim_eq (List.forall_mem_nil _) (List.forall_mem_nil _)
      rw [List.nil_append, List.append_nil] at htrim
      simp only [clean, hs.trim_eq hbefore hafter, if_neg hopen, if_neg hclose, htrim]
  | @braced before left right after hbefore hleft hright hafter =>
      have hdrop : (braced (left ++ s ++ right)).drop 1 = left ++ s ++ right ++ ['}'] := rfl
      have hhead : (braced (left ++ s ++ right)).head? = some '{' := rfl
      simp only [clean, (trimmed_braced _).trim_eq hbefore hafter, if_pos hhead, hdrop, List.getLast?_concat, if_true,
        List.dropLast_concat, hs.trim_eq hleft hright]

/-! ## Keys -/

/-- Keys that a reference can spell: they have no points and no braces, and white space neither where the first one
begins nor where the last one ends. -/
structure Legible (keys : List String) : Prop where
  ne_nil : keys ≠ []
  plain : ∀ key ∈ keys, ∀ c ∈ key.toList, c ≠ '.' ∧ c ≠ '{' ∧ c ≠ '}'
  first : ∀ key ∈ keys.head?, ∀ c ∈ key.toList.head?, isBlank c = false
  last : ∀ key ∈ keys.getLast?, ∀ c ∈ key.toList.getLast?, isBlank c = false

/-- The first key is not taken for the name of a layer: it is none, or no key follows it. -/
def Unqualified (keys : List String) : Prop := keys.length = 1 ∨ ∀ key ∈ keys.head?, Layer.ofName? key = none

/-- The reference spells the keys, alone or after the name of the layer. -/
def Mentions (layer : Layer) (keys : List String) (reference : String) : Prop :=
  Spells (joinWith '.' keys).toList reference.toList ∨
    Spells (joinWith '.' (layer.name :: keys)).toList reference.toList

variable {keys : List String} {layer : Layer}

namespace Legible

theorem trimmed_join (h : Legible keys) : Trimmed (join ['.'] (keys.map String.toList)) := by
  refine ⟨fun c hc => ?_, fun c hc => ?_⟩
  · obtain ⟨key, rest, rfl⟩ := List.exists_cons_of_ne_nil h.ne_nil
    rcases head?_join hc with hc | rfl
    · exact h.first key rfl c hc
    · rfl
  · obtain ⟨front, key, rfl⟩ := (List.eq_nil_or_concat' keys).resolve_left h.ne_nil
    rw [List.map_append] at hc
    rcases getLast?_join hc with hc | rfl
    · exact h.last key List.getLast?_concat c hc
    · rfl

theorem no_braces_join (h : Legible keys) : ∀ c ∈ join ['.'] (keys.map String.toList), c ≠ '{' ∧ c ≠ '}' := by
  intro c hc
  rcases mem_join hc with rfl | ⟨_, hf, hc⟩
  · decide
  · obtain ⟨key, hkey, rfl⟩ := List.mem_map.1 hf
    exact (h.plain key hkey c hc).2

theorem fields_join_keys (h : Legible keys) :
    (fields '.' (join ['.'] (keys.map String.toList))).map String.ofList = keys := by
  have hpoint : ∀ f ∈ keys.map String.toList, '.' ∉ f := by
    intro f hf hm
    obtain ⟨key, hkey, rfl⟩ := List.mem_map.1 hf
    exact (h.plain key hkey '.' hm).1 rfl
  rw [fields_join (by simpa using h.ne_nil) hpoint]
  simp

theorem qualified (h : Legible keys) (layer : Layer) : Legible (layer.name :: keys) where
  ne_nil := List.cons_ne_nil _ _
  plain := by
    have hname : ∀ c ∈ layer.name.toList, c ≠ '.' ∧ c ≠ '{' ∧ c ≠ '}' := by cases layer <;> simp [Layer.name]
    exact List.forall_mem_cons.2 ⟨hname, h.plain⟩
  first := by
    intro key hkey
    cases hkey
    cases layer <;> simp [Layer.name, isBlank]
  last := by
    intro key hkey
    rw [List.getLast?_cons_of_ne_nil h.ne_nil] at hkey
    exact h.last key hkey

end Legible

theorem candidates_of_unqualified (h : Unqualified keys) :
    candidates keys = Layer.all.map fun layer => ⟨layer, keys⟩ := by
  match keys, h with
  | [], _ => rfl
  | [_], _ => rfl
  | first :: next :: rest, h =>
      have hfirst : Layer.ofName? first = none := h.resolve_left (by simp) first rfl
      simp [candidates, hfirst]

theorem candidates_qualified (h : keys ≠ []) (layer : Layer) : candidates (layer.name :: keys) = [⟨layer, keys⟩] := by
  obtain ⟨key, rest, rfl⟩ := List.exists_cons_of_ne_nil h
  simp [candidates, Layer.ofName?_name]

end Reference

namespace Graph

open Reference

variable {g : Graph} {layer : Layer} {keys : List String} {reference context : String}

/-- A reference that spells keys is searched for among the addresses that the keys may mean. -/
theorem resolve_of_spells (hkeys : Legible keys)
    (h : Spells (Text.joinWith '.' keys).toList reference.toList) :
    g.resolve reference context =
      match (candidates keys).find? fun a => (g.leaf? a).isSome with
      | some a => .ok a
      | none => .error (.unresolvedReference reference context) := by
  have hsaid : (Text.joinWith '.' keys).toList = Text.join ['.'] (keys.map String.toList) := String.toList_ofList ..
  rw [hsaid] at h
  have hbraces : ¬((Text.join ['.'] (keys.map String.toList)).any fun c => c == '{' || c == '}') = true := by
    simpa [imp_and, forall_and] using hkeys.no_braces_join
  cases hfound : (candidates keys).find? fun a => (g.leaf? a).isSome <;>
    simp only [resolve, clean_of_spells h hkeys.trimmed_join hkeys.no_braces_join, if_neg hbraces,
      hkeys.fields_join_keys, hfound]

theorem resolve_qualified (hkeys : Legible keys)
    (h : Spells (Text.joinWith '.' (layer.name :: keys)).toList reference.toList) :
    g.resolve reference context =
      if (g.leaf? ⟨layer, keys⟩).isSome then .ok ⟨layer, keys⟩
      else .error (.unresolvedReference reference context) := by
  rw [resolve_of_spells (hkeys.qualified layer) h, candidates_qualified hkeys.ne_nil]
  cases hleaf : g.leaf? ⟨layer, keys⟩ <;> simp [hleaf]

theorem resolve_unqualified (hkeys : Legible keys) (hsearch : Unqualified keys)
    (h : Spells (Text.joinWith '.' keys).toList reference.toList) :
    g.resolve reference context =
      match Layer.all.find? fun layer => (g.leaf? ⟨layer, keys⟩).isSome with
      | some layer => .ok ⟨layer, keys⟩
      | none => .error (.unresolvedReference reference context) := by
  rw [resolve_of_spells hkeys h, candidates_of_unqualified hsearch, List.find?_map, Function.comp_def]
  cases Layer.all.find? fun layer => (g.leaf? ⟨layer, keys⟩).isSome <;> simp

/-- Keys of a token lead to it in all spellings: with the name of its layer always, and without if no layer before it
has such a token. Keys of no token are refused in all spellings, and the name of a layer leads to no other layer. -/
theorem resolve_spellings (g : Graph) (layer : Layer) (context : String) (hkeys : Legible keys)
    (hsearch : Unqualified keys) :
    (IsFirst (fun l => ∃ leaf, g.leaf? ⟨l, keys⟩ = some leaf) Layer.all layer →
      ∀ reference, Mentions layer keys reference → g.resolve reference context = .ok ⟨layer, keys⟩) ∧
    ((∀ l, g.leaf? ⟨l, keys⟩ = none) → ∀ reference, Mentions layer keys reference →
      g.resolve reference context = .error (.unresolvedReference reference context)) ∧
    ∀ reference a, Spells (Text.joinWith '.' (layer.name :: keys)).toList reference.toList →
      (g.resolve reference context = .ok a ↔ a = ⟨layer, keys⟩ ∧ ∃ leaf, g.leaf? a = some leaf) := by
  refine ⟨?_, ?_, ?_⟩
  · rintro ⟨before, after, hall, hbefore, leaf, hleaf⟩ reference (h | h)
    · have hfirst : Layer.all.find? (fun l => (g.leaf? ⟨l, keys⟩).isSome) = some layer := by
        refine List.find?_eq_some_iff_append.2 ⟨by simp [hleaf], before, after, hall, fun l hl => ?_⟩
        simpa [Option.eq_none_iff_forall_ne_some] using hbefore l hl
      rw [resolve_unqualified hkeys hsearch h, hfirst]
    · rw [resolve_qualified hkeys h, hleaf]
      rfl
  · rintro hnone reference (h | h)
    · have hfirst : Layer.all.find? (fun l => (g.leaf? ⟨l, keys⟩).isSome) = none :=
        List.find?_eq_none.2 fun l _ => by simp [hnone l]
      rw [resolve_unqualified hkeys hsearch h, hfirst]
    · rw [resolve_qualified hkeys h, hnone layer]
      rfl
  · intro reference a h
    rw [resolve_qualified hkeys h]
    cases hleaf : g.leaf? ⟨layer, keys⟩ with
    | none =>
        refine iff_of_false nofun ?_
        rintro ⟨rfl, leaf, ha⟩
        rw [hleaf] at ha
        cases ha
    | some leaf =>
        constructor
        · intro ha
          cases ha
          exact ⟨rfl, leaf, hleaf⟩
        · rintro ⟨rfl, _⟩
          rfl

/-- Three layers with the same keys, which lead to a group in the first one and to tokens in the others. -/
private def spacesDocument : Json :=
  .object [
    ("primitives", .object [("space", .object [("m", .object [("x", .object [("value", .text "1")])])])]),
    ("semantic", .object [("space", .object [("m", .object [("value", .text "4")])])]),
    ("component", .object [("space", .object [("m", .object [("value", .text "8")])])])]

private def spaces : Graph := (Graph.ofJson spacesDocument).toOption.get (by decide +kernel)

/-- A reference with blanks around its braces and in them. -/
private def spaced : String := r" { space.m" ++ "\t" ++ r"}"

theorem resolve_spellings_spaces :
    Graph.ofJson spacesDocument = .ok spaces ∧ Legible ["space", "m"] ∧ Unqualified ["space", "m"] ∧
      spaces.resolve spaced "card" = .ok ⟨.semantic, ["space", "m"]⟩ ∧
      spaces.resolve "{component.space.m}" "card" = .ok ⟨.component, ["space", "m"]⟩ ∧
      ∀ a, spaces.resolve "primitives.space.m " "card" ≠ .ok a := by
  have hkeys : Legible ["space", "m"] := ⟨by decide, by simp, by simp [Text.isBlank], by simp [Text.isBlank]⟩
  have hsearch : Unqualified ["space", "m"] := .inr (by decide +kernel)
  have hfirst : IsFirst (fun l => ∃ leaf, spaces.leaf? ⟨l, ["space", "m"]⟩ = some leaf) Layer.all .semantic := by
    refine ⟨[.primitives], [.component], rfl, ?_, Option.isSome_iff_exists.1 (by decide +kernel)⟩
    simp only [List.mem_singleton, forall_eq, ← Option.isSome_iff_exists]
    decide +kernel
  have hnil : ∀ c ∈ ([] : List Char), Text.isBlank c = true := List.forall_mem_nil _
  have hspaced : Mentions .semantic ["space", "m"] spaced := by
    have h : spaced.toList =
        [' '] ++ braced ([' '] ++ (Text.joinWith '.' ["space", "m"]).toList ++ ['\t']) ++ [] := by decide +kernel
    have hspace : ∀ c ∈ [' '], Text.isBlank c = true := List.forall_mem_singleton.2 rfl
    rw [Mentions, h]
    exact .inl (.braced hspace hspace (List.forall_mem_singleton.2 rfl) hnil)
  have hbraced : Spells (Text.joinWith '.' ["component", "space", "m"]).toList "{component.space.m}".toList := by
    have h : "{component.space.m}".toList =
        [] ++ braced ([] ++ (Text.joinWith '.' ["component", "space", "m"]).toList ++ []) ++ [] := by decide +kernel
    rw [h]
    exact .braced hnil hnil hnil hnil
  have hbare : Spells (Text.joinWith '.' ["primitives", "space", "m"]).toList "primitives.space.m ".toList := by
    have h : "primitives.space.m ".toList = [] ++ (Text.joinWith '.' ["primitives", "space", "m"]).toList ++ [' '] := by
      decide +kernel
    rw [h]
    exact .bare hnil (List.forall_mem_singleton.2 rfl)
  refine ⟨eq_ok_get _, hkeys, hsearch, ?_, ?_, fun a ha => ?_⟩
  · exact (resolve_spellings spaces .semantic "card" hkeys hsearch).1 hfirst _ hspaced
  · refine ((resolve_spellings spaces .component "card" hkeys hsearch).2.2 _ _ hbraced).2 ⟨rfl, ?_⟩
    exact Option.isSome_iff_exists.1 (by decide +kernel)
  · obtain ⟨rfl, leaf, hleaf⟩ := ((resolve_spellings spaces .primitives "card" hkeys hsearch).2.2 _ _ hbare).1 ha
    have hnone : spaces.leaf? ⟨.primitives, ["space", "m"]⟩ = none := by decide +kernel
    rw [hnone] at hleaf
    cases hleaf

end Graph

end DesignTokens
