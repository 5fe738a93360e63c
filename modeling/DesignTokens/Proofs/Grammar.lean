import DesignTokens.Proofs.RawTokens
import DesignTokens.Proofs.Readings

/-!
# The grammar of token documents

A document is read exactly if it has the three layers, no other key than metadata beside them, and a text, a number or a
truth value as the value of every token. The graph has these tokens; of those with another value the first is reported.
-/

namespace DesignTokens

/-- Values that were read are ordered. -/
theorem Json.Held.ordered {depth : Nat} {j : Json} (h : Held depth j) : j.Ordered := by
  induction h with
  | object hs _ ih => exact .object hs ih
  | null | bool _ | integer _ | binary _ | text _ | array _ _ => exact .other rfl

namespace Document

/-- The object of a document that is the token at an address, and what it says its value is. -/
def TokenOf (j : Json) (a : Address) (token : List (String × Json)) (raw : Json) : Prop :=
  ∃ top members, j = .object top ∧ (a.layer.name, .object members) ∈ top ∧ TokenBelow members ⟨a.segments, token, raw⟩

/-- The values that are documents. -/
inductive Conforms : Json → Prop where
  | document {top : List (String × Json)} :
      (∀ m ∈ top, isMetadata m.1 = false → ∃ layer : Layer, layer.name = m.1) →
        (∀ layer : Layer, ∃ members, (layer.name, .object members) ∈ top) →
          (∀ a token raw, TokenOf (.object top) a token raw → ∃ v, Denotes raw v) → Conforms (.object top)

/-- At the address there is a token whose value is neither a text nor a number nor a truth value. -/
def Offends (j : Json) (a : Address) : Prop := ∃ token raw, TokenOf j a token raw ∧ ¬∃ v, Denotes raw v

end Document

/-- The order of addresses: layer by layer, and within a layer by their keys. -/
def Address.Precedes (a b : Address) : Prop :=
  [a.layer, b.layer].Sublist Layer.all ∨ a.layer = b.layer ∧ compare a.segments b.segments = .lt

namespace Document

open Json

/-! ## Layers -/

theorem unknownKey?_eq_none_iff {top : List (String × Json)} :
    unknownKey? top = none ↔ ∀ m ∈ top, isMetadata m.1 = false → ∃ layer : Layer, layer.name = m.1 := by
  have hname : ∀ key, (Layer.ofName? key).isNone = false ↔ ∃ layer : Layer, layer.name = key := by
    intro key
    rw [Option.isNone_eq_false_iff, Option.isSome_iff_exists]
    constructor
    · rintro ⟨layer, hl⟩
      exact ⟨layer, Layer.name_of_ofName? hl⟩
    · rintro ⟨layer, rfl⟩
      exact ⟨layer, Layer.ofName?_name layer⟩
  simp only [unknownKey?, List.find?_eq_none, List.mem_map, forall_exists_index, and_imp, forall_apply_eq_imp_iff₂,
    Bool.and_eq_true, Bool.not_eq_true', not_and, Bool.not_eq_true, hname]

variable {top : List (String × Json)} {layer : Layer}

theorem exists_object_or_root_eq (h : Ordered (.object top)) (layer : Layer) :
    (∃ members, (layer.name, .object members) ∈ top) ∨ ∃ flaw, root top layer = .error (.document flaw) := by
  rw [root]
  split
  · exact .inr ⟨_, rfl⟩
  · next members hl => exact .inl ⟨members, h.lookup_eq_some_iff.1 hl⟩
  · exact .inr ⟨_, rfl⟩

theorem map_tokensBelow_root (h : Ordered (.object top)) {members : List (String × Json)}
    (hm : (layer.name, .object members) ∈ top) :
    (root top layer).map (fun c => Node.tokensBelow c.1) = (tokensIn members).mapM (readToken layer.name) := by
  have hroot : (root top layer).map Subtype.val = children layer.name members := by
    rw [map_val_root, h.lookup_eq_some_iff.2 hm]
  rw [← map_tokensBelow_children layer.name members (h.member hm), ← hroot]
  cases root top layer <;> rfl

/-- A layer is read if it is an object and each token in it has a value of the grammar. -/
theorem exists_root_eq_ok_iff (h : Ordered (.object top)) :
    (∃ c, root top layer = .ok c) ↔
      (∃ members, (layer.name, .object members) ∈ top) ∧
        ∀ a token raw, a.layer = layer → TokenOf (.object top) a token raw → ∃ v, Denotes raw v := by
  constructor
  · rintro ⟨c, hc⟩
    rcases exists_object_or_root_eq h layer with ⟨members, hm⟩ | ⟨flaw, hf⟩
    · have hread := map_tokensBelow_root h hm
      rw [hc] at hread
      have hall := exists_mapM_eq_ok_iff.1 ⟨_, hread.symm⟩
      refine ⟨⟨members, hm⟩, ?_⟩
      rintro ⟨_, keys⟩ token raw rfl ⟨_, members', ⟨⟩, hm', ht⟩
      obtain rfl := Json.object.inj (h.member_unique hm' hm)
      exact exists_readToken_eq_ok_iff.1 (hall _ ((mem_tokensIn_iff (h.member hm)).2 ht))
    · rw [hc] at hf
      cases hf
  · rintro ⟨⟨members, hm⟩, hall⟩
    have hread : ∃ ts, (tokensIn members).mapM (readToken layer.name) = .ok ts := by
      refine exists_mapM_eq_ok_iff.2 fun t ht => exists_readToken_eq_ok_iff.2 ?_
      exact hall ⟨layer, t.keys⟩ t.members t.raw rfl ⟨top, members, rfl, hm, (mem_tokensIn_iff (h.member hm)).1 ht⟩
    obtain ⟨ts, hts⟩ := hread
    rw [← map_tokensBelow_root h hm, map_eq_ok_iff] at hts
    exact hts.imp fun _ hc => hc.1

/-- The token that is reported is the first of its layer whose value is not of the grammar. -/
theorem exists_isFirst_of_root_eq_error (h : Ordered (.object top)) {path : String}
    (hr : root top layer = .error (.unsupportedValue path)) :
    ∃ members t, (layer.name, .object members) ∈ top ∧ path = dotted layer.name t.keys ∧
      IsFirst (fun t => ¬∃ v, Denotes t.raw v) (tokensIn members) t := by
  rcases exists_object_or_root_eq h layer with ⟨members, hm⟩ | ⟨flaw, hf⟩
  · have hread := map_tokensBelow_root h hm
    rw [hr] at hread
    obtain ⟨t, hfirst, ht⟩ := mapM_eq_error_iff.1 hread.symm
    simp only [exists_readToken_eq_ok_iff] at hfirst
    exact ⟨members, t, hm, Fault.unsupportedValue.inj (readToken_eq_error ht), hfirst⟩
  · rw [hr] at hf
    cases hf

end Document

/-! ## Documents -/

namespace Graph

open Document Json

variable {top : List (String × Json)}

theorem ofJson_eq_ok_iff {g : Graph} :
    ofJson (.object top) = .ok g ↔
      unknownKey? top = none ∧ ∀ layer, (root top layer).map Subtype.val = .ok (g.roots layer) := by
  rw [ofJson]
  cases unknownKey? top with
  | some key => simp
  | none =>
      simp only [bind_eq_ok_iff, true_and]
      constructor
      · rintro ⟨p, hp, s, hs, c, hc, ⟨⟩⟩ layer
        cases layer with
        | primitives => rw [hp]; rfl
        | semantic => rw [hs]; rfl
        | component => rw [hc]; rfl
      · intro hroots
        obtain ⟨p, hp, hpg⟩ := map_eq_ok_iff.1 (hroots .primitives)
        obtain ⟨s, hs, hsg⟩ := map_eq_ok_iff.1 (hroots .semantic)
        obtain ⟨c, hc, hcg⟩ := map_eq_ok_iff.1 (hroots .component)
        refine ⟨p, hp, s, hs, c, hc, ?_⟩
        obtain ⟨roots, ordered⟩ := g
        refine congrArg Except.ok ?_
        simp only [mk.injEq]
        funext layer
        cases layer with
        | primitives => exact hpg
        | semantic => exact hsg
        | component => exact hcg

theorem ofJson_eq_error_iff (h : unknownKey? top = none) {f : Fault} :
    ofJson (.object top) = .error f ↔ Layer.all.mapM (root top) = .error f := by
  rw [ofJson, h]
  simp only [Layer.all, List.mapM_cons, List.mapM_nil]
  cases root top .primitives with
  | error e => constructor <;> rintro ⟨⟩ <;> rfl
  | ok p =>
      cases root top .semantic with
      | error e => constructor <;> rintro ⟨⟩ <;> rfl
      | ok s =>
          cases root top .component with
          | error e => constructor <;> rintro ⟨⟩ <;> rfl
          | ok c => constructor <;> rintro ⟨⟩

theorem exists_ofJson_eq_ok_iff {j : Json} (h : j.Ordered) : (∃ g, ofJson j = .ok g) ↔ Conforms j := by
  constructor
  · rintro ⟨g, hg⟩
    cases j with
    | object top =>
        obtain ⟨hkeys, hroots⟩ := ofJson_eq_ok_iff.1 hg
        have hlayer := fun layer => (exists_root_eq_ok_iff h).1 ((map_eq_ok_iff.1 (hroots layer)).imp fun _ hc => hc.1)
        exact .document (unknownKey?_eq_none_iff.1 hkeys) (fun layer => (hlayer layer).1) fun a token raw =>
          (hlayer a.layer).2 a token raw rfl
    | null | bool _ | number _ | text _ | array _ => cases hg
  · rintro ⟨hkeys, hlayers, hvalues⟩
    have hroot := fun layer => (exists_root_eq_ok_iff h).2 ⟨hlayers layer, fun a token raw _ => hvalues a token raw⟩
    rw [← not_not (a := ∃ g, _), not_exists_eq_ok_iff]
    rintro ⟨f, hf⟩
    rw [ofJson_eq_error_iff (unknownKey?_eq_none_iff.2 hkeys), mapM_eq_error_iff] at hf
    obtain ⟨layer, ⟨_, _, _, _, hfails⟩, _⟩ := hf
    exact hfails (hroot layer)

/-- The tokens of the graph are those of the document. -/
theorem leaf?_eq_some_iff {j : Json} (h : j.Ordered) {g : Graph} (hg : ofJson j = .ok g) {a : Address} {leaf : Leaf} :
    g.leaf? a = some leaf ↔ ∃ token raw, TokenOf j a token raw ∧ Denotes raw leaf.value ∧ leaf.kind = kind? token := by
  cases j with
  | object top =>
      obtain ⟨c, hc, hval⟩ := map_eq_ok_iff.1 ((ofJson_eq_ok_iff.1 hg).2 a.layer)
      obtain ⟨members, hm⟩ := ((exists_root_eq_ok_iff h).1 ⟨c, hc⟩).1
      have hread := map_tokensBelow_root h hm
      rw [hc, Except.map, hval] at hread
      rw [leaf?, get?, ← Node.mem_tokensBelow_iff _ (g.ordered a.layer), mem_iff_of_mapM_eq_ok hread.symm]
      constructor
      · rintro ⟨⟨keys, token, raw⟩, ht, hr⟩
        obtain ⟨rfl, hv, hkind⟩ := readToken_eq_ok_iff.1 hr
        exact ⟨token, raw, ⟨top, members, rfl, hm, (mem_tokensIn_iff (h.member hm)).1 ht⟩, hv, hkind⟩
      · rintro ⟨token, raw, ⟨_, members', ⟨⟩, hm', ht⟩, hv, hkind⟩
        obtain rfl := Json.object.inj (h.member_unique hm' hm)
        exact ⟨⟨a.segments, token, raw⟩, (mem_tokensIn_iff (h.member hm)).2 ht, readToken_eq_ok_iff.2 ⟨rfl, hv, hkind⟩⟩
  | null | bool _ | number _ | text _ | array _ => cases hg

/-- The token that is reported offends, and it precedes all other tokens that do. -/
theorem exists_offends_of_ofJson_eq_error {j : Json} (h : j.Ordered) {path : String}
    (he : ofJson j = .error (.unsupportedValue path)) :
    ∃ a, Offends j a ∧ path = a.path ∧ ∀ b, Offends j b → a = b ∨ a.Precedes b := by
  cases j with
  | object top =>
      have hkeys : unknownKey? top = none := by
        rw [ofJson] at he
        cases hk : unknownKey? top with
        | none => rfl
        | some key => simp [hk] at he
      obtain ⟨layer, ⟨before, after, hall, hbefore, _⟩, hr⟩ := mapM_eq_error_iff.1 ((ofJson_eq_error_iff hkeys).1 he)
      obtain ⟨members, t, hm, rfl, earlier, later, htokens, hearlier, ht⟩ := exists_isFirst_of_root_eq_error h hr
      have hmem : t ∈ tokensIn members := by simp [htokens]
      refine ⟨⟨layer, t.keys⟩, ⟨t.members, t.raw, ⟨top, members, rfl, hm, (mem_tokensIn_iff (h.member hm)).1 hmem⟩, ht⟩,
        rfl, ?_⟩
      rintro ⟨l, keys⟩ ⟨token, raw, htoken, hraw⟩
      have hl : l ∈ before ++ layer :: after := hall ▸ Layer.mem_all l
      rcases List.mem_append.1 hl with hl | hl
      · -- the layers before were read, so nothing offends in them
        exact absurd (((exists_root_eq_ok_iff h).1 (not_not.1 (hbefore l hl))).2 _ token raw rfl htoken) hraw
      rcases List.mem_cons.1 hl with rfl | hl
      · obtain ⟨_, members', ⟨⟩, hm', hb⟩ := htoken
        obtain rfl := Json.object.inj (h.member_unique hm' hm)
        have hu := (mem_tokensIn_iff (h.member hm)).2 hb
        have hordered := pairwise_tokensIn _ (h.member hm)
        rw [htokens] at hu hordered
        rcases List.mem_append.1 hu with hu | hu
        · exact absurd hraw (hearlier _ hu)
        rcases List.mem_cons.1 hu with rfl | hu
        · exact .inl rfl
        · have hlt := (List.pairwise_cons.1 (List.pairwise_append.1 hordered).2.1).1 _ hu
          exact .inr (.inr ⟨rfl, hlt⟩)
      · refine .inr (.inl ?_)
        rw [hall]
        exact ((List.singleton_sublist.2 hl).cons_cons layer).trans (List.sublist_append_right ..)
  | null | bool _ | number _ | text _ | array _ => cases he

/-- The loader accepts the documents of the grammar and no others. It takes their tokens and nothing else, and of the
tokens that offend it reports the first. -/
theorem ofJson_grammar {j : Json} (h : j.Ordered) :
    ((∃ g, ofJson j = .ok g) ↔ Conforms j) ∧
      (∀ g, ofJson j = .ok g → ∀ a leaf, g.leaf? a = some leaf ↔
        ∃ token raw, TokenOf j a token raw ∧ Denotes raw leaf.value ∧ leaf.kind = kind? token) ∧
      ∀ path, ofJson j = .error (.unsupportedValue path) →
        ∃ a, Offends j a ∧ path = a.path ∧ ∀ b, Offends j b → a = b ∨ a.Precedes b :=
  ⟨exists_ofJson_eq_ok_iff h, fun _ hg _ _ => leaf?_eq_some_iff h hg,
    fun _ he => exists_offends_of_ofJson_eq_error h he⟩

/-- Two tokens have values that are not of the grammar. -/
private def fontDocument : Json :=
  .object [
    ("component", .object []),
    ("primitives", .object [("font", .object [
      ("body", .object [("$value", .object [("family", .text "Inter")])]),
      ("size", .object [("value", .text "16px")])])]),
    ("semantic", .object [("font", .object [("$value", .null)])])]

/-- Nothing that lacks a value here is a token: a layer, an object under a key of metadata, and one below a token. -/
private def nestedDocument : Json :=
  .object [
    ("$themes", .array []),
    ("component", .object []),
    ("primitives", .object [
      ("$old", .object [("gap", .object [("$value", .null)])]),
      ("$value", .null),
      ("gap", .object [("$value", .text "4px"), ("wide", .object [("$value", .null)])])]),
    ("semantic", .object [("card", .object [("value", .object [
      ("gap", .object [("$value", .text "{gap}")])])])])]

private def nestedGraph : Graph := (ofJson nestedDocument).toOption.get (by decide +kernel)

theorem ofJson_grammar_font :
    fontDocument.Ordered ∧ ofJson fontDocument = .error (.unsupportedValue "primitives.font.body") ∧
    (∃ a, Offends fontDocument a ∧ "primitives.font.body" = a.path ∧
      ∀ b, Offends fontDocument b → a = b ∨ a.Precedes b) ∧
    nestedDocument.Ordered ∧ Conforms nestedDocument ∧
    ∃ token raw, TokenOf nestedDocument ⟨.semantic, ["card", "value", "gap"]⟩ token raw ∧
      Denotes raw (.text "{gap}") := by
  have hatom : Ordered .null ∧ (∀ s, Ordered (.text s)) ∧ ∀ items, Ordered (.array items) :=
    ⟨.other rfl, fun _ => .other rfl, fun _ => .other rfl⟩
  have hfont : fontDocument.Ordered := by simp +decide [fontDocument, ordered_object_iff, Assoc.Sorted, hatom]
  have hnested : nestedDocument.Ordered := by simp +decide [nestedDocument, ordered_object_iff, Assoc.Sorted, hatom]
  have herror : (ofJson fontDocument).map (fun _ => ()) = .error (.unsupportedValue "primitives.font.body") := by
    decide +kernel
  have herror := map_eq_error_iff.1 herror
  have hok : ofJson nestedDocument = .ok nestedGraph := eq_ok_get _
  have hleaf : nestedGraph.leaf? ⟨.semantic, ["card", "value", "gap"]⟩ = some ⟨.text "{gap}", none⟩ := by
    decide +kernel
  obtain ⟨_, _, hfirst⟩ := ofJson_grammar hfont
  obtain ⟨haccept, htokens, _⟩ := ofJson_grammar hnested
  obtain ⟨token, raw, htoken, hraw, _⟩ := (htokens _ hok _ _).1 hleaf
  exact ⟨hfont, herror, hfirst _ herror, hnested, haccept.1 ⟨_, hok⟩, token, raw, htoken, hraw⟩

end Graph

end DesignTokens
