import DesignTokens.Proofs.Entries
import DesignTokens.Proofs.Steps
import DesignTokens.Token.Document

/-!
# The tokens of an object

Which members of an object are tokens, and that reading the object goes through them in the order of their keys.
-/

namespace DesignTokens

/-- The keys of an object increase, and those of its members that are objects, at every depth. -/
inductive Json.Ordered : Json → Prop where
  | other {j : Json} : j.isObject = false → Ordered j
  | object {members : List (String × Json)} :
      Assoc.Sorted members → (∀ m ∈ members, Ordered m.2) → Ordered (.object members)

namespace Document

/-- What an object says its value is: `$value`, or where there is none, a `value` that is no object. -/
inductive HasValue (members : List (String × Json)) : Json → Prop where
  | marked {raw : Json} : ("$value", raw) ∈ members → HasValue members raw
  | unmarked {raw : Json} :
      (∀ j, ("$value", j) ∉ members) → ("value", raw) ∈ members → raw.isObject = false → HasValue members raw

/-- An object with a value, and the keys that lead to it. -/
structure RawToken where
  keys : List String
  members : List (String × Json)
  raw : Json

/-- The token one key further down. -/
def RawToken.under (key : String) (t : RawToken) : RawToken := { t with keys := key :: t.keys }

/-- The tokens below an object: one goes down by keys that are no metadata, and not beyond a token. Whether the object
itself has a value makes no difference. -/
inductive TokenBelow : List (String × Json) → RawToken → Prop where
  | child {members token : List (String × Json)} {key : String} {raw : Json} :
      (key, .object token) ∈ members → isMetadata key = false → HasValue token raw →
        TokenBelow members ⟨[key], token, raw⟩
  | deeper {members group : List (String × Json)} {key : String} {t : RawToken} :
      (key, .object group) ∈ members → isMetadata key = false → (∀ raw, ¬HasValue group raw) → TokenBelow group t →
        TokenBelow members (t.under key)

/-- The values that tokens may have: texts are kept, numbers and truth values are written out. -/
inductive Denotes : Json → TokenValue → Prop where
  | text (s : String) : Denotes (.text s) (.text s)
  | number (n : Json.Number) : Denotes (.number n) (.scalar (.ofList n.text))
  | false : Denotes (.bool false) (.scalar "false")
  | true : Denotes (.bool true) (.scalar "true")

end Document

/-! ## Ordered values -/

namespace Json

theorem Ordered.sorted {members : List (String × Json)} (h : Ordered (.object members)) : Assoc.Sorted members := by
  cases h with
  | other h => cases h
  | object hs _ => exact hs

theorem Ordered.member {members : List (String × Json)} (h : Ordered (.object members)) {m : String × Json}
    (hm : m ∈ members) : Ordered m.2 := by
  cases h with
  | other h => cases h
  | object _ hall => exact hall m hm

theorem ordered_object_iff {members : List (String × Json)} :
    Ordered (.object members) ↔ Assoc.Sorted members ∧ ∀ m ∈ members, Ordered m.2 :=
  ⟨fun h => ⟨h.sorted, fun _ hm => h.member hm⟩, fun h => .object h.1 h.2⟩

theorem Ordered.tail {m : String × Json} {rest : List (String × Json)} (h : Ordered (.object (m :: rest))) :
    Ordered (.object rest) :=
  .object (List.pairwise_cons.1 h.sorted).2 fun _ hb => h.member (List.mem_cons_of_mem _ hb)

theorem Ordered.lookup_eq_some_iff {members : List (String × Json)} (h : Ordered (.object members)) {key : String}
    {j : Json} : members.lookup key = some j ↔ (key, j) ∈ members :=
  ⟨Assoc.mem_of_lookup_eq_some, fun hm => Assoc.lookup_eq_some_of_mem h.sorted hm⟩

theorem Ordered.member_unique {members : List (String × Json)} (h : Ordered (.object members)) {key : String}
    {j k : Json} (hj : (key, j) ∈ members) (hk : (key, k) ∈ members) : j = k :=
  Option.some.inj ((h.lookup_eq_some_iff.2 hj).symm.trans (h.lookup_eq_some_iff.2 hk))

end Json

namespace Document

open Json

theorem tokenValue_eq_ok_iff {path : String} {raw : Json} {v : TokenValue} :
    tokenValue path raw = .ok v ↔ Denotes raw v := by
  constructor
  · intro h
    cases raw with
    | text s => cases h; exact .text s
    | number n => cases h; exact .number n
    | bool b =>
        cases b with
        | false => cases h; exact .false
        | true => cases h; exact .true
    | null | array _ | object _ => cases h
  · rintro (_ | _ | _ | _) <;> rfl

theorem tokenValue_eq_error {path : String} {raw : Json} {f : Fault} (h : tokenValue path raw = .error f) :
    f = .unsupportedValue path := by
  cases raw with
  | text _ | number _ | bool _ => cases h
  | null | array _ | object _ => cases h; rfl

theorem rawValue?_eq_some_iff {members : List (String × Json)} (h : Ordered (.object members)) {raw : Json} :
    rawValue? members = some raw ↔ HasValue members raw := by
  rw [rawValue?]
  cases hv : members.lookup "$value" with
  | some j =>
      have hj := h.lookup_eq_some_iff.1 hv
      constructor
      · rintro ⟨⟩
        exact .marked hj
      · rintro (hraw | ⟨hno, _, _⟩)
        · rw [← hv, h.lookup_eq_some_iff.2 hraw]
          rfl
        · exact absurd hj (hno j)
  | none =>
      have hno : ∀ j, ("$value", j) ∉ members := fun j hj => by
        rw [h.lookup_eq_some_iff.2 hj] at hv
        cases hv
      simp only [Option.orElse_eq_orElse, Option.orElse_eq_or, Option.none_or, Option.filter_eq_some_iff,
        h.lookup_eq_some_iff, Bool.not_eq_true']
      constructor
      · rintro ⟨hraw, hobject⟩
        exact .unmarked hno hraw hobject
      · rintro (hraw | ⟨_, hraw, hobject⟩)
        · exact absurd hraw (hno raw)
        · exact ⟨hraw, hobject⟩

theorem rawValue?_eq_none_iff {members : List (String × Json)} (h : Ordered (.object members)) :
    rawValue? members = none ↔ ∀ raw, ¬HasValue members raw := by
  simp only [Option.eq_none_iff_forall_ne_some, ne_eq, rawValue?_eq_some_iff h]

/-! ## The tokens of a document in order -/

mutual

/-- The tokens of a value, with the keys that lead to them from there. -/
def tokensAt : Json → List RawToken
  | .object members =>
    match rawValue? members with
    | some raw => [⟨[], members, raw⟩]
    | none => tokensIn members
  | _ => []

/-- The tokens below the members, metadata left out. -/
def tokensIn : List (String × Json) → List RawToken
  | [] => []
  | (key, j) :: rest => (if isMetadata key then [] else (tokensAt j).map (RawToken.under key)) ++ tokensIn rest

end

mutual

theorem tokenBelow_of_mem_tokensAt {key : String} {members : List (String × Json)} {t : RawToken}
    (hmeta : isMetadata key = false) :
    (j : Json) → Ordered j → (key, j) ∈ members → t ∈ tokensAt j → TokenBelow members (t.under key)
  | .object group, h, hm, ht => by
      rw [tokensAt] at ht
      split at ht
      · next raw hraw =>
          obtain rfl := List.mem_singleton.1 ht
          exact .child hm hmeta ((rawValue?_eq_some_iff h).1 hraw)
      · next hraw => exact .deeper hm hmeta ((rawValue?_eq_none_iff h).1 hraw) (tokenBelow_of_mem_tokensIn group h ht)
  | .null, _, _, ht | .bool _, _, _, ht | .number _, _, _, ht | .text _, _, _, ht | .array _, _, _, ht => by
      simp [tokensAt] at ht

theorem tokenBelow_of_mem_tokensIn {t : RawToken} :
    (members : List (String × Json)) → Ordered (.object members) → t ∈ tokensIn members → TokenBelow members t
  | [], _, ht => by simp [tokensIn] at ht
  | (key, j) :: rest, h, ht => by
      rw [tokensIn, List.mem_append] at ht
      rcases ht with ht | ht
      · cases hmeta : isMetadata key with
        | true => simp [hmeta] at ht
        | false =>
            rw [hmeta, if_neg Bool.false_ne_true, List.mem_map] at ht
            obtain ⟨u, hu, rfl⟩ := ht
            exact tokenBelow_of_mem_tokensAt hmeta j (h.member (List.mem_cons_self ..)) (List.mem_cons_self ..) hu
      · cases tokenBelow_of_mem_tokensIn rest h.tail ht with
        | child hm hmeta hv => exact .child (List.mem_cons_of_mem _ hm) hmeta hv
        | deeper hm hmeta hno hb => exact .deeper (List.mem_cons_of_mem _ hm) hmeta hno hb

end

theorem mem_tokensIn_of_mem {members : List (String × Json)} {key : String} {j : Json} {t : RawToken}
    (hm : (key, j) ∈ members) (hmeta : isMetadata key = false) (ht : t ∈ tokensAt j) :
    t.under key ∈ tokensIn members := by
  induction members with
  | nil => cases hm
  | cons m rest ih =>
      rw [tokensIn, List.mem_append]
      rcases List.mem_cons.1 hm with rfl | hm
      · left
        rw [hmeta, if_neg Bool.false_ne_true]
        exact List.mem_map_of_mem ht
      · exact .inr (ih hm)

theorem mem_tokensIn_iff {members : List (String × Json)} (h : Ordered (.object members)) {t : RawToken} :
    t ∈ tokensIn members ↔ TokenBelow members t := by
  refine ⟨tokenBelow_of_mem_tokensIn members h, fun hb => ?_⟩
  induction hb with
  | @child members token key raw hm hmeta hv =>
      have hraw := (rawValue?_eq_some_iff (h.member hm)).2 hv
      exact mem_tokensIn_of_mem (t := ⟨[], token, raw⟩) hm hmeta (by simp [tokensAt, hraw])
  | deeper hm hmeta hno _ ih =>
      have hraw := (rawValue?_eq_none_iff (h.member hm)).2 hno
      exact mem_tokensIn_of_mem hm hmeta (by simpa [tokensAt, hraw] using ih (h.member hm))

theorem exists_member_of_mem_tokensIn {t : RawToken} :
    {members : List (String × Json)} → t ∈ tokensIn members → ∃ m ∈ members, ∃ keys, t.keys = m.1 :: keys
  | [], ht => by simp [tokensIn] at ht
  | (key, j) :: rest, ht => by
      rw [tokensIn, List.mem_append] at ht
      rcases ht with ht | ht
      · split at ht
        · cases ht
        · obtain ⟨u, _, rfl⟩ := List.mem_map.1 ht
          exact ⟨_, List.mem_cons_self .., u.keys, rfl⟩
      · obtain ⟨m, hm, hkeys⟩ := exists_member_of_mem_tokensIn ht
        exact ⟨m, List.mem_cons_of_mem _ hm, hkeys⟩

mutual

theorem pairwise_tokensAt : (j : Json) → Ordered j → (tokensAt j).Pairwise fun t u => compare t.keys u.keys = .lt
  | .object members, h => by
      rw [tokensAt]
      split
      · exact List.pairwise_singleton ..
      · exact pairwise_tokensIn members h
  | .null, _ | .bool _, _ | .number _, _ | .text _, _ | .array _, _ => by simp [tokensAt]

/-- The keys of the tokens increase, since those of each object do. -/
theorem pairwise_tokensIn :
    (members : List (String × Json)) → Ordered (.object members) →
      (tokensIn members).Pairwise fun t u => compare t.keys u.keys = .lt
  | [], _ => by simp [tokensIn]
  | (key, j) :: rest, h => by
      rw [tokensIn, List.pairwise_append]
      refine ⟨?_, pairwise_tokensIn rest h.tail, fun t ht u hu => ?_⟩
      · split
        · exact .nil
        · refine List.pairwise_map.2 ((pairwise_tokensAt j (h.member (List.mem_cons_self ..))).imp ?_)
          intro t u htu
          simpa [RawToken.under, List.compare_cons_cons] using htu
      · split at ht
        · cases ht
        · obtain ⟨t, _, rfl⟩ := List.mem_map.1 ht
          obtain ⟨m, hm, keys, hkeys⟩ := exists_member_of_mem_tokensIn hu
          rw [hkeys, RawToken.under, List.compare_cons_cons, (List.pairwise_cons.1 h.sorted).1 m hm]
          rfl

end

/-! ## Reading goes through the tokens in order -/

/-- What is read for a token. -/
def readToken (path : String) (t : RawToken) : Except Fault (List String × Leaf) :=
  (tokenValue (dotted path t.keys) t.raw).map fun v => (t.keys, ⟨v, kind? t.members⟩)

theorem readToken_under (path key : String) (t : RawToken) :
    readToken path (t.under key) = (readToken (path ++ "." ++ key) t).map fun r => (key :: r.1, r.2) := by
  simp only [readToken, RawToken.under, dotted, List.foldl_cons]
  cases tokenValue (t.keys.foldl (fun p s => p ++ "." ++ s) (path ++ "." ++ key)) t.raw <;> rfl

theorem mapM_readToken_under (path key : String) (ts : List RawToken) :
    (ts.map (RawToken.under key)).mapM (readToken path) =
      (ts.mapM (readToken (path ++ "." ++ key))).map (List.map fun r => (key :: r.1, r.2)) := by
  induction ts with
  | nil => rfl
  | cons t ts ih =>
      rw [List.map_cons, List.mapM_cons, List.mapM_cons, ih, readToken_under]
      cases readToken (path ++ "." ++ key) t with
      | error e => rfl
      | ok r => cases ts.mapM (readToken (path ++ "." ++ key)) <;> rfl

theorem exists_member_of_children {path : String} {members : List (String × Json)} {below : List (String × Node)}
    (h : children path members = .ok below) {b : String × Node} (hb : b ∈ below) : ∃ m ∈ members, m.1 = b.1 := by
  induction members generalizing below with
  | nil => cases h; cases hb
  | cons m rest ih =>
      obtain ⟨key, j⟩ := m
      have hrest : ∀ {below}, children path rest = .ok below → b ∈ below → ∃ m ∈ (key, j) :: rest, m.1 = b.1 :=
        fun h hb => (ih h hb).imp fun m hm => ⟨List.mem_cons_of_mem _ hm.1, hm.2⟩
      rw [children] at h
      split at h
      · exact hrest h hb
      · split at h
        · cases h
        · exact hrest h hb
        · obtain ⟨more, hmore, rfl⟩ := map_eq_ok_iff.1 h
          rcases Assoc.mem_insert hb with rfl | hb
          · exact ⟨_, List.mem_cons_self .., rfl⟩
          · exact hrest hmore hb

mutual

theorem map_tokens_node? (path : String) :
    (j : Json) → Ordered j →
      (node? path j).map (fun n => n.elim [] Node.tokens) = (tokensAt j).mapM (readToken path)
  | .object members, h => by
      rw [node?, tokensAt]
      cases rawValue? members with
      | some raw =>
          simp only [List.mapM_cons, List.mapM_nil, readToken, dotted, List.foldl_nil]
          cases tokenValue path raw <;> rfl
      | none =>
          dsimp only
          rw [← map_tokensBelow_children path members h]
          cases children path members <;> rfl
  | .null, _ | .bool _, _ | .number _, _ | .text _, _ | .array _, _ => by simp [node?, tokensAt]; rfl

theorem map_tokensBelow_children (path : String) :
    (members : List (String × Json)) → Ordered (.object members) →
      (children path members).map Node.tokensBelow = (tokensIn members).mapM (readToken path)
  | [], _ => rfl
  | (key, j) :: rest, h => by
      have hrest := map_tokensBelow_children path rest h.tail
      rw [children, tokensIn]
      split
      · simpa using hrest
      · have hnode := map_tokens_node? (path ++ "." ++ key) j (h.member (List.mem_cons_self ..))
        rw [List.mapM_append, mapM_readToken_under, ← hnode, ← hrest]
        split
        · next e hn => simp [hn]; rfl
        · next hn =>
            rw [hn]
            cases children path rest <;> rfl
        · next node hn =>
            rw [hn]
            cases hc : children path rest with
            | error e => rfl
            | ok below =>
                -- the keys that follow are greater, so the node is put in front
                have hlt : ∀ b ∈ below, compare key b.1 = .lt := fun b hb => by
                  obtain ⟨m, hm, hkey⟩ := exists_member_of_children hc hb
                  exact hkey ▸ (List.pairwise_cons.1 h.sorted).1 m hm
                simp only [Except.map, Assoc.insert_eq_cons hlt, Node.tokensBelow]
                rfl

end

theorem readToken_eq_ok_iff {path : String} {t : RawToken} {r : List String × Leaf} :
    readToken path t = .ok r ↔ t.keys = r.1 ∧ Denotes t.raw r.2.value ∧ r.2.kind = kind? t.members := by
  obtain ⟨keys, value, kind⟩ := r
  simp only [readToken, map_eq_ok_iff, tokenValue_eq_ok_iff, Prod.mk.injEq, Leaf.mk.injEq]
  constructor
  · rintro ⟨v, hv, hkeys, rfl, rfl⟩
    exact ⟨hkeys, hv, rfl⟩
  · rintro ⟨hkeys, hv, rfl⟩
    exact ⟨value, hv, hkeys, rfl, rfl⟩

theorem exists_readToken_eq_ok_iff {path : String} {t : RawToken} :
    (∃ r, readToken path t = .ok r) ↔ ∃ v, Denotes t.raw v := by
  constructor
  · rintro ⟨r, hr⟩
    exact ⟨_, (readToken_eq_ok_iff.1 hr).2.1⟩
  · rintro ⟨v, hv⟩
    exact ⟨(t.keys, ⟨v, kind? t.members⟩), readToken_eq_ok_iff.2 ⟨rfl, hv, rfl⟩⟩

theorem readToken_eq_error {path : String} {t : RawToken} {f : Fault} (h : readToken path t = .error f) :
    f = .unsupportedValue (dotted path t.keys) :=
  tokenValue_eq_error (map_eq_error_iff.1 h)

end Document

end DesignTokens
