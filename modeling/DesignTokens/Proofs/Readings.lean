import DesignTokens.Proofs.Lexemes

/-!
# The values that texts give

A value that was read has integers of the exact range, objects whose keys increase, and brackets that nest no deeper than
the reader allows. Such values are equal if and only if they are alike when objects are taken as maps.
-/

namespace DesignTokens.Json

variable {α : Type}

/-- The values that are held for texts in which brackets nest at most so deep. -/
inductive Held : Nat → Json → Prop where
  | null {depth : Nat} : Held depth null
  | bool {depth : Nat} (b : Bool) : Held depth (bool b)
  | integer {depth : Nat} {n : Int} : IsExact n → Held depth (number (.integer n))
  | binary {depth : Nat} (x : Number.Binary64) : Held depth (number (.binary x))
  | text {depth : Nat} (s : String) : Held depth (text s)
  | array {depth : Nat} {items : List Json} : (∀ j ∈ items, Held depth j) → Held (depth + 1) (array items)
  | object {depth : Nat} {members : List (String × Json)} :
      Assoc.Sorted members → (∀ m ∈ members, Held depth m.2) → Held (depth + 1) (object members)

/-! ## What is read is held -/

theorem exists_of_mem_itemsUntil {close : Char} {item : Reader α} {fuel : Nat} {s r : List Char} {as : List α}
    (h : itemsUntil close item fuel s = .ok (as, r)) {a : α} (ha : a ∈ as) : ∃ s' r', item s' = .ok (a, r') := by
  induction fuel generalizing s as with
  | zero => cases h
  | succ fuel ih =>
      rw [itemsUntil, Reader.bind_eq_ok] at h
      obtain ⟨first, s₁, hfirst, h⟩ := h
      rw [Reader.bind_eq_ok] at h
      obtain ⟨c?, s₂, _, h⟩ := h
      cases c? with
      | none => cases h
      | some c =>
          simp only at h
          split at h
          · obtain ⟨_, s₃, _, h⟩ := Reader.bind_eq_ok.1 h
            obtain ⟨rfl, rfl⟩ := Reader.pure_eq_ok.1 h
            obtain rfl := List.mem_singleton.1 ha
            exact ⟨s, s₁, hfirst⟩
          · split at h
            · obtain ⟨_, s₃, _, h⟩ := Reader.bind_eq_ok.1 h
              obtain ⟨more, s₄, hmore, h⟩ := Reader.bind_eq_ok.1 h
              obtain ⟨rfl, rfl⟩ := Reader.pure_eq_ok.1 h
              rcases List.mem_cons.1 ha with rfl | ha
              · exact ⟨s, s₁, hfirst⟩
              · exact ih hmore ha
            · cases h

theorem exists_of_mem_listUntil {close : Char} {item : Reader α} {fuel : Nat} {s r : List Char} {as : List α}
    (h : listUntil close fuel item s = .ok (as, r)) {a : α} (ha : a ∈ as) : ∃ s' r', item s' = .ok (a, r') := by
  rw [listUntil, Reader.bind_eq_ok] at h
  obtain ⟨c?, s₁, _, h⟩ := h
  cases c? with
  | none => cases h
  | some c =>
      simp only at h
      split at h
      · obtain ⟨_, s₂, _, h⟩ := Reader.bind_eq_ok.1 h
        obtain ⟨rfl, rfl⟩ := Reader.pure_eq_ok.1 h
        cases ha
      · exact exists_of_mem_itemsUntil h ha

theorem exists_of_member {item : Reader α} {s r : List Char} {m : String × α} (h : member item s = .ok (m, r)) :
    ∃ s', item s' = .ok (m.2, r) := by
  rw [member, Reader.bind_eq_ok] at h
  obtain ⟨k, s₁, _, h⟩ := h
  obtain ⟨_, s₂, _, h⟩ := Reader.bind_eq_ok.1 h
  obtain ⟨a, s₃, ha, h⟩ := Reader.bind_eq_ok.1 h
  obtain ⟨rfl, rfl⟩ := Reader.pure_eq_ok.1 h
  exact ⟨s₂, ha⟩

theorem held_of_numberLexeme {s r : List Char} {n : Number} (h : numberLexeme s = .ok (n, r)) (depth : Nat) :
    Held depth (number n) := by
  rw [numberLexeme, Reader.bind_eq_ok] at h
  obtain ⟨written, s₁, _, h⟩ := h
  cases hvalue : written.value? with
  | none => rw [hvalue] at h; cases h
  | some m =>
      rw [hvalue] at h
      obtain ⟨rfl, _⟩ := Reader.pure_eq_ok.1 h
      cases m with
      | integer i => exact .integer (isExact_of_value? hvalue)
      | binary x => exact .binary x

theorem held_of_atom {c : Char} {s r : List Char} {j : Json} (h : atom c s = .ok (j, r)) (depth : Nat) :
    Held depth j := by
  rw [atom] at h
  split at h
  · obtain ⟨_, _, _, h⟩ := Reader.bind_eq_ok.1 h
    obtain ⟨rfl, _⟩ := Reader.pure_eq_ok.1 h
    exact .null
  split at h
  · obtain ⟨_, _, _, h⟩ := Reader.bind_eq_ok.1 h
    obtain ⟨rfl, _⟩ := Reader.pure_eq_ok.1 h
    exact .bool true
  split at h
  · obtain ⟨_, _, _, h⟩ := Reader.bind_eq_ok.1 h
    obtain ⟨rfl, _⟩ := Reader.pure_eq_ok.1 h
    exact .bool false
  split at h
  · obtain ⟨_, _, _, h⟩ := Reader.bind_eq_ok.1 h
    obtain ⟨t, _, _, h⟩ := Reader.bind_eq_ok.1 h
    obtain ⟨rfl, _⟩ := Reader.pure_eq_ok.1 h
    exact .text t
  split at h
  · obtain ⟨n, _, hn, h⟩ := Reader.bind_eq_ok.1 h
    obtain ⟨rfl, _⟩ := Reader.pure_eq_ok.1 h
    exact held_of_numberLexeme hn depth
  · cases h

theorem held_of_value {size depth : Nat} {s r : List Char} {j : Json} (h : value size depth s = .ok (j, r)) :
    Held depth j := by
  induction depth generalizing s r j with
  | zero =>
      rw [value, Reader.bind_eq_ok] at h
      obtain ⟨c?, s₁, _, h⟩ := h
      cases c? with
      | none => cases h
      | some c => exact held_of_atom h 0
  | succ depth ih =>
      rw [value, Reader.bind_eq_ok] at h
      obtain ⟨c?, s₁, _, h⟩ := h
      cases c? with
      | none => cases h
      | some c =>
          simp only at h
          split at h
          · obtain ⟨_, s₂, _, h⟩ := Reader.bind_eq_ok.1 h
            obtain ⟨items, s₃, hitems, h⟩ := Reader.bind_eq_ok.1 h
            obtain ⟨rfl, _⟩ := Reader.pure_eq_ok.1 h
            refine .array fun j hj => ?_
            obtain ⟨_, _, hitem⟩ := exists_of_mem_listUntil hitems hj
            exact ih hitem
          split at h
          · obtain ⟨_, s₂, _, h⟩ := Reader.bind_eq_ok.1 h
            obtain ⟨members, s₃, hmembers, h⟩ := Reader.bind_eq_ok.1 h
            obtain ⟨rfl, _⟩ := Reader.pure_eq_ok.1 h
            refine .object (Assoc.sorted_ofList members) fun m hm => ?_
            obtain ⟨_, _, hmember⟩ := exists_of_mem_listUntil hmembers (Assoc.mem_of_mem_ofList hm)
            obtain ⟨_, hvalue⟩ := exists_of_member hmember
            exact ih hvalue
          · exact held_of_atom h _

theorem held_of_read {d : String} {j : Json} (h : read d = .ok j) : Held maxDepth j := by
  simp only [read, whole] at h
  split at h
  · next hread =>
      cases h
      obtain ⟨a, s₁, ha, hread⟩ := Reader.bind_eq_ok.1 hread
      obtain ⟨c?, s₂, _, hread⟩ := Reader.bind_eq_ok.1 hread
      obtain ⟨hpair, _⟩ := Reader.pure_eq_ok.1 hread
      cases hpair
      exact held_of_value ha
  · cases h
  · cases h

/-! ## Values that are alike -/

/-- The same value, where objects are maps from keys to values. -/
inductive Alike : Json → Json → Prop where
  | null : Alike null null
  | bool (b : Bool) : Alike (bool b) (bool b)
  | number (n : Number) : Alike (number n) (number n)
  | text (s : String) : Alike (text s) (text s)
  | array {xs ys : List Json} : xs.length = ys.length →
      (∀ (i : Nat) x y, xs[i]? = some x → ys[i]? = some y → Alike x y) → Alike (array xs) (array ys)
  | object {ms ns : List (String × Json)} : (∀ k, ms.lookup k = none ↔ ns.lookup k = none) →
      (∀ k x y, ms.lookup k = some x → ns.lookup k = some y → Alike x y) → Alike (object ms) (object ns)

theorem Held.alike_self {depth : Nat} {j : Json} (h : Held depth j) : Alike j j := by
  induction h with
  | null => exact .null
  | bool b => exact .bool b
  | integer _ => exact .number _
  | binary x => exact .number _
  | text s => exact .text s
  | array _ ih =>
      refine .array rfl fun i x y hx hy => ?_
      obtain rfl := Option.some_inj.1 (hx.symm.trans hy)
      exact ih x (List.mem_of_getElem? hx)
  | object _ _ ih =>
      refine .object (fun _ => .rfl) fun k x y hx hy => ?_
      obtain rfl := Option.some_inj.1 (hx.symm.trans hy)
      exact ih (k, x) (Assoc.mem_of_lookup_eq_some hx)

theorem Alike.eq_of_held {x y : Json} (h : Alike x y) {d e : Nat} (hx : Held d x) (hy : Held e y) : x = y := by
  induction h generalizing d e with
  | null => rfl
  | bool b => rfl
  | number n => rfl
  | text s => rfl
  | @array xs ys hlength _ ih =>
      cases hx with
      | array hxs =>
        cases hy with
        | array hys =>
          refine congrArg _ (List.ext_getElem hlength fun i hi hi' => ?_)
          exact ih i _ _ (List.getElem?_eq_getElem hi) (List.getElem?_eq_getElem hi') (hxs _ (List.getElem_mem hi))
            (hys _ (List.getElem_mem hi'))
  | @object ms ns hkeys _ ih =>
      cases hx with
      | object hsorted hms =>
        cases hy with
        | object hsorted' hns =>
          refine congrArg _ (Assoc.ext_lookup hsorted hsorted' fun k => ?_)
          cases hm : ms.lookup k with
          | none => exact ((hkeys k).1 hm).symm
          | some x =>
              cases hn : ns.lookup k with
              | none => rw [(hkeys k).2 hn] at hm; cases hm
              | some y =>
                  have hx := hms (k, x) (Assoc.mem_of_lookup_eq_some hm)
                  have hy := hns (k, y) (Assoc.mem_of_lookup_eq_some hn)
                  rw [ih k x y hm hn hx hy]

/-- Values that are held are equal if and only if they are alike. -/
theorem alike_iff_eq {d e : Nat} {x y : Json} (hx : Held d x) (hy : Held e y) : Alike x y ↔ x = y :=
  ⟨fun h => h.eq_of_held hx hy, fun h => h ▸ hx.alike_self⟩

end DesignTokens.Json
