import DesignTokens.Text.Scan

/-!
# Scans of composed texts

When the scan of a text put together from two parts finds what the scans of the parts find: no item may begin in the
first part and end in the second one.
-/

namespace DesignTokens.Text.Pattern

variable {α : Type} {p : Pattern α}

/-! ## Items found -/

@[simp] theorem hits_nil : p.hits [] = [] := by
  rw [hits, pieces_nil]
  rfl

theorem hits_of_read {s a r} (h : p.read s = some (a, r)) : p.hits s = a :: p.hits r := by
  rw [hits, p.pieces_of_read h]
  rfl

theorem hits_cons {c s} (h : p.read (c :: s) = none) : p.hits (c :: s) = p.hits s := by
  rw [hits, p.pieces_cons h]
  rfl

theorem hits_append_of_none {before rest : List Char}
    (h : ∀ y, y ≠ [] → y <:+ before → p.read (y ++ rest) = none) : p.hits (before ++ rest) = p.hits rest := by
  induction before with
  | nil => rfl
  | cons c s ih =>
      have hc : p.read (c :: (s ++ rest)) = none := h (c :: s) (List.cons_ne_nil _ _) List.suffix_rfl
      rw [List.cons_append, hits_cons hc]
      exact ih fun y hy hs => h y hy (hs.trans (List.suffix_cons c s))

theorem hits_eq_nil_iff {s : List Char} : p.hits s = [] ↔ ∀ y, y <:+ s → p.read y = none := by
  constructor
  · intro h y hy
    fun_induction p.pieces s with
    | case1 =>
        cases hr : p.read y with
        | none => rfl
        | some x =>
            rw [List.suffix_nil.1 hy] at hr
            exact absurd (p.length_lt hr) (Nat.not_lt_zero _)
    | case2 c s a r hr ih =>
        rw [hits_of_read hr] at h
        cases h
    | case3 c s hr ih =>
        rcases List.suffix_cons_iff.1 hy with rfl | hy
        · exact hr
        · exact ih (hits_cons hr ▸ h) hy
  · intro h
    have hnone : p.hits (s ++ []) = p.hits [] := hits_append_of_none fun y _ hy => by
      rw [List.append_nil]
      exact h y hy
    rwa [List.append_nil, hits_nil] at hnone

/-! ## Where a scan comes to rest -/

theorem pieces_eq_cons {s : List Char} {q : Piece α} {qs : List (Piece α)} (h : p.pieces s = q :: qs) :
    ∃ r, s = q.text p ++ r ∧ p.pieces r = qs ∧ ∀ a, q = .hit a → p.read s = some (a, r) := by
  cases s with
  | nil =>
      rw [pieces_nil] at h
      cases h
  | cons c s =>
      cases hr : p.read (c :: s) with
      | none =>
          rw [p.pieces_cons hr] at h
          cases h
          exact ⟨s, rfl, rfl, nofun⟩
      | some x =>
          obtain ⟨a, r⟩ := x
          rw [p.pieces_of_read hr] at h
          cases h
          exact ⟨r, (p.text_append hr).symm, rfl, fun b hb => by cases hb; rfl⟩

/-- Between two pieces of a text the scan rests. -/
theorem pieces_eq_append {s : List Char} {ps qs : List (Piece α)} (h : p.pieces s = ps ++ qs) :
    ∃ r, s = ps.flatMap (Piece.text p) ++ r ∧ p.pieces r = qs := by
  induction ps generalizing s with
  | nil => exact ⟨s, rfl, h⟩
  | cons q ps ih =>
      obtain ⟨t, rfl, ht, _⟩ := pieces_eq_cons h
      obtain ⟨r, rfl, hr⟩ := ih ht
      exact ⟨r, by simp, hr⟩

/-- In the text `before ++ rest` the scan ends a piece where `before` ends. -/
def RestsAt (p : Pattern α) (before rest : List Char) : Prop :=
  ∃ ps, p.pieces (before ++ rest) = ps ++ p.pieces rest ∧ ps.flatMap (Piece.text p) = before

theorem RestsAt.hits_append {before rest : List Char} (h : p.RestsAt before rest) :
    ∃ items, p.hits (before ++ rest) = items ++ p.hits rest := by
  obtain ⟨ps, hps, _⟩ := h
  exact ⟨ps.filterMap Piece.hit?, by rw [hits, hps, List.filterMap_append, hits]⟩

/-- An item is found where the scan rests. -/
theorem exists_restsAt_of_mem_hits {s : List Char} {a : α} (h : a ∈ p.hits s) :
    ∃ before rest r, s = before ++ rest ∧ p.RestsAt before rest ∧ p.read rest = some (a, r) := by
  rw [hits, List.mem_filterMap] at h
  obtain ⟨piece, hpiece, hhit⟩ := h
  obtain ⟨ps, qs, hps⟩ := List.append_of_mem hpiece
  obtain ⟨rest, rfl, hrest⟩ := pieces_eq_append hps
  obtain ⟨r, _, _, hread⟩ := pieces_eq_cons hrest
  cases piece with
  | plain c => cases hhit
  | hit b =>
      cases hhit
      exact ⟨_, rest, r, rfl, ⟨ps, hrest ▸ hps, rfl⟩, hread a rfl⟩

theorem exists_read_of_mem_hits {s : List Char} {a : α} (h : a ∈ p.hits s) : ∃ t r, p.read t = some (a, r) := by
  obtain ⟨_, rest, r, _, _, hread⟩ := exists_restsAt_of_mem_hits h
  exact ⟨rest, r, hread⟩

/-- Wherever the text before a resting place is cut, the scan rests there, or an item lies across the cut. -/
theorem RestsAt.cut {a b rest : List Char} (h : p.RestsAt (a ++ b) rest) :
    p.RestsAt b rest ∨
      ∃ item s r u v, p.read s = some (item, r) ∧ p.text item = u ++ v ∧ u ≠ [] ∧ v ≠ [] ∧ v <+: b := by
  obtain ⟨ps, hps, htext⟩ := h
  induction ps generalizing a with
  | nil =>
      obtain ⟨rfl, rfl⟩ := List.append_eq_nil_iff.1 htext.symm
      exact .inl ⟨[], rfl, rfl⟩
  | cons q ps ih =>
      obtain ⟨r, hr, hpieces, hread⟩ := pieces_eq_cons hps
      rcases List.append_eq_append_iff.1 htext with ⟨a', rfl, hrest⟩ | ⟨v, hq, hb⟩
      · rw [List.append_assoc, List.append_assoc, List.append_cancel_left_eq] at hr
        rw [← hr, ← List.append_assoc] at hpieces
        exact ih hpieces hrest
      by_cases ha : a = []
      · subst ha
        exact .inl ⟨q :: ps, hps, htext⟩
      by_cases hv : v = []
      · subst hv
        rw [List.nil_append] at hb
        rw [List.append_nil] at hq
        rw [hq, List.append_assoc, List.append_cancel_left_eq] at hr
        exact .inl ⟨ps, hr ▸ hpieces, hb.symm⟩
      cases q with
      | plain c =>
          have hlength := congrArg List.length hq
          have := List.length_pos_iff.2 ha
          have := List.length_pos_iff.2 hv
          simp [Piece.text] at hlength
          omega
      | hit item => exact .inr ⟨item, _, r, a, v, hread item rfl, hq, ha, hv, ⟨_, hb.symm⟩⟩

/-- If nothing after `before` changes what is read inside it, the parts are scanned one by one. -/
theorem pieces_append {before rest : List Char}
    (h : ∀ y, y ≠ [] → y <:+ before → p.read (y ++ rest) = (p.read y).map fun x => (x.1, x.2 ++ rest)) :
    p.pieces (before ++ rest) = p.pieces before ++ p.pieces rest := by
  generalize hn : before.length = n
  induction n using Nat.strongRecOn generalizing before with
  | _ n ih =>
      cases before with
      | nil => rw [pieces_nil]; rfl
      | cons c s =>
          have hc := h (c :: s) (List.cons_ne_nil _ _) List.suffix_rfl
          cases hr : p.read (c :: s) with
          | none =>
              rw [hr, List.cons_append] at hc
              rw [List.cons_append, p.pieces_cons hc, p.pieces_cons hr, List.cons_append]
              rw [ih s.length (by simp [← hn]) (fun y hy hs => h y hy (hs.trans (List.suffix_cons c s))) rfl]
          | some x =>
              obtain ⟨a, r⟩ := x
              rw [hr] at hc
              have hs : r <:+ c :: s := ⟨p.text a, p.text_append hr⟩
              rw [p.pieces_of_read hc, p.pieces_of_read hr, List.cons_append]
              rw [ih r.length (hn ▸ p.length_lt hr) (fun y hy hy' => h y hy (hy'.trans hs)) rfl]

theorem hits_append {before rest : List Char}
    (h : ∀ y, y ≠ [] → y <:+ before → p.read (y ++ rest) = (p.read y).map fun x => (x.1, x.2 ++ rest)) :
    p.hits (before ++ rest) = p.hits before ++ p.hits rest := by
  rw [hits, pieces_append h, List.filterMap_append]
  rfl

/-! ## Items that end with a character -/

/-- Items end with the first `c` in them, and what follows does not matter. -/
structure ClosedBy (p : Pattern α) (c : Char) : Prop where
  text_eq : ∀ {s a r}, p.read s = some (a, r) → ∃ body, p.text a = body ++ [c] ∧ c ∉ body
  read_text : ∀ {s a r}, p.read s = some (a, r) → ∀ r', p.read (p.text a ++ r') = some (a, r')

namespace ClosedBy

variable {c : Char}

theorem read_append (h : p.ClosedBy c) {y : List Char} (hy : c ∈ y) (rest : List Char) :
    p.read (y ++ rest) = (p.read y).map fun x => (x.1, x.2 ++ rest) := by
  cases hr : p.read (y ++ rest) with
  | some x =>
      obtain ⟨a, r⟩ := x
      obtain ⟨body, htext, hbody⟩ := h.text_eq hr
      have he : y ++ rest = body ++ c :: r := by
        rw [← p.text_append hr, htext, List.append_assoc, List.singleton_append]
      rcases List.append_eq_append_iff.1 he with ⟨w, hw, _⟩ | ⟨w, hw, hr'⟩
      · exact absurd (hw ▸ List.mem_append_left w hy) hbody
      · cases w with
        | nil => exact absurd (List.append_nil body ▸ hw ▸ hy) hbody
        | cons d w =>
            obtain ⟨rfl, rfl⟩ := List.cons.inj hr'
            have hread := h.read_text hr w
            rw [htext, List.append_assoc, List.singleton_append, ← hw] at hread
            rw [hread]
            rfl
  | none =>
      cases hy : p.read y with
      | none => rfl
      | some x =>
          obtain ⟨a, r⟩ := x
          have hread := h.read_text hy (r ++ rest)
          rw [← List.append_assoc, p.text_append hy, hr] at hread
          cases hread

/-- After the character the scan starts anew. -/
theorem hits_append (h : p.ClosedBy c) (s rest : List Char) :
    p.hits (s ++ c :: rest) = p.hits (s ++ [c]) ++ p.hits rest := by
  rw [List.append_cons]
  refine Pattern.hits_append fun y hy hs => h.read_append ?_ rest
  obtain rfl | ⟨t, rfl, _⟩ := List.suffix_concat_iff.1 hs
  · exact absurd rfl hy
  · simp

end ClosedBy

end DesignTokens.Text.Pattern
