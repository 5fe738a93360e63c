/-!
Finite maps as lists of bindings in strictly increasing key order. Main statements: `insert` keeps the
order, `lookup` after `insert` sees the new binding and all others, and sorted maps with the same look-ups are equal.
-/

namespace DesignTokens.Assoc

variable {κ ν : Type} [Ord κ]

/-- Binds `k` to `v` in its place, instead of what `k` was bound to before. -/
def insert (k : κ) (v : ν) : List (κ × ν) → List (κ × ν)
  | [] => [(k, v)]
  | b :: rest =>
    match compare k b.1 with
    | .lt => (k, v) :: b :: rest
    | .eq => (k, v) :: rest
    | .gt => b :: insert k v rest

/-- Binds each key to the last value that the list gives it. -/
def ofList (bindings : List (κ × ν)) : List (κ × ν) :=
  bindings.foldl (fun m b => insert b.1 b.2 m) []

/-- The keys increase strictly, so each key is bound at most once. -/
def Sorted (m : List (κ × ν)) : Prop := m.Pairwise fun a b => compare a.1 b.1 = .lt

theorem sorted_nil : Sorted ([] : List (κ × ν)) := .nil

theorem mem_insert {k : κ} {v : ν} {m : List (κ × ν)} {b : κ × ν} (h : b ∈ insert k v m) :
    b = (k, v) ∨ b ∈ m := by
  induction m with
  | nil => simpa [insert] using h
  | cons a rest ih =>
    simp only [insert] at h
    split at h <;> simp only [List.mem_cons] at h ⊢
    · exact h
    · exact h.imp id .inr
    · rcases h with h | h
      · exact .inr (.inl h)
      · exact (ih h).imp id .inr

theorem sorted_insert [Std.TransOrd κ] [Std.LawfulEqOrd κ] {k : κ} {v : ν} {m : List (κ × ν)}
    (h : Sorted m) : Sorted (insert k v m) := by
  induction m with
  | nil => exact List.pairwise_singleton ..
  | cons a rest ih =>
    obtain ⟨ha, hr⟩ := List.pairwise_cons.1 h
    simp only [insert]
    split
    · next hk =>
      refine List.pairwise_cons.2 ⟨fun b hb => ?_, h⟩
      rcases List.mem_cons.1 hb with rfl | hb
      · exact hk
      · exact Std.TransCmp.lt_trans hk (ha b hb)
    · next hk =>
      have hk := Std.LawfulEqCmp.eq_of_compare hk
      exact List.pairwise_cons.2 ⟨fun b hb => hk ▸ ha b hb, hr⟩
    · next hk =>
      refine List.pairwise_cons.2 ⟨fun b hb => ?_, ih hr⟩
      rcases mem_insert hb with rfl | hb
      · exact Std.OrientedCmp.lt_of_gt hk
      · exact ha b hb

theorem sorted_ofList [Std.TransOrd κ] [Std.LawfulEqOrd κ] (bindings : List (κ × ν)) :
    Sorted (ofList bindings) := by
  suffices ∀ m, Sorted m → Sorted (bindings.foldl (fun m b => insert b.1 b.2 m) m) from this [] sorted_nil
  induction bindings with
  | nil => exact fun m h => h
  | cons b rest ih => exact fun m h => ih _ (sorted_insert h)

theorem mem_of_mem_ofList {bindings : List (κ × ν)} {b : κ × ν} (h : b ∈ ofList bindings) : b ∈ bindings := by
  suffices ∀ m : List (κ × ν), b ∈ bindings.foldl (fun m b => insert b.1 b.2 m) m → b ∈ m ∨ b ∈ bindings by
    simpa using this [] h
  clear h
  induction bindings with
  | nil => exact fun m hm => .inl hm
  | cons a rest ih =>
    intro m hm
    rcases ih (insert a.1 a.2 m) hm with hm | hr
    · exact (mem_insert hm).elim (fun he => .inr (he ▸ List.mem_cons_self ..)) .inl
    · exact .inr (List.mem_cons_of_mem _ hr)

theorem insert_eq_cons {k : κ} {v : ν} {m : List (κ × ν)} (h : ∀ b ∈ m, compare k b.1 = .lt) :
    insert k v m = (k, v) :: m := by
  cases m with
  | nil => rfl
  | cons a rest => rw [insert, h a (List.mem_cons_self ..)]

/-- A binding after all others is put behind them. -/
theorem insert_eq_append [Std.OrientedOrd κ] {k : κ} {v : ν} {m : List (κ × ν)} (h : ∀ b ∈ m, compare b.1 k = .lt) :
    insert k v m = m ++ [(k, v)] := by
  induction m with
  | nil => rfl
  | cons a rest ih =>
    obtain ⟨ha, hr⟩ := List.forall_mem_cons.1 h
    simp only [insert, Std.OrientedCmp.gt_of_lt ha, ih hr, List.cons_append]

/-- The list of a map gives back the map. -/
theorem ofList_eq_self [Std.OrientedOrd κ] {m : List (κ × ν)} (h : Sorted m) : ofList m = m := by
  suffices ∀ m' : List (κ × ν), Sorted (m' ++ m) → m.foldl (fun m b => insert b.1 b.2 m) m' = m' ++ m from
    this [] h
  clear h
  induction m with
  | nil => exact fun m' _ => (List.append_nil m').symm
  | cons a rest ih =>
    intro m' h
    have hlast : ∀ b ∈ m', compare b.1 a.1 = .lt := fun b hb =>
      (List.pairwise_append.1 h).2.2 b hb a (List.mem_cons_self ..)
    rw [List.foldl_cons, insert_eq_append hlast, ih _ (by rwa [List.append_assoc, List.singleton_append]),
      List.append_assoc, List.singleton_append]

theorem lookup_insert [BEq κ] [LawfulBEq κ] [Std.TransOrd κ] [Std.LawfulEqOrd κ] (k k' : κ) (v : ν)
    {m : List (κ × ν)} (h : Sorted m) :
    (insert k v m).lookup k' = if k' == k then some v else m.lookup k' := by
  induction m with
  | nil => rw [insert, List.lookup_cons]; cases k' == k <;> rfl
  | cons a rest ih =>
    obtain ⟨_, hr⟩ := List.pairwise_cons.1 h
    obtain ⟨ka, va⟩ := a
    simp only [insert]
    split
    · rw [List.lookup_cons]
      cases k' == k <;> rfl
    · next hk =>
      obtain rfl : k = ka := Std.LawfulEqCmp.eq_of_compare hk
      simp only [List.lookup_cons]
      cases k' == k <;> rfl
    · next hk =>
      have hne : ka ≠ k := by rintro rfl; simp [Std.ReflCmp.compare_self] at hk
      simp only [List.lookup_cons, ih hr]
      by_cases hkk : k' = ka
      · subst hkk; simp [hne]
      · have hkk : (k' == ka) = false := beq_false_of_ne hkk
        simp only [hkk]

/-- Of several bindings of a key the last one counts. -/
theorem lookup_ofList [BEq κ] [LawfulBEq κ] [Std.TransOrd κ] [Std.LawfulEqOrd κ] (bindings : List (κ × ν)) (k : κ) :
    (ofList bindings).lookup k = bindings.reverse.lookup k := by
  suffices ∀ m, Sorted m →
      (bindings.foldl (fun m b => insert b.1 b.2 m) m).lookup k = (bindings.reverse.lookup k).or (m.lookup k) by
    simpa [ofList] using this [] sorted_nil
  induction bindings with
  | nil => exact fun m _ => rfl
  | cons b rest ih =>
    intro m hm
    obtain ⟨kb, vb⟩ := b
    rw [List.foldl_cons, ih _ (sorted_insert hm), lookup_insert _ _ _ hm, List.reverse_cons, List.lookup_append,
      Option.or_assoc, List.lookup_cons]
    cases k == kb <;> rfl

omit [Ord κ] in
/-- Filtering by keys keeps the bindings of the keys that pass. -/
theorem lookup_filter [BEq κ] [LawfulBEq κ] (p : κ → Bool) (k : κ) (m : List (κ × ν)) :
    (m.filter fun b => p b.1).lookup k = if p k then m.lookup k else none := by
  induction m with
  | nil => simp
  | cons a rest ih =>
    obtain ⟨ka, va⟩ := a
    cases hp : p ka
    · simp only [List.filter_cons, hp, Bool.false_eq_true, if_false, List.lookup_cons, ih]
      by_cases hk : k = ka
      · subst hk; simp [hp]
      · simp only [beq_false_of_ne hk]
    · simp only [List.filter_cons, hp, if_true, List.lookup_cons, ih]
      by_cases hk : k = ka
      · simp [hk, hp]
      · simp only [beq_false_of_ne hk]

theorem lookup_eq_some_of_mem [BEq κ] [LawfulBEq κ] [Std.ReflOrd κ] {m : List (κ × ν)} {b : κ × ν}
    (h : Sorted m) (hb : b ∈ m) : m.lookup b.1 = some b.2 := by
  induction m with
  | nil => cases hb
  | cons a rest ih =>
    obtain ⟨ka, va⟩ := a
    obtain ⟨ha, hr⟩ := List.pairwise_cons.1 h
    rw [List.lookup_cons]
    rcases List.mem_cons.1 hb with rfl | hin
    · simp
    · have hne : b.1 ≠ ka := by
        intro he
        have := ha _ hin
        simp [← he, Std.ReflCmp.compare_self] at this
      rw [beq_false_of_ne hne]
      exact ih hr hin

omit [Ord κ] in
theorem mem_of_lookup_eq_some [BEq κ] [LawfulBEq κ] {m : List (κ × ν)} {k : κ} {v : ν}
    (h : m.lookup k = some v) : (k, v) ∈ m := by
  induction m with
  | nil => cases h
  | cons a rest ih =>
    obtain ⟨ka, va⟩ := a
    rw [List.lookup_cons] at h
    by_cases hk : k = ka
    · subst hk; simp at h; simp [h]
    · rw [beq_false_of_ne hk] at h
      exact List.mem_cons_of_mem _ (ih h)

theorem lookup_eq_none_of_lt [BEq κ] [LawfulBEq κ] [Std.ReflOrd κ] {m : List (κ × ν)} {k : κ}
    (h : ∀ b ∈ m, compare k b.1 = .lt) : m.lookup k = none := by
  cases hl : m.lookup k with
  | none => rfl
  | some v =>
    have := h _ (mem_of_lookup_eq_some hl)
    simp [Std.ReflCmp.compare_self] at this

/-- Sorted maps with the same look-ups are equal. -/
theorem ext_lookup [BEq κ] [LawfulBEq κ] [Std.TransOrd κ] [Std.LawfulEqOrd κ] {m n : List (κ × ν)}
    (hm : Sorted m) (hn : Sorted n) (h : ∀ k, m.lookup k = n.lookup k) : m = n := by
  induction m generalizing n with
  | nil =>
    cases n with
    | nil => rfl
    | cons b n => simpa [lookup_eq_some_of_mem hn (List.mem_cons_self ..)] using h b.1
  | cons a m ih =>
    obtain ⟨ha, hm'⟩ := List.pairwise_cons.1 hm
    have hfirst := mem_of_lookup_eq_some ((h a.1).symm.trans (lookup_eq_some_of_mem hm (List.mem_cons_self ..)))
    cases n with
    | nil => cases hfirst
    | cons b n =>
      obtain ⟨hb, hn'⟩ := List.pairwise_cons.1 hn
      have hsecond := mem_of_lookup_eq_some ((h b.1).trans (lookup_eq_some_of_mem hn (List.mem_cons_self ..)))
      have hab : a = b := by
        rcases List.mem_cons.1 hfirst with hf | hf
        · exact hf
        · rcases List.mem_cons.1 hsecond with hs | hs
          · exact hs.symm
          · exact absurd (Std.TransCmp.lt_trans (ha _ hs) (hb _ hf)) (by simp [Std.ReflCmp.compare_self])
      subst hab
      refine congrArg _ (ih hm' hn' fun k => ?_)
      obtain ⟨ka, va⟩ := a
      have hk := h k
      simp only [List.lookup_cons] at hk
      by_cases he : k = ka
      · rw [he, lookup_eq_none_of_lt ha, lookup_eq_none_of_lt hb]
      · simpa only [beq_false_of_ne he] using hk

end DesignTokens.Assoc
