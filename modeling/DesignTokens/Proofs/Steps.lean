import Mathlib.Data.List.Forall2

/-!
# Steps that may fail

A run of steps gives a result exactly if each step gives one, and otherwise fails as the first step that fails.
-/

namespace DesignTokens

variable {ε α β γ : Type}

theorem bind_eq_ok_iff {x : Except ε α} {f : α → Except ε β} {b : β} :
    (x >>= f) = .ok b ↔ ∃ a, x = .ok a ∧ f a = .ok b := by
  constructor
  · intro h
    cases x with
    | error e => cases h
    | ok a => exact ⟨a, rfl, h⟩
  · rintro ⟨a, rfl, h⟩
    exact h

theorem eq_ok_get {x : Except ε α} (h : x.toOption.isSome = true) : x = .ok (x.toOption.get h) := by
  cases x with
  | error e => cases h
  | ok a => rfl

theorem map_eq_ok_iff {x : Except ε α} {f : α → β} {b : β} : x.map f = .ok b ↔ ∃ a, x = .ok a ∧ f a = b := by
  constructor
  · intro h
    cases x with
    | error e => cases h
    | ok a => exact ⟨a, rfl, Except.ok.inj h⟩
  · rintro ⟨a, rfl, rfl⟩
    rfl

/-- What each step keeps holds after a run. -/
theorem foldlM_induct {f : β → α → Except ε β} {p : β → Prop} {xs : List α} {s t : β} (hs : p s)
    (hstep : ∀ s x t, p s → f s x = .ok t → p t) (h : xs.foldlM f s = .ok t) : p t := by
  induction xs generalizing s with
  | nil =>
      cases h
      exact hs
  | cons x xs ih =>
      rw [List.foldlM_cons, bind_eq_ok_iff] at h
      obtain ⟨u, hu, h⟩ := h
      exact ih (hstep s x u hs hu) h

theorem exists_of_forall₂ {r : α → β → Prop} {xs : List α} {ys : List β} (h : List.Forall₂ r xs ys) {x : α}
    (hx : x ∈ xs) : ∃ y ∈ ys, r x y := by
  induction h with
  | nil => cases hx
  | cons hxy _ ih =>
      rcases List.mem_cons.1 hx with rfl | hx
      · exact ⟨_, List.mem_cons_self .., hxy⟩
      · obtain ⟨y, hy, hr⟩ := ih hx
        exact ⟨y, List.mem_cons_of_mem _ hy, hr⟩

theorem exists_append_of_forall₂ {r : α → β → Prop} {xs xs' : List α} {ys : List β}
    (h : List.Forall₂ r (xs ++ xs') ys) :
    ∃ us vs, ys = us ++ vs ∧ List.Forall₂ r xs us ∧ List.Forall₂ r xs' vs := by
  induction xs generalizing ys with
  | nil => exact ⟨[], ys, rfl, .nil, h⟩
  | cons x xs ih =>
      cases h with
      | cons hxy hrest =>
          obtain ⟨us, vs, rfl, hus, hvs⟩ := ih hrest
          exact ⟨_ :: us, vs, rfl, .cons hxy hus, hvs⟩

theorem mapM_eq_ok_iff {f : α → Except ε β} {xs : List α} {ys : List β} :
    xs.mapM f = .ok ys ↔ List.Forall₂ (fun x y => f x = .ok y) xs ys := by
  induction xs generalizing ys with
  | nil =>
      rw [List.mapM_nil, List.forall₂_nil_left_iff]
      exact ⟨fun h => by cases h; rfl, fun h => by rw [h]; rfl⟩
  | cons x xs ih =>
      rw [List.mapM_cons, bind_eq_ok_iff, List.forall₂_cons_left_iff]
      constructor
      · rintro ⟨y, hy, h⟩
        obtain ⟨rest, hrest, h⟩ := bind_eq_ok_iff.1 h
        cases h
        exact ⟨y, rest, hy, ih.1 hrest, rfl⟩
      · rintro ⟨y, rest, hy, hrest, rfl⟩
        exact ⟨y, hy, bind_eq_ok_iff.2 ⟨rest, ih.2 hrest, rfl⟩⟩

/-- Two runs, one on the results of the other, take both steps for each item. -/
theorem exists_mapM_mapM_eq_ok_iff {f : α → Except ε β} {k : β → Except ε γ} {xs : List α} {zs : List γ} :
    (∃ ys, xs.mapM f = .ok ys ∧ ys.mapM k = .ok zs) ↔
      List.Forall₂ (fun x z => ∃ y, f x = .ok y ∧ k y = .ok z) xs zs := by
  simp only [mapM_eq_ok_iff]
  constructor
  · rintro ⟨ys, hys, hzs⟩
    induction hys generalizing zs with
    | nil =>
        cases hzs
        exact .nil
    | cons hxy _ ih =>
        cases hzs with
        | cons hyz hrest => exact .cons ⟨_, hxy, hyz⟩ (ih hrest)
  · intro h
    induction h with
    | nil => exact ⟨[], .nil, .nil⟩
    | cons hxz _ ih =>
        obtain ⟨y, hxy, hyz⟩ := hxz
        obtain ⟨ys, hys, hzs⟩ := ih
        exact ⟨y :: ys, .cons hxy hys, .cons hyz hzs⟩

theorem mem_iff_of_mapM_eq_ok {f : α → Except ε β} {xs : List α} {ys : List β} (h : xs.mapM f = .ok ys) {y : β} :
    y ∈ ys ↔ ∃ x ∈ xs, f x = .ok y := by
  induction mapM_eq_ok_iff.1 h with
  | nil => simp
  | @cons x z xs ys hx hrest ih =>
      have ih := ih (mapM_eq_ok_iff.2 hrest)
      constructor
      · intro hy
        rcases List.mem_cons.1 hy with rfl | hy
        · exact ⟨x, List.mem_cons_self .., hx⟩
        · obtain ⟨w, hw, hwy⟩ := ih.1 hy
          exact ⟨w, List.mem_cons_of_mem _ hw, hwy⟩
      · rintro ⟨w, hw, hwy⟩
        rcases List.mem_cons.1 hw with rfl | hw
        · rw [hx] at hwy
          cases hwy
          exact List.mem_cons_self ..
        · exact List.mem_cons_of_mem _ (ih.2 ⟨w, hw, hwy⟩)

theorem exists_mapM_eq_ok_iff {f : α → Except ε β} {xs : List α} :
    (∃ ys, xs.mapM f = .ok ys) ↔ ∀ x ∈ xs, ∃ y, f x = .ok y := by
  constructor
  · rintro ⟨ys, h⟩ x hx
    obtain ⟨y, _, hy⟩ := exists_of_forall₂ (mapM_eq_ok_iff.1 h) hx
    exact ⟨y, hy⟩
  · intro h
    induction xs with
    | nil => exact ⟨[], rfl⟩
    | cons x xs ih =>
        obtain ⟨⟨y, hy⟩, hxs⟩ := List.forall_mem_cons.1 h
        obtain ⟨ys, hys⟩ := ih hxs
        exact ⟨y :: ys, mapM_eq_ok_iff.2 (.cons hy (mapM_eq_ok_iff.1 hys))⟩

/-! ## Runs that fail -/

/-- `x` is the first item of the list that has the property. -/
def IsFirst (p : α → Prop) (xs : List α) (x : α) : Prop :=
  ∃ before after, xs = before ++ x :: after ∧ (∀ y ∈ before, ¬p y) ∧ p x

theorem bind_eq_error_iff {x : Except ε α} {f : α → Except ε β} {e : ε} :
    (x >>= f) = .error e ↔ x = .error e ∨ ∃ a, x = .ok a ∧ f a = .error e := by
  cases x with
  | error d =>
      constructor
      · intro h
        cases h
        exact .inl rfl
      · rintro (h | ⟨_, h, _⟩)
        · cases h
          rfl
        · cases h
  | ok a =>
      constructor
      · exact fun h => .inr ⟨a, rfl, h⟩
      · rintro (h | ⟨_, h, hf⟩)
        · cases h
        · cases h
          exact hf

theorem map_eq_error_iff {x : Except ε α} {f : α → β} {e : ε} : x.map f = .error e ↔ x = .error e := by
  cases x with
  | error d => exact ⟨fun h => congrArg _ (Except.error.inj h), fun h => congrArg _ (Except.error.inj h)⟩
  | ok a => exact ⟨nofun, nofun⟩

theorem not_exists_eq_ok_iff {x : Except ε α} : (¬∃ a, x = .ok a) ↔ ∃ e, x = .error e := by
  cases x with
  | error e => exact ⟨fun _ => ⟨e, rfl⟩, fun _ => nofun⟩
  | ok a => exact ⟨fun h => absurd ⟨a, rfl⟩ h, nofun⟩

theorem mapM_cons_eq_error_iff {f : α → Except ε β} {x : α} {xs : List α} {e : ε} :
    (x :: xs).mapM f = .error e ↔ f x = .error e ∨ (∃ y, f x = .ok y) ∧ xs.mapM f = .error e := by
  rw [List.mapM_cons, bind_eq_error_iff]
  refine or_congr_right ?_
  constructor
  · rintro ⟨y, hy, h⟩
    rcases bind_eq_error_iff.1 h with h | ⟨_, _, h⟩
    · exact ⟨⟨y, hy⟩, h⟩
    · cases h
  · rintro ⟨⟨y, hy⟩, h⟩
    exact ⟨y, hy, bind_eq_error_iff.2 (.inl h)⟩

/-- A run fails with the error of the first step that fails. -/
theorem mapM_eq_error_iff {f : α → Except ε β} {xs : List α} {e : ε} :
    xs.mapM f = .error e ↔ ∃ x, IsFirst (fun x => ¬∃ y, f x = .ok y) xs x ∧ f x = .error e := by
  constructor
  · intro h
    induction xs with
    | nil => cases h
    | cons x xs ih =>
        rcases mapM_cons_eq_error_iff.1 h with hx | ⟨hx, h⟩
        · exact ⟨x, ⟨[], xs, rfl, by simp, not_exists_eq_ok_iff.2 ⟨e, hx⟩⟩, hx⟩
        · obtain ⟨z, ⟨before, after, rfl, hbefore, hz⟩, hez⟩ := ih h
          refine ⟨z, ⟨x :: before, after, rfl, ?_, hz⟩, hez⟩
          exact List.forall_mem_cons.2 ⟨not_not_intro hx, hbefore⟩
  · rintro ⟨x, ⟨before, after, rfl, hbefore, _⟩, hx⟩
    obtain ⟨ys, hys⟩ := exists_mapM_eq_ok_iff.2 fun y hy => not_not.1 (hbefore y hy)
    rw [List.mapM_append, hys, List.mapM_cons, hx]
    rfl

/-- Runs of steps that fail alike fail alike. -/
theorem mapM_eq_error_congr {f : α → Except ε β} {k : α → Except ε γ} {xs : List α}
    (h : ∀ x e, f x = .error e ↔ k x = .error e) {e : ε} : xs.mapM f = .error e ↔ xs.mapM k = .error e := by
  induction xs with
  | nil => exact ⟨nofun, nofun⟩
  | cons x xs ih =>
      have hok : (∃ y, f x = .ok y) ↔ ∃ z, k x = .ok z := by
        rw [← not_iff_not, not_exists_eq_ok_iff, not_exists_eq_ok_iff]
        exact exists_congr (h x)
      rw [mapM_cons_eq_error_iff, mapM_cons_eq_error_iff, h, hok, ih]

/-- The steps of the parts of a list, part by part, are those of the list. -/
theorem mapM_flatMap {k : γ → List α} {f : α → Except ε β} {xs : List γ} :
    (xs.flatMap k).mapM f = (xs.mapM fun x => (k x).mapM f).map List.flatten := by
  induction xs with
  | nil => rfl
  | cons x xs ih =>
      rw [List.flatMap_cons, List.mapM_append, ih, List.mapM_cons]
      cases (k x).mapM f with
      | error e => rfl
      | ok ys => cases xs.mapM fun x => (k x).mapM f <;> rfl

end DesignTokens
