import DesignTokens.Proofs.Names

/-!
# Names in normal form

A name that is made of keys has no capitals, and two dashes at its start and nowhere three in a row. Such a name, taken
for a key, is the name that is made of it.
-/

namespace DesignTokens.Name

/-- Names in normal form are proper, without capitals and without three dashes in a row. -/
structure IsNormal (name : String) : Prop where
  isProper : IsProper name
  not_isUpper : ∀ c ∈ name.toList, c.isUpper = false
  no_run : ¬['-', '-', '-'] <:+: name.toList

variable {c d : Char} {s : List Char} {run : Nat} {name : String} {segments : List String}

/-! ## Capitals -/

theorem not_isUpper_of_isLower (h : c.isLower = true) : c.isUpper = false := by
  have hlower : 'a'.val ≤ c.val := of_decide_eq_true (Bool.and_eq_true_iff.1 h).1
  have hle : ¬c.val ≤ 'Z'.val := UInt32.not_le.2 (UInt32.lt_of_lt_of_le (by decide) hlower)
  exact decide_eq_false fun hupper => hle hupper.2

theorem not_isUpper_of_mem_kebab (h : c ∈ kebab d) : c.isUpper = false := by
  unfold kebab at h
  split at h
  · next hd =>
      rcases List.mem_cons.1 h with rfl | h
      · rfl
      · obtain rfl := List.mem_singleton.1 h
        exact not_isUpper_of_isLower (isLower_toLower hd)
  · next hd =>
      obtain rfl := List.mem_singleton.1 h
      simpa using hd

theorem flatMap_kebab_eq_self (h : ∀ c ∈ s, c.isUpper = false) : s.flatMap kebab = s := by
  induction s with
  | nil => rfl
  | cons c s ih =>
      obtain ⟨hc, hs⟩ := List.forall_mem_cons.1 h
      rw [List.flatMap_cons, ih hs, kebab, hc]
      rfl

/-! ## Runs of dashes -/

/-- What does not hold a character and lies on neither side of it does not lie across. -/
theorem not_infix_append_cons {r a b : List Char} (hc : c ∉ r) (ha : ¬r <:+: a) (hb : ¬r <:+: b) :
    ¬r <:+: a ++ c :: b := by
  rintro ⟨before, after, h⟩
  rcases List.append_eq_append_iff.1 h with ⟨x, rfl, _⟩ | ⟨x, hbefore, hafter⟩
  · exact ha ⟨before, x, rfl⟩
  · cases x with
    | nil => exact ha ⟨before, [], by simpa using hbefore⟩
    | cons e x =>
        obtain ⟨rfl, rfl⟩ := List.cons.inj hafter
        rcases List.append_eq_append_iff.1 hbefore with ⟨y, _, rfl⟩ | ⟨y, _, hy⟩
        · exact hc (by simp)
        · cases y with
          | nil =>
              have hr : r = c :: x := hy.symm
              exact hc (by simp [hr])
          | cons e y =>
              obtain ⟨rfl, rfl⟩ := List.cons.inj hy
              exact hb ⟨y, after, rfl⟩

theorem replicate_append_dash (run : Nat) (s : List Char) :
    List.replicate run '-' ++ '-' :: s = List.replicate (run + 1) '-' ++ s := by
  rw [List.replicate_succ', List.append_assoc, List.singleton_append]

theorem no_run_replicate (h : run ≤ 2) : ¬['-', '-', '-'] <:+: List.replicate run '-' := by
  intro hdashes
  have hlength : 3 ≤ run := by simpa using hdashes.length_le
  omega

/-- Behind the dashes that it knows of, a squeezed text makes no run of three. -/
theorem no_run_squeeze (h : run ≤ 2) (s : List Char) :
    ¬['-', '-', '-'] <:+: List.replicate run '-' ++ squeeze run s := by
  fun_induction squeeze run s with
  | case1 run => simpa using no_run_replicate h
  | case2 run s hrun ih =>
      rw [replicate_append_dash]
      exact ih hrun
  | case3 run s hrun ih => exact ih h
  | case4 run c s hc ih =>
      exact not_infix_append_cons (by simpa using hc) (no_run_replicate h) (ih (Nat.zero_le 2))

theorem squeeze_eq_self (h : run ≤ 2) (hs : ¬['-', '-', '-'] <:+: List.replicate run '-' ++ s) :
    squeeze run s = s := by
  fun_induction squeeze run s with
  | case1 run => rfl
  | case2 run s hrun ih =>
      rw [replicate_append_dash] at hs
      rw [ih hrun hs]
  | case3 run s hrun ih =>
      obtain rfl : run = 2 := by omega
      exact absurd ⟨[], s, rfl⟩ hs
  | case4 run c s hc ih =>
      have hsuffix : s <:+ List.replicate run '-' ++ c :: s := (List.suffix_cons c s).trans (List.suffix_append _ _)
      rw [ih (Nat.zero_le 2) fun hdashes => hs (hdashes.trans hsuffix.isInfix)]

/-! ## Normal forms -/

theorem sanitize_eq_self (h : ∀ c ∈ name.toList, isLegal c = true) : sanitize name = name.toList :=
  (List.map_congr_left fun c hc => if_pos (h c hc)).trans (List.map_id _)

theorem IsProper.isLegal_of_mem (h : IsProper name) : ∀ c ∈ name.toList, isLegal c = true := by
  obtain ⟨stem, rfl, _, hstem⟩ := h
  rw [String.toList_ofList]
  exact List.forall_mem_cons.2 ⟨rfl, List.forall_mem_cons.2 ⟨rfl, hstem⟩⟩

/-- The two dashes at the start are a whole run. -/
theorem IsNormal.third (h : IsNormal name) : ∃ c, name.toList[2]? = some c ∧ c ≠ '-' := by
  obtain ⟨stem, rfl, hne, _⟩ := h.isProper
  obtain ⟨c, rest, rfl⟩ := List.exists_cons_of_ne_nil hne
  refine ⟨c, by simp, ?_⟩
  rintro rfl
  exact h.no_run ⟨[], rest, by simp⟩

theorem not_isUpper_of_mem_stem (h : c ∈ stem segments) : c.isUpper = false := by
  obtain ⟨d, _, hc⟩ := List.mem_flatMap.1 (mem_of_mem_squeeze h)
  exact not_isUpper_of_mem_kebab hc

theorem isNormal_ofKeys (segments : List String) : IsNormal (ofKeys segments) := by
  have htext := congrArg String.toList (ofKeys_eq segments)
  rw [String.toList_ofList] at htext
  refine ⟨isProper_ofKeys segments, ?_, ?_⟩
  · rw [htext]
    split
    · simp
    · exact List.forall_mem_cons.2 ⟨rfl, List.forall_mem_cons.2 ⟨rfl, fun c hc => not_isUpper_of_mem_stem hc⟩⟩
  · rw [htext]
    split
    · decide
    · exact no_run_squeeze (Nat.le_refl 2) _

theorem IsNormal.ofKeys_eq_self (h : IsNormal name) : ofKeys [name] = name := by
  have hkebab : (dashed [name]).flatMap kebab = name.toList := by
    rw [dashed, sanitize_eq_self h.isProper.isLegal_of_mem, flatMap_kebab_eq_self h.not_isUpper]
  have hrun := h.no_run
  obtain ⟨rest, rfl, hne, _⟩ := h.isProper
  rw [String.toList_ofList] at hkebab hrun
  -- The two dashes of the name and those put before it make one run, which is cut to two.
  have hstem : stem [.ofList ('-' :: '-' :: rest)] = rest := by
    rw [stem, hkebab]
    exact squeeze_eq_self (Nat.le_refl 2) hrun
  rw [ofKeys_eq, hstem, if_neg hne]

/-- The names in normal form are those that stay as they are when a name is made of them. -/
theorem ofKeys_singleton_eq_iff : ofKeys [name] = name ↔ IsNormal name :=
  ⟨fun h => h ▸ isNormal_ofKeys [name], IsNormal.ofKeys_eq_self⟩

/-- Whatever the keys of a token, its variable has a proper name. A name that is made of keys alone is in normal form
besides, the two dashes at its start followed by another character, and is made of itself again. -/
theorem names_normalForm :
    (∀ a : Address, IsProper a.variableName) ∧
      ∀ segments, IsNormal (ofKeys segments) ∧ (∃ c, (ofKeys segments).toList[2]? = some c ∧ c ≠ '-') ∧
        ofKeys [ofKeys segments] = ofKeys segments := by
  refine ⟨Address.isProper_variableName, fun segments => ?_⟩
  have hnormal := isNormal_ofKeys segments
  exact ⟨hnormal, hnormal.third, ofKeys_singleton_eq_iff.2 hnormal⟩

example : ofKeys ["Font Größe", "", "-xL"] = "--font--gr--e--x-l" := by decide +kernel

end DesignTokens.Name
