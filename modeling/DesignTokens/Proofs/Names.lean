import DesignTokens.Token.Name

/-!
# The names of variables

The variable of each token has a name that a declaration may have: two dashes, and at least one character after them.
-/

namespace DesignTokens

namespace Name

/-- Two dashes, and after them characters that names may have, at least one. -/
def IsProper (name : String) : Prop :=
  ∃ stem, name = .ofList ('-' :: '-' :: stem) ∧ stem ≠ [] ∧ ∀ c ∈ stem, isLegal c = true

variable {c : Char} {s : List Char} {key : String} {keys : List String}

/-! ## Characters -/

theorem isLegal_of_mem_sanitize (h : c ∈ sanitize key) : isLegal c = true := by
  obtain ⟨d, _, rfl⟩ := List.mem_map.1 h
  split
  · next hd => exact hd
  · rfl

theorem isLegal_of_mem_dashed (h : c ∈ dashed keys) : isLegal c = true := by
  fun_induction dashed keys with
  | case1 => cases h
  | case2 key => exact isLegal_of_mem_sanitize h
  | case3 key more rest ih =>
      rcases List.mem_append.1 h with h | h
      · exact isLegal_of_mem_sanitize h
      · rcases List.mem_cons.1 h with rfl | h
        · rfl
        · exact ih h

theorem isLower_toLower (h : c.isUpper = true) : c.toLower.isLower = true := by
  have hall : ∀ n < 91, 65 ≤ n → (Char.ofNat n).toLower.isLower = true := by decide +kernel
  have hc : 'A'.val ≤ c.val ∧ c.val ≤ 'Z'.val := of_decide_eq_true h
  simp only [UInt32.le_iff_toNat_le] at hc
  have hc := hall c.toNat (Nat.lt_succ_of_le hc.2) hc.1
  rwa [Char.ofNat_toNat] at hc

theorem isLegal_of_isLower (h : c.isLower = true) : isLegal c = true := by
  unfold isLegal Char.isAlphanum Char.isAlpha
  simp [h]

theorem isLegal_of_mem_kebab {d : Char} (hd : isLegal d = true) (h : c ∈ kebab d) : isLegal c = true := by
  unfold kebab at h
  split at h
  · next hu =>
      rcases List.mem_cons.1 h with rfl | h
      · rfl
      · obtain rfl := List.mem_singleton.1 h
        exact isLegal_of_isLower (isLower_toLower hu)
  · obtain rfl := List.mem_singleton.1 h
    exact hd

theorem mem_of_mem_squeeze {run : Nat} (h : c ∈ squeeze run s) : c ∈ s := by
  fun_induction squeeze run s with
  | case1 => exact h
  | case2 run s _ ih =>
      rcases List.mem_cons.1 h with rfl | h
      · exact List.mem_cons_self ..
      · exact List.mem_cons_of_mem _ (ih h)
  | case3 run s _ ih => exact List.mem_cons_of_mem _ (ih h)
  | case4 run d s _ ih =>
      rcases List.mem_cons.1 h with rfl | h
      · exact List.mem_cons_self ..
      · exact List.mem_cons_of_mem _ (ih h)

/-! ## Names -/

theorem isProper_compound {word : List Char} (hne : word ≠ []) (hw : word.all isLegal = true)
    (keys : List String) : IsProper (compound word keys) := by
  refine ⟨word ++ keys.flatMap fun key => '-' :: sanitize key, rfl, by simp [hne], fun c hc => ?_⟩
  rcases List.mem_append.1 hc with hc | hc
  · exact List.all_eq_true.1 hw c hc
  · obtain ⟨key, _, hc⟩ := List.mem_flatMap.1 hc
    rcases List.mem_cons.1 hc with rfl | hc
    · rfl
    · exact isLegal_of_mem_sanitize hc

/-- What keys leave in a name behind its two dashes. -/
def stem (segments : List String) : List Char := squeeze 2 ((dashed segments).flatMap kebab)

theorem ofKeys_eq (segments : List String) :
    ofKeys segments =
      .ofList ('-' :: '-' :: if stem segments = [] then ['t', 'o', 'k', 'e', 'n'] else stem segments) := by
  have hname : squeeze 0 (('-' :: '-' :: dashed segments).flatMap kebab) = '-' :: '-' :: stem segments := rfl
  simp only [ofKeys, hname, List.length_cons, Nat.reduceEqDiff, List.length_eq_zero_iff]
  split
  · next hnil => rw [hnil]; rfl
  · rfl

theorem isLegal_of_mem_stem {segments : List String} (h : c ∈ stem segments) : isLegal c = true := by
  obtain ⟨d, hd, hc⟩ := List.mem_flatMap.1 (mem_of_mem_squeeze h)
  exact isLegal_of_mem_kebab (isLegal_of_mem_dashed hd) hc

theorem isProper_ofKeys (segments : List String) : IsProper (ofKeys segments) := by
  rw [ofKeys_eq]
  refine ⟨_, rfl, ?_⟩
  split
  · exact ⟨by decide, List.all_eq_true.1 (by decide)⟩
  · next hne => exact ⟨hne, fun c hc => isLegal_of_mem_stem hc⟩

end Name

theorem Address.isProper_variableName (a : Address) : Name.IsProper a.variableName := by
  unfold variableName
  split
  · exact Name.isProper_compound (by decide) (by decide) _
  · exact ⟨"scale-base".toList, rfl, by decide, List.all_eq_true.1 (by decide)⟩
  · exact Name.isProper_compound (by decide) (by decide) _
  · exact Name.isProper_compound (by decide) (by decide) _
  · exact Name.isProper_compound (by decide) (by decide) _
  · exact ⟨"web---paragraph".toList, rfl, by decide, List.all_eq_true.1 (by decide)⟩
  · exact Name.isProper_ofKeys _

end DesignTokens
