import DesignTokens.Proofs.FallbackScan

/-!
# What a scan finds

A scan finds the leftmost item of a text, then the leftmost one in what follows, and so on. When no item can be longer
or shorter than it is, there is one way only to do so.
-/

namespace DesignTokens

namespace Text

/-- The leftmost items of a text, one after the other: no item begins before the first one, and the others are those of
what follows it. -/
inductive Leftmost (IsItem : List Char → Prop) : List Char → List (List Char) → Prop
  | none {s : List Char} (h : ∀ item, IsItem item → ¬item <:+: s) : Leftmost IsItem s []
  | next {before item rest : List Char} {items : List (List Char)} (hitem : IsItem item)
      (hfirst : ∀ front other back, IsItem other → before ++ item ++ rest = front ++ other ++ back →
        before.length ≤ front.length)
      (hrest : Leftmost IsItem rest items) : Leftmost IsItem (before ++ item ++ rest) (item :: items)

namespace Leftmost

variable {IsItem : List Char → Prop} {s : List Char} {items items' : List (List Char)}

/-- Of two items at one place, neither goes on after the other one's end. -/
def Unambiguous (IsItem : List Char → Prop) : Prop :=
  ∀ item other rest rest', IsItem item → IsItem other → item ++ rest = other ++ rest' → item = other

theorem unique (hone : Unambiguous IsItem) (h : Leftmost IsItem s items) (h' : Leftmost IsItem s items') :
    items = items' := by
  induction h generalizing items' with
  | none hnone =>
      cases h' with
      | none _ => rfl
      | next hitem _ _ => exact absurd ⟨_, _, rfl⟩ (hnone _ hitem)
  | @next before item rest items hitem hfirst hrest ih =>
      generalize htext : before ++ item ++ rest = text at h'
      cases h' with
      | none hnone => exact absurd ⟨_, _, htext⟩ (hnone _ hitem)
      | @next before' item' rest' items' hitem' hfirst' hrest' =>
          have hlength : before.length = before'.length :=
            Nat.le_antisymm (hfirst _ _ _ hitem' htext) (hfirst' _ _ _ hitem htext.symm)
          rw [List.append_assoc, List.append_assoc] at htext
          obtain ⟨rfl, hafter⟩ := List.append_inj htext hlength
          obtain rfl := hone _ _ _ _ hitem hitem' hafter
          rw [List.append_cancel_left hafter] at ih
          rw [ih hrest']

end Leftmost

namespace Pattern

variable {α : Type} {p : Pattern α} {c : Char} {s item rest : List Char}

/-- A text that is one item. -/
def IsItem (p : Pattern α) (item : List Char) : Prop := ∃ a, p.read item = some (a, [])

namespace ClosedBy

variable (h : p.ClosedBy c)
include h

theorem isItem_of_read {a : α} {r : List Char} (hread : p.read s = some (a, r)) : p.IsItem (p.text a) :=
  ⟨a, List.append_nil (p.text a) ▸ h.read_text hread []⟩

theorem read_of_isItem (hitem : p.IsItem item) (rest : List Char) :
    ∃ a, p.text a = item ∧ p.read (item ++ rest) = some (a, rest) := by
  obtain ⟨a, hread⟩ := hitem
  have htext : p.text a = item := List.append_nil (p.text a) ▸ p.text_append hread
  exact ⟨a, htext, htext ▸ h.read_text hread rest⟩

theorem unambiguous : Leftmost.Unambiguous p.IsItem := by
  intro item other rest rest' hitem hother heq
  obtain ⟨a, htext, hread⟩ := h.read_of_isItem hitem rest
  obtain ⟨b, htext', hread'⟩ := h.read_of_isItem hother rest'
  rw [heq, hread'] at hread
  cases hread
  rw [← htext, ← htext']

theorem leftmost_hits (s : List Char) : Leftmost p.IsItem s ((p.hits s).map p.text) := by
  fun_induction p.pieces s with
  | case1 =>
      rw [hits_nil]
      refine .none fun item hitem hin => ?_
      obtain ⟨a, _, hread⟩ := h.read_of_isItem hitem []
      rw [List.append_nil, List.eq_nil_of_infix_nil hin] at hread
      exact absurd (p.length_lt hread) (Nat.not_lt_zero _)
  | case2 c s a r hread ih =>
      rw [hits_of_read hread, List.map_cons, ← p.text_append hread]
      exact @Leftmost.next _ [] _ _ _ (h.isItem_of_read hread) (fun _ _ _ _ _ => Nat.zero_le _) ih
  | case3 c s hread ih =>
      -- No item begins with the first character.
      have hskip : ∀ front other back, p.IsItem other → c :: s = front ++ other ++ back →
          ∃ front', front = c :: front' ∧ s = front' ++ other ++ back := by
        intro front other back hother heq
        cases front with
        | nil =>
            obtain ⟨a, _, hread'⟩ := h.read_of_isItem hother back
            rw [heq, List.nil_append, hread'] at hread
            cases hread
        | cons d front =>
            obtain ⟨rfl, hs⟩ := List.cons.inj heq
            exact ⟨front, rfl, hs⟩
      rw [hits_cons hread]
      generalize (p.hits s).map p.text = items at ih
      cases ih with
      | none hnone =>
          refine .none fun item hitem hin => ?_
          obtain ⟨front, back, heq⟩ := hin
          obtain ⟨front', _, hs⟩ := hskip front item back hitem heq.symm
          exact hnone item hitem ⟨front', back, hs.symm⟩
      | @next before item rest items hitem hfirst hrest =>
          refine @Leftmost.next _ (c :: before) _ _ _ hitem (fun front other back hother heq => ?_) hrest
          obtain ⟨front', rfl, hs⟩ := hskip front other back hother heq
          exact Nat.succ_le_succ (hfirst front' other back hother hs)

theorem leftmost_iff {items : List (List Char)} :
    Leftmost p.IsItem s items ↔ items = (p.hits s).map p.text := by
  constructor
  · exact fun hitems => hitems.unique h.unambiguous (h.leftmost_hits s)
  · rintro rfl
    exact h.leftmost_hits s

end ClosedBy

end Pattern

end Text

namespace FallbackLookup

/-- A text that is a lookup with a fallback. -/
def IsLookup (item : List Char) : Prop := ∃ l : FallbackLookup, l.WellFormed ∧ item = l.text

theorem isItem_pattern : pattern.IsItem = IsLookup := by
  funext item
  refine propext (exists_congr fun l => ?_)
  rw [show pattern.read = read from rfl, read_eq_some_iff, List.append_nil, and_comm]

/-- The scan of a text finds its leftmost lookups with fallbacks, and nothing else does. -/
theorem leftmost_iff {s : String} {occurrences : List String} :
    Text.Leftmost IsLookup s.toList (occurrences.map String.toList) ↔ occurrences = all s := by
  have hofList : ∀ items : List (List Char), (items.map String.ofList).map String.toList = items := fun items => by
    simp [Function.comp_def]
  have hall : all s = ((pattern.hits s.toList).map pattern.text).map String.ofList := by
    rw [List.map_map]
    rfl
  rw [← isItem_pattern, closedBy_pattern.leftmost_iff, hall]
  constructor
  · intro h
    rw [← h, List.map_map]
    simp [Function.comp_def]
  · rintro rfl
    exact hofList _

end FallbackLookup

/-! ## The different ones -/

/-- The texts of `found` without repetition, in the order in which they first appear. -/
structure FirstAppearances (found different : List String) : Prop where
  mem_iff : ∀ s, s ∈ different ↔ s ∈ found
  inOrder : different.Pairwise fun s t => found.idxOf s < found.idxOf t

theorem firstAppearances_eraseDups (found : List String) : FirstAppearances found found.eraseDups := by
  refine ⟨fun s => List.mem_eraseDups, ?_⟩
  induction found using List.reverseRecOn with
  | nil => exact .nil
  | append_singleton before last ih =>
      rw [List.eraseDups_append, List.pairwise_append]
      have hbefore : ∀ s ∈ before.eraseDups, s ∈ before := fun s hs => List.mem_eraseDups.1 hs
      have hlast : ∀ t ∈ ([last].removeAll before).eraseDups, t ∉ before ∧ t = last := fun t ht => by
        simpa [List.removeAll, and_comm] using ht
      refine ⟨ih.imp_of_mem fun {s t} hs ht hlt => ?_, ?_, fun s hs t ht => ?_⟩
      · rwa [List.idxOf_append_of_mem (hbefore s hs), List.idxOf_append_of_mem (hbefore t ht)]
      · by_cases hmem : last ∈ before <;> simp [List.removeAll, List.eraseDups_cons, hmem]
      · obtain ⟨hnew, rfl⟩ := hlast t ht
        rw [List.idxOf_append_of_mem (hbefore s hs), List.idxOf_append_of_notMem hnew]
        exact Nat.lt_add_right _ (List.idxOf_lt_length_iff.2 (hbefore s hs))

end DesignTokens
