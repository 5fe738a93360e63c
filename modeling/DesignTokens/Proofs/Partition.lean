import DesignTokens.Proofs.Survivors
import Mathlib.Data.List.Basic
import Mathlib.Tactic.SplitIfs

/-!
# Classes of names, and the lines that stay

Each name that a text declares goes to one class, by all its values and the value generated last. Pruning removes the
lines that hold nothing but a declaration of a covered name; a line that declares another name stays, whether the
declaration is found by the matcher of lines or by a scan of the text around it.
-/

namespace DesignTokens

namespace Assoc

theorem sorted_keys {ν : Type} {m : List (String × ν)} (h : Sorted m) : (m.map Prod.fst).Pairwise (· < ·) :=
  List.pairwise_map.2 (h.imp compareOfLessAndEq_eq_lt.1)

theorem count_keys {ν : Type} {m : List (String × ν)} (h : Sorted m) (name : String) :
    (m.map Prod.fst).count name = if (m.lookup name).isSome then 1 else 0 := by
  have hnodup : (m.map Prod.fst).Nodup := (sorted_keys h).imp String.ne_of_lt
  rw [hnodup.count]
  refine if_congr ?_ rfl rfl
  rw [List.lookup_isSome_iff, List.mem_map]
  exact ⟨fun ⟨b, hb, he⟩ => ⟨b, hb, beq_iff_eq.2 he.symm⟩, fun ⟨b, hb, he⟩ => ⟨b, hb, (beq_iff_eq.1 he).symm⟩⟩

end Assoc

namespace Classification

/-! ## Classes -/

/-- The names of one class. -/
def names (c : Classification) : Coverage → List String
  | .covered => c.covered
  | .conflict => c.conflicts.map Conflict.name
  | .missing => c.missing

variable {legacy : List (String × List String)} {generated : List (String × String)} {name : String}

/-- Each name goes to one class. -/
theorem names_classify_cons (generated : List (String × String)) (b : String × List String)
    (legacy : List (String × List String)) :
    ∃ coverage, ∀ k, (classify (b :: legacy) generated).names k =
      if k = coverage then b.1 :: (classify legacy generated).names k else (classify legacy generated).names k := by
  have hstep : classify (b :: legacy) generated = add generated b (classify legacy generated) := rfl
  rw [hstep, add]
  cases hlookup : generated.lookup b.1 with
  | none => exact ⟨.missing, by rintro ⟨⟩ <;> simp [names]⟩
  | some v =>
      cases hfirst : Conflict.first? b.1 b.2 v with
      | none => exact ⟨.covered, by rintro ⟨⟩ <;> simp [names, hfirst]⟩
      | some k =>
          obtain ⟨hname, _⟩ := Conflict.first?_eq_some_iff.1 hfirst
          exact ⟨.conflict, by rintro ⟨⟩ <;> simp [names, hfirst, hname]⟩

theorem names_classify_sublist (k : Coverage) :
    ((classify legacy generated).names k).Sublist (legacy.map Prod.fst) := by
  induction legacy with
  | nil => cases k <;> exact .slnil
  | cons b rest ih =>
      obtain ⟨coverage, hnames⟩ := names_classify_cons generated b rest
      rw [hnames, List.map_cons]
      split
      · exact ih.cons_cons b.1
      · exact ih.cons b.1

theorem count_names_classify (legacy : List (String × List String)) (generated : List (String × String))
    (name : String) :
    ((classify legacy generated).names .covered).count name + ((classify legacy generated).names .conflict).count name +
      ((classify legacy generated).names .missing).count name = (legacy.map Prod.fst).count name := by
  induction legacy with
  | nil => rfl
  | cons b rest ih =>
      obtain ⟨coverage, hnames⟩ := names_classify_cons generated b rest
      rw [hnames, hnames, hnames, List.map_cons, List.count_cons, ← ih]
      cases coverage <;> simp [List.count_cons] <;> omega

/-- Each name is in exactly one class, in its place, and is answered for by it. -/
structure Partitions (c : Classification) (legacy : List (String × List String)) : Prop where
  count : ∀ name, (c.names .covered).count name + (c.names .conflict).count name + (c.names .missing).count name =
    if (legacy.lookup name).isSome then 1 else 0
  sorted : ∀ k, (c.names k).Pairwise (· < ·)
  coverage : ∀ name k, c.coverage? name = some k ↔ name ∈ c.names k
  coverage_none : ∀ name, c.coverage? name = none ↔ legacy.lookup name = none

theorem coverage?_eq (c : Classification) (name : String) :
    c.coverage? name =
      if name ∈ c.names .covered then some .covered
      else if name ∈ c.names .conflict then some .conflict
      else if name ∈ c.names .missing then some .missing else none := by
  refine if_congr ?_ rfl (if_congr ?_ rfl (if_congr ?_ rfl rfl)) <;> simp [names]

theorem coverage?_eq_covered_iff {c : Classification} {name : String} :
    c.coverage? name = some .covered ↔ name ∈ c.covered := by
  rw [coverage?_eq]
  split_ifs <;> simp_all [names]

theorem coverage?_eq_some_iff {c : Classification} {name : String} {k : Coverage}
    (h : (c.names .covered).count name + (c.names .conflict).count name + (c.names .missing).count name ≤ 1) :
    c.coverage? name = some k ↔ name ∈ c.names k := by
  simp only [coverage?_eq, ← List.count_pos_iff]
  split_ifs <;> cases k <;> simp only [Option.some.injEq, reduceCtorEq, true_iff, false_iff] <;> omega

theorem coverage?_eq_none_iff {c : Classification} {name : String} :
    c.coverage? name = none ↔
      (c.names .covered).count name + (c.names .conflict).count name + (c.names .missing).count name = 0 := by
  simp only [coverage?_eq, ← List.count_pos_iff]
  split_ifs <;> simp only [true_iff, false_iff] <;> omega

theorem partitions_classify (h : Assoc.Sorted legacy) : (classify legacy generated).Partitions legacy := by
  have hcount : ∀ name, _ := fun name => (count_names_classify legacy generated name).trans (Assoc.count_keys h name)
  refine ⟨hcount, fun k => (Assoc.sorted_keys h).sublist (names_classify_sublist k), fun name k => ?_, fun name => ?_⟩
  · refine coverage?_eq_some_iff ((hcount name).trans_le ?_)
    split <;> decide
  · rw [coverage?_eq_none_iff, hcount name]
    cases legacy.lookup name <;> simp

end Classification

namespace Declaration

/-! ## Where declarations begin -/

/-- Between `before` and `after`, the scan finds the declaration at a place within the line. -/
def BeginsIn (d : Declaration) (before line after : List Char) : Prop :=
  ∃ a b r, line = a ++ b ∧ b ≠ [] ∧ pattern.RestsAt (before ++ a) (b ++ after) ∧ read (b ++ after) = some (d, r)

theorem head?_of_read {s r : List Char} {d : Declaration} (h : read s = some (d, r)) : s.head? = some '-' := by
  rw [(read_eq_some_iff.1 h).1]
  rfl

theorem blank_eq_nil_of_read {a b s r : List Char} {d : Declaration} (h : read s = some (d, r))
    (ha : ∀ c ∈ a, Text.isBlank c = true) (hs : s = a ++ b) : a = [] := by
  cases a with
  | nil => rfl
  | cons c a =>
      have hdash := head?_of_read h
      rw [hs] at hdash
      cases hdash
      cases ha '-' (List.mem_cons_self ..)

/-- Each declaration of a text begins in one of its lines. -/
theorem exists_beginsIn_of_mem_all {s : String} {d : Declaration} (h : d ∈ all s) :
    ∃ before line after, s.toList = before ++ line ++ after ∧ line ∈ Text.fields '\n' s.toList ∧
      d.BeginsIn before line after := by
  obtain ⟨start, rest, r, hs, hrest, hread⟩ := Text.Pattern.exists_restsAt_of_mem_hits h
  obtain ⟨before, a, b, after, rfl, rfl, hline, hafter⟩ := Text.exists_mem_fields_append '\n' start rest
  have hb : b ≠ [] := by
    rintro rfl
    cases hafter '-' (head?_of_read hread)
  exact ⟨before, a ++ b, after, by simp [hs], hs ▸ hline, a, b, r, rfl, hb, hrest, hread⟩

theorem WellFormed.semicolon_notMem_of_append {d : Declaration} (hd : d.WellFormed) {u v : List Char}
    (h : d.text = u ++ v) (hv : v ≠ []) : ';' ∉ u := by
  intro hu
  have hfront : '-' :: '-' :: d.stem ++ d.gap ++ ':' :: d.content = u ++ v.dropLast := by
    rw [← List.dropLast_append_of_ne_nil hv, ← h, text, List.dropLast_concat]
  exact hd.semicolon_notMem (hfront ▸ List.mem_append_left _ hu)

/-- If the scan reads something from within the text of a declaration, it reads that declaration from its beginning. -/
theorem WellFormed.eq_of_restsAt {d e : Declaration} {before u v rest r : List Char} (hd : d.WellFormed)
    (htext : d.text = u ++ v) (hv : v ≠ []) (hrests : pattern.RestsAt (before ++ u) (v ++ rest))
    (hread : read (v ++ rest) = some (e, r)) : e = d := by
  by_cases hempty : d.content = []
  · rw [read_eq_none_of_empty hd hempty hv (htext ▸ List.suffix_append u v)] at hread
    cases hread
  have hwhole : read (d.text ++ rest) = some (d, rest) := read_eq_some_iff.2 ⟨rfl, hd, hempty⟩
  by_cases hu : u = []
  · rw [hu, List.nil_append] at htext
    rw [← htext, hwhole] at hread
    cases hread
    rfl
  rcases hrests.cut with ⟨ps, hps, hpieces⟩ | ⟨item, s, t, x, y, hitem, hacross, _, hy, hyu⟩
  · -- The scan rests where the declaration begins, and so again only where it ends.
    rw [← List.append_assoc, ← htext, pattern.pieces_of_read hwhole] at hps
    cases ps with
    | nil => exact absurd hpieces.symm hu
    | cons q ps =>
        cases (List.cons.inj hps).1
        have hlength : d.text.length ≤ u.length := by
          rw [← hpieces, List.flatMap_cons, List.length_append]
          exact Nat.le_add_right ..
        rw [htext, List.length_append] at hlength
        exact absurd (List.length_pos_iff.2 hv) (by omega)
  · -- What lies across ends with a semicolon, and the first one is that of the declaration.
    obtain ⟨body, hbody, _⟩ := closedBy_pattern.text_eq hitem
    have hlast : y.getLast? = some ';' := by
      rw [← List.getLast?_append_of_ne_nil x hy, ← hacross, hbody, List.getLast?_concat]
    exact absurd (hyu.mem (List.mem_of_getLast? hlast)) (hd.semicolon_notMem_of_append htext hv)

/-- The scan finds nothing in a line that holds a declaration, but that declaration. -/
theorem Fills.eq_of_beginsIn {d e : Declaration} {before line after : List Char} (hd : d.Fills line)
    (he : e.BeginsIn before line after) : e = d := by
  obtain ⟨hwf, front, back, rfl, hfront, hback⟩ := hd
  obtain ⟨a, b, r, hline, hb, hrests, hread⟩ := he
  rw [List.append_assoc] at hline
  obtain ⟨u, rfl, hrest⟩ : ∃ u, a = front ++ u ∧ d.text ++ back = u ++ b := by
    rcases List.append_eq_append_iff.1 hline with hcase | ⟨w, rfl, rfl⟩
    · exact hcase
    · have hw := blank_eq_nil_of_read hread (fun c hc => hfront c (List.mem_append_right a hc))
        (List.append_assoc w (d.text ++ back) after)
      exact ⟨[], by simp [hw], by simp [hw]⟩
  obtain ⟨v, htext, rfl⟩ : ∃ v, d.text = u ++ v ∧ b = v ++ back := by
    rcases List.append_eq_append_iff.1 hrest with ⟨w, _, rfl⟩ | hcase
    · exact absurd (blank_eq_nil_of_read hread (fun c hc => hback c (List.mem_append_right w hc)) rfl) hb
    · exact hcase
  have hv : v ≠ [] := by
    rintro rfl
    exact hb (blank_eq_nil_of_read hread hback rfl)
  rw [List.append_assoc] at hread
  rw [← List.append_assoc, List.append_assoc v] at hrests
  exact hwf.eq_of_restsAt htext hv hrests hread

/-- The line declares the name: for the matcher of lines, or for the scan of some text that the line stands in. -/
def Declares (d : Declaration) (line : List Char) : Prop :=
  d.Fills line ∨ ∃ before after, d.BeginsIn before line after

theorem Fills.eq_of_declares {d e : Declaration} {line : List Char} (hd : d.Fills line) (he : e.Declares line) :
    e = d := by
  rcases he with hfills | ⟨before, after, hbegins⟩
  · exact hfills.unique hd
  · exact hd.eq_of_beginsIn hbegins

end Declaration

namespace Legacy

open Declaration Classification

variable {text : String} {c : Classification}

/-! ## Lines -/

/-- What is left of a text: its lines as they were and in order, without those that hold nothing but a declaration of a
covered name. -/
structure LinesKept (text : String) (c : Classification) (kept : List (List Char)) : Prop where
  pruned : (prune text c.covered).toList = Text.join ['\n'] kept
  sublist : kept.Sublist (Text.fields '\n' text.toList)
  covered : ∀ line d, Fills d line → c.coverage? d.name = some .covered → line ∉ kept
  plain : ∀ line, (¬∃ d, Fills d line) → kept.count line = (Text.fields '\n' text.toList).count line
  declaring : ∀ line d, Declares d line → c.coverage? d.name ≠ some .covered →
    kept.count line = (Text.fields '\n' text.toList).count line
  found : ∀ d ∈ all text, c.coverage? d.name ≠ some .covered →
    ∃ before line after, text.toList = before ++ line ++ after ∧ line ∈ kept ∧ d.BeginsIn before line after

theorem keepsLine_of_declares {d : Declaration} {line : List Char} (h : d.Declares line)
    (hname : c.coverage? d.name ≠ some .covered) : keepsLine c.covered line = true := by
  by_contra hk
  obtain ⟨e, he, hcovered⟩ := keepsLine_eq_false_iff.1 (by simpa using hk)
  exact hname (coverage?_eq_covered_iff.2 (he.eq_of_declares h ▸ hcovered))

theorem linesKept_filter (text : String) (c : Classification) :
    LinesKept text c ((Text.fields '\n' text.toList).filter (keepsLine c.covered)) := by
  refine ⟨String.toList_ofList .., List.filter_sublist, fun line d hd hname hline => ?_, fun line hline => ?_,
    fun line d hd hname => List.count_filter (keepsLine_of_declares hd hname), fun d hd hname => ?_⟩
  · have hkeeps := (List.mem_filter.1 hline).2
    rw [keepsLine_eq_false_iff.2 ⟨d, hd, coverage?_eq_covered_iff.1 hname⟩] at hkeeps
    cases hkeeps
  · refine List.count_filter ?_
    by_contra hk
    obtain ⟨d, hd, _⟩ := keepsLine_eq_false_iff.1 (by simpa using hk)
    exact hline ⟨d, hd⟩
  · obtain ⟨before, line, after, htext, hline, hbegins⟩ := exists_beginsIn_of_mem_all hd
    have hdeclares : d.Declares line := .inr ⟨before, after, hbegins⟩
    exact ⟨before, line, after, htext, List.mem_filter.2 ⟨hline, keepsLine_of_declares hdeclares hname⟩, hbegins⟩

/-- Each name that the text declares is in one class: covered if all its values are the one generated last, in conflict
with the first value that differs, or missing if none is generated. The lines that stay when the covered names are
removed are all those that declare another name, and all those that hold more than a declaration. -/
theorem coverage_exact (legacy generated : String) :
    (ofTexts legacy generated).Partitions (allValues legacy) ∧
      (∀ name values, (allValues legacy).lookup name = some values →
        (name ∈ (ofTexts legacy generated).covered ↔
          ∃ v, (valuesFor (all generated) name).getLast? = some v ∧ ∀ w ∈ values, w = v)) ∧
      (∀ k ∈ (ofTexts legacy generated).conflicts,
        (valuesFor (all generated) k.name).getLast? = some k.generated ∧ k.legacy ≠ k.generated ∧
          ∃ before after, (allValues legacy).lookup k.name = some (before ++ k.legacy :: after) ∧
            ∀ w ∈ before, w = k.generated) ∧
      (∀ name ∈ (ofTexts legacy generated).missing, valuesFor (all generated) name = []) ∧
      ∃ kept, LinesKept legacy (ofTexts legacy generated) kept := by
  refine ⟨partitions_classify (sorted_allValues legacy), fun name values hvalues => ?_, fun k hk => ?_,
    fun name hname => ?_, _, linesKept_filter legacy (ofTexts legacy generated)⟩
  · obtain ⟨hne, rfl⟩ := lookup_allValues_eq_some_iff.1 hvalues
    rw [mem_covered_ofTexts, lookup_lastValues]
    exact and_iff_right hne
  · rw [ofTexts, conflicts_classify] at hk
    obtain ⟨b, hb, hk⟩ := List.mem_filterMap.1 hk
    obtain ⟨v, hv, hk⟩ := Option.bind_eq_some_iff.1 hk
    obtain ⟨hname, rfl, hne, before, after, hvalues, hbefore⟩ := Conflict.first?_eq_some_iff.1 hk
    rw [← lookup_lastValues, hname]
    exact ⟨hv, hne, before, after, hvalues ▸ Assoc.lookup_eq_some_of_mem (sorted_allValues legacy) hb, hbefore⟩
  · obtain ⟨_, hnone⟩ := mem_missing_ofTexts.1 hname
    rw [lookup_lastValues] at hnone
    exact List.getLast?_eq_none_iff.1 hnone

end Legacy

end DesignTokens
