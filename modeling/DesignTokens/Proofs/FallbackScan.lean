import DesignTokens.Contract.Fallback
import DesignTokens.Proofs.Stylesheet

/-!
# The scan of a stylesheet for fallbacks

No lookup with a fallback begins in the value of one variable and ends in that of another one, provided that each value
is closed: it lacks what such lookups begin with, or it ends with a bracket.
-/

namespace DesignTokens.FallbackLookup

open Text

/-! ## The grammar of lookups with fallbacks -/

/-- The parts of a lookup consist of the characters that may stand in their places. -/
structure WellFormed (l : FallbackLookup) : Prop where
  lead_blank : ∀ c ∈ l.lead, isBlank c = true
  stem_ne_nil : l.stem ≠ []
  stem_plain : ∀ c ∈ l.stem, isStem c = true
  gap_blank : ∀ c ∈ l.gap, isBlank c = true
  fallback_ne_nil : l.fallback ≠ []
  fallback_open : ')' ∉ l.fallback

variable {c : Char} {s y r lead stem gap rest : List Char} {l : FallbackLookup}

theorem isStem_eq_false_of_isBlank (h : isBlank c = true) : isStem c = false := by
  simp [isStem, h]

theorem readName_eq_some_iff :
    readName s = some ((lead, stem, gap), r) ↔
      s = lead ++ '-' :: '-' :: stem ++ gap ++ ',' :: r ∧ (∀ c ∈ lead, isBlank c = true) ∧
        (∀ c ∈ stem, isStem c = true) ∧ ∀ c ∈ gap, isBlank c = true := by
  constructor
  · intro h
    refine ⟨(append_of_readName h).symm, ?_⟩
    unfold readName at h
    split at h
    · dsimp only at h
      split at h
      · cases h
        exact ⟨fun c hc => List.mem_takeWhile_imp hc, fun c hc => List.mem_takeWhile_imp hc,
          fun c hc => List.mem_takeWhile_imp hc⟩
      · cases h
    · cases h
  · rintro ⟨rfl, hlead, hstem, hgap⟩
    have hdash : ∀ rest, ∀ c ∈ ('-' :: rest).head?, isBlank c = false := fun _ c hc => by
      cases hc
      rfl
    have hend : ∀ c ∈ (gap ++ ',' :: r).head?, isStem c = false := fun c hc => by
      cases gap with
      | nil => cases hc; rfl
      | cons g gap =>
          cases hc
          exact isStem_eq_false_of_isBlank (hgap _ (List.mem_cons_self ..))
    have hcomma : ∀ c ∈ (',' :: r).head?, isBlank c = false := fun c hc => by
      cases hc
      rfl
    simp only [readName, List.append_assoc, List.cons_append, dropWhile_append_of_stop hlead (hdash _),
      takeWhile_append_of_stop hlead (hdash _), dropWhile_append_of_stop hstem hend,
      takeWhile_append_of_stop hstem hend, dropWhile_append_of_stop hgap hcomma, takeWhile_append_of_stop hgap hcomma]

theorem read_eq_some_iff : read s = some (l, r) ↔ s = l.text ++ r ∧ l.WellFormed := by
  constructor
  · intro h
    refine ⟨(text_append_of_read h).symm, ?_⟩
    unfold read at h
    split at h
    · split at h
      · next lead stem gap r' hn =>
          obtain ⟨_, hlead, hstem, hgap⟩ := readName_eq_some_iff.1 hn
          split at h
          · dsimp only at h
            split at h
            · cases h
            · next hne =>
                cases h
                simp only [Bool.or_eq_true, decide_eq_true_eq, not_or] at hne
                refine ⟨hlead, hne.1, hstem, hgap, hne.2, fun hc => ?_⟩
                simpa using List.mem_takeWhile_imp hc
          · cases h
      · cases h
    · cases h
  · rintro ⟨rfl, hl⟩
    have hopening : dropLit? opening (l.text ++ r) =
        some (l.lead ++ '-' :: '-' :: l.stem ++ l.gap ++ ',' :: (l.fallback ++ ')' :: r)) :=
      dropLit?_eq_some_iff.2 (by simp [text])
    have hname := (readName_eq_some_iff (r := l.fallback ++ ')' :: r)).2
      ⟨rfl, hl.lead_blank, hl.stem_plain, hl.gap_blank⟩
    rw [read, hopening]
    simp only [hname, dropWhile_append_cons hl.fallback_open, takeWhile_append_cons hl.fallback_open]
    simp [hl.stem_ne_nil, hl.fallback_ne_nil]

/-! ## Where lookups end, and what they need -/

theorem close_notMem_of_blank (h : ∀ c ∈ s, isBlank c = true) : ')' ∉ s := fun hm => by
  cases h _ hm

theorem close_notMem_of_stem (h : ∀ c ∈ s, isStem c = true) : ')' ∉ s := fun hm => by
  cases h _ hm

theorem closedBy_pattern : pattern.ClosedBy ')' where
  text_eq {s l r} h := by
    obtain ⟨_, hl⟩ := read_eq_some_iff.1 h
    refine ⟨opening ++ l.lead ++ '-' :: '-' :: l.stem ++ l.gap ++ ',' :: l.fallback, rfl, ?_⟩
    simp [opening, close_notMem_of_blank hl.lead_blank, close_notMem_of_stem hl.stem_plain,
      close_notMem_of_blank hl.gap_blank, hl.fallback_open]
  read_text {s l r} h r' := read_eq_some_iff.2 ⟨rfl, (read_eq_some_iff.1 h).2⟩

theorem open_mem_of_read (h : read s = some (l, r)) : '(' ∈ s := by
  rw [← text_append_of_read h]
  simp [text, opening]

theorem dash_mem_of_read (h : read s = some (l, r)) : '-' ∈ s := by
  rw [← text_append_of_read h]
  simp [text]

theorem comma_mem_of_read (h : read s = some (l, r)) : ',' ∈ s := by
  rw [← text_append_of_read h]
  simp [text]

theorem hits_eq_nil_of_notMem (hc : c = '(' ∨ c = '-' ∨ c = ',') (h : c ∉ s) : pattern.hits s = [] := by
  refine Pattern.hits_eq_nil_iff.2 fun y hy => Option.eq_none_iff_forall_ne_some.2 ?_
  rintro ⟨l, r⟩ hread
  rcases hc with rfl | rfl | rfl
  · exact h (hy.mem (open_mem_of_read hread))
  · exact h (hy.mem (dash_mem_of_read hread))
  · exact h (hy.mem (comma_mem_of_read hread))

theorem hits_cons_of_ne (hc : c ≠ 'v') (s : List Char) : pattern.hits (c :: s) = pattern.hits s := by
  refine Pattern.hits_cons (Option.eq_none_iff_forall_ne_some.2 ?_)
  rintro ⟨l, r⟩ hread
  have he := text_append_of_read hread
  exact hc (List.cons.inj he).1.symm

theorem hits_append_of_not_read (hc : c ≠ 'v') (h : ∀ y l r, y <:+ s → read (y ++ c :: rest) ≠ some (l, r)) :
    pattern.hits (s ++ c :: rest) = pattern.hits rest := by
  rw [Pattern.hits_append_of_none, hits_cons_of_ne hc]
  intro y _ hs
  exact Option.eq_none_iff_forall_ne_some.2 fun x => h y x.1 x.2 hs

/-- Up to a character that lookups do not begin with, a text without brackets has none. -/
theorem hits_append_of_open_notMem (h : '(' ∉ s) (hc : c ∉ opening) (rest : List Char) :
    pattern.hits (s ++ c :: rest) = pattern.hits rest := by
  refine hits_append_of_not_read (ne_of_mem_of_not_mem (by decide) hc).symm fun y l r hs hread => ?_
  have hy : '(' ∉ y := fun hm => h (hs.mem hm)
  have he : y ++ c :: rest =
      opening ++ (l.lead ++ '-' :: '-' :: l.stem ++ l.gap ++ ',' :: l.fallback ++ [')'] ++ r) := by
    rw [← text_append_of_read hread]
    simp [text]
  rcases List.append_eq_append_iff.1 he with ⟨w, hw, hr⟩ | ⟨w, hw, _⟩
  · cases w with
    | nil => exact hy (List.append_nil y ▸ hw ▸ by simp [opening])
    | cons d w =>
        obtain ⟨rfl, _⟩ := List.cons.inj hr
        exact hc (hw ▸ by simp)
  · exact hy (hw ▸ by simp [opening])

/-- Up to a character that cannot stand between the bracket and the dashes, a text without dashes has no lookup. -/
theorem hits_append_of_dash_notMem (h : '-' ∉ s) (hc : c ∉ '-' :: opening) (hb : isBlank c = false) (rest : List Char) :
    pattern.hits (s ++ c :: rest) = pattern.hits rest := by
  refine hits_append_of_not_read (ne_of_mem_of_not_mem (by decide) hc).symm fun y l r hs hread => ?_
  have hy : '-' ∉ y := fun hm => h (hs.mem hm)
  obtain ⟨_, hl⟩ := read_eq_some_iff.1 hread
  have he : y ++ c :: rest =
      (opening ++ l.lead ++ ['-']) ++ ('-' :: l.stem ++ l.gap ++ ',' :: l.fallback ++ [')'] ++ r) := by
    rw [← text_append_of_read hread]
    simp [text]
  rcases List.append_eq_append_iff.1 he with ⟨w, hw, hr⟩ | ⟨w, hw, _⟩
  · cases w with
    | nil => exact hy (List.append_nil y ▸ hw ▸ by simp)
    | cons d w =>
        obtain ⟨rfl, _⟩ := List.cons.inj hr
        have hm : c ∈ opening ++ l.lead ++ ['-'] := hw ▸ by simp
        simp only [List.mem_append, List.mem_singleton] at hm
        rcases hm with (hm | hm) | rfl
        · exact hc (List.mem_cons_of_mem _ hm)
        · rw [hl.lead_blank c hm] at hb
          cases hb
        · exact hc (List.mem_cons_self ..)
  · exact hy (hw ▸ by simp)

/-! ## Stylesheets -/

/-- A value in which no lookup is left open: it lacks a character that lookups need, or it ends with a bracket. -/
def Closed (s : List Char) : Prop := '(' ∉ s ∨ '-' ∉ s ∨ ∃ t, s = t ++ [')']

theorem Closed.hits_append_semicolon (h : Closed s) (rest : List Char) :
    pattern.hits (s ++ ';' :: rest) = pattern.hits s ++ pattern.hits rest := by
  rcases h with h | h | ⟨t, rfl⟩
  · rw [hits_append_of_open_notMem h (by decide), hits_eq_nil_of_notMem (.inl rfl) h, List.nil_append]
  · rw [hits_append_of_dash_notMem h (by decide) rfl, hits_eq_nil_of_notMem (.inr (.inl rfl)) h, List.nil_append]
  · rw [List.append_assoc, List.singleton_append, closedBy_pattern.hits_append, hits_cons_of_ne (by decide)]

theorem hits_declarationLine_append {v : Variable} (hname : Name.IsProper v.name) (hv : Closed v.value.toList)
    (rest : List Char) :
    pattern.hits ((Sheet.declarationLine v).toList ++ '\n' :: rest) =
      pattern.hits v.value.toList ++ pattern.hits rest := by
  obtain ⟨stem, hstem, _, hlegal⟩ := hname
  have hopen : '(' ∉ stem := fun hm => by cases hlegal _ hm
  have hline : (Sheet.declarationLine v).toList ++ '\n' :: rest =
      (' ' :: ' ' :: '-' :: '-' :: stem ++ [':']) ++ ' ' :: (v.value.toList ++ ';' :: '\n' :: rest) := by
    simp [Sheet.declarationLine, hstem]
  rw [hline, hits_append_of_open_notMem (by simp [hopen]) (by decide), hv.hits_append_semicolon,
    hits_cons_of_ne (by decide)]

theorem hits_declarationLines_append {vars : List Variable} (hname : ∀ v ∈ vars, Name.IsProper v.name)
    (hv : ∀ v ∈ vars, Closed v.value.toList) (rest : List Char) :
    pattern.hits (Sheet.textOf (vars.map Sheet.declarationLine) ++ rest) =
      (vars.flatMap fun v => pattern.hits v.value.toList) ++ pattern.hits rest := by
  induction vars with
  | nil => rfl
  | cons v vars ih =>
      obtain ⟨hn, hnames⟩ := List.forall_mem_cons.1 hname
      obtain ⟨hc, hclosed⟩ := List.forall_mem_cons.1 hv
      rw [List.map_cons, Sheet.textOf_cons, List.append_assoc, List.cons_append, hits_declarationLine_append hn hc,
        ih hnames hclosed, List.flatMap_cons, List.append_assoc]

theorem hits_lines_append {lines : List String} (h : ∀ line ∈ lines, '(' ∉ line.toList) (rest : List Char) :
    pattern.hits (Sheet.textOf lines ++ rest) = pattern.hits rest := by
  induction lines with
  | nil => rfl
  | cons line lines ih =>
      obtain ⟨hline, hlines⟩ := List.forall_mem_cons.1 h
      rw [Sheet.textOf_cons, List.append_assoc, List.cons_append, hits_append_of_open_notMem hline (by decide),
        ih hlines]

/-- Headings may have brackets, but then no dashes. -/
theorem hits_headingLines_append (layer : Layer) (rest : List Char) :
    pattern.hits (Sheet.textOf (layer.headings.map (" * " ++ ·)) ++ rest) = pattern.hits rest := by
  have hbracket : ∀ {s t : String}, '-' ∉ s.toList → '(' ∉ t.toList →
      pattern.hits (Sheet.textOf [s ++ ")", t] ++ rest) = pattern.hits rest := by
    intro s t hs ht
    have htext : Sheet.textOf [s ++ ")", t] ++ rest = s.toList ++ ')' :: ('\n' :: (Sheet.textOf [t] ++ rest)) := by
      simp
    rw [htext, hits_append_of_dash_notMem hs (by decide) rfl, hits_cons_of_ne (by decide),
      hits_lines_append (by simpa using ht)]
  cases layer with
  | primitives =>
      exact hbracket (s := " * Primitives (a.k.a. Base / Core / Foundations") (by decide +kernel) (by decide +kernel)
  | semantic =>
      exact hbracket (s := " * Semantic assignments (a.k.a. Alias / System") (by decide +kernel) (by decide +kernel)
  | component => exact hits_lines_append (by decide +kernel) rest

theorem hits_headerLines_append (layer : Layer) {fileLabel sourceLabel : String} (hfile : '(' ∉ fileLabel.toList)
    (hsource : '(' ∉ sourceLabel.toList) (rest : List Char) :
    pattern.hits (Sheet.textOf (Sheet.headerLines layer fileLabel sourceLabel) ++ rest) = pattern.hits rest := by
  have htop : ∀ line ∈ ["/* ----------------------------------", " * " ++ fileLabel], '(' ∉ line.toList := by
    simpa using hfile
  have hend : ∀ line ∈ [" *", " * This file is AUTO-GENERATED from", " * " ++ sourceLabel ++ ".",
      " * DO NOT edit this file directly.", " * ----------------------------------*/", "", r":root {"],
      '(' ∉ line.toList := by
    simpa using hsource
  rw [Sheet.headerLines, Sheet.textOf_append, Sheet.textOf_append, List.append_assoc, List.append_assoc,
    hits_lines_append htop, hits_headingLines_append, hits_lines_append hend]

/-- The lookups with fallbacks in a stylesheet are those in its values, variable by variable. -/
theorem all_render (layer : Layer) {fileLabel sourceLabel : String} (hfile : '(' ∉ fileLabel.toList)
    (hsource : '(' ∉ sourceLabel.toList) {vars : List Variable} (hname : ∀ v ∈ vars, Name.IsProper v.name)
    (hv : ∀ v ∈ vars, Closed v.value.toList) :
    all (Sheet.render layer fileLabel sourceLabel vars) = vars.flatMap fun v => all v.value := by
  have hbrace : pattern.hits ['}', '\n'] = [] := hits_eq_nil_of_notMem (.inl rfl) (by decide)
  rw [all, Sheet.toList_render, List.append_assoc, hits_headerLines_append layer hfile hsource,
    hits_declarationLines_append hname hv, hbrace, List.append_nil, List.map_flatMap]
  rfl

end DesignTokens.FallbackLookup
