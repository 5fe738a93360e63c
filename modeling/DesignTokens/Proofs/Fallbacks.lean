import DesignTokens.Layout.Basic
import DesignTokens.Proofs.Expression
import DesignTokens.Proofs.FallbackScan
import DesignTokens.Proofs.Grammar
import DesignTokens.Proofs.Lookups

/-!
# Where fallbacks come from

A compiled stylesheet has the lookups with fallbacks that its tokens write, and no others. Neither the lookups that
replace references nor the wrapper of arithmetic make or complete the first part of one.
-/

namespace DesignTokens

/-! ## Numbers -/

namespace Number

variable {c : Char}

theorem isDigit_of_mem_toDigits {n : Nat} (h : c ∈ Nat.toDigits 10 n) : c.isDigit = true :=
  Nat.isDigit_of_mem_toDigits (by decide) (by decide) h

theorem Decimal.open_notMem_text {d : Decimal} (h : '(' ∉ d.digits) : '(' ∉ d.text := by
  have htake : ∀ n, '(' ∉ d.digits.take n := fun n hm => h (List.mem_of_mem_take hm)
  have hdrop : ∀ n, '(' ∉ d.digits.drop n := fun n hm => h (List.mem_of_mem_drop hm)
  have htail : '(' ∉ d.digits.tail := fun hm => h (List.mem_of_mem_tail hm)
  have hexponent : ∀ n, '(' ∉ Nat.toDigits 10 n := fun n hm => by cases isDigit_of_mem_toDigits hm
  unfold Decimal.text
  dsimp only
  split
  · split <;> simp [h, htake, hdrop]
  · split
    · simp [h]
    · split <;> split <;> simp [h, htake, htail, hexponent]

theorem Binary64.open_notMem_shortest (x : Binary64) : '(' ∉ x.shortest.digits := by
  intro h
  unfold Binary64.shortest at h
  split at h
  · simp at h
  · rcases hsearch : x.search 17 (decimalExponent (x.quarters (4 * x.significand)).1 (x.quarters (4 * x.significand)).2)
      with ⟨k, g⟩
    simp only [hsearch] at h
    cases isDigit_of_mem_toDigits (List.mem_reverse.1 ((List.dropWhile_sublist _).mem (List.mem_reverse.1 h)))

end Number

theorem Json.Number.open_notMem_text (n : Json.Number) : '(' ∉ n.text := by
  cases n with
  | integer n =>
      have hdigits : '(' ∉ Nat.toDigits 10 n.natAbs := fun hm => by cases Number.isDigit_of_mem_toDigits hm
      rw [Json.Number.text]
      split <;> simp [hdigits]
  | binary x =>
      have hshortest := Number.Decimal.open_notMem_text x.open_notMem_shortest
      rw [Json.Number.text, Number.Binary64.text]
      split <;> simp [hshortest]

theorem Document.Denotes.open_notMem {raw : Json} {s : String} (h : Denotes raw (.scalar s)) : '(' ∉ s.toList := by
  cases h with
  | number n => simpa using n.open_notMem_text
  | false | true => decide +kernel

/-! ## Values -/

namespace FallbackLookup

open Text

variable {s o : List Char}

/-- What a lookup with a fallback begins with, up to its comma. -/
def IsOpening (s : List Char) : Prop :=
  ∃ lead stem gap, s = opening ++ lead ++ '-' :: '-' :: stem ++ gap ∧ (∀ c ∈ lead, isBlank c = true) ∧ stem ≠ [] ∧
    (∀ c ∈ stem, isStem c = true) ∧ ∀ c ∈ gap, isBlank c = true

/-- The text begins a lookup with a fallback, and goes on with it after the comma. -/
def Begins (s : List Char) : Prop := ∃ before o c after, s = before ++ o ++ ',' :: c :: after ∧ IsOpening o ∧ c ≠ ')'

theorem IsOpening.close_notMem (h : IsOpening o) : ')' ∉ o := by
  obtain ⟨lead, stem, gap, rfl, hlead, _, hstem, hgap⟩ := h
  simp [opening, close_notMem_of_blank hlead, close_notMem_of_stem hstem, close_notMem_of_blank hgap]

theorem Begins.comma_mem (h : Begins s) : ',' ∈ s := by
  obtain ⟨before, o, c, after, rfl, _⟩ := h
  simp

theorem Begins.dash_mem (h : Begins s) : '-' ∈ s := by
  obtain ⟨before, _, c, after, rfl, ⟨lead, stem, gap, rfl, _⟩, _⟩ := h
  simp

/-- With a bracket at the end, each lookup that is begun is found. -/
theorem hits_close_ne_nil_iff : pattern.hits (s ++ [')']) ≠ [] ↔ Begins s := by
  rw [ne_eq, Pattern.hits_eq_nil_iff]
  simp only [Option.eq_none_iff_forall_ne_some, not_forall, not_not]
  constructor
  · rintro ⟨y, ⟨before, hbefore⟩, ⟨l, r⟩, hread⟩
    obtain ⟨rfl, hl⟩ := read_eq_some_iff.1 hread
    obtain ⟨c, f, hf⟩ := List.exists_cons_of_ne_nil hl.fallback_ne_nil
    obtain ⟨after, d, hafter⟩ : ∃ after d, f ++ ')' :: r = after ++ [d] :=
      (List.eq_nil_or_concat' (f ++ ')' :: r)).resolve_left (by simp)
    have hs : (before ++ (opening ++ l.lead ++ '-' :: '-' :: l.stem ++ l.gap) ++ ',' :: c :: after) ++ [d] =
        s ++ [')'] := by
      rw [← hbefore, text, hf]
      simp [← hafter]
    refine ⟨before, _, c, after, (List.append_inj_left' hs rfl).symm,
      ⟨_, _, _, rfl, hl.lead_blank, hl.stem_ne_nil, hl.stem_plain, hl.gap_blank⟩, ?_⟩
    rintro rfl
    exact hl.fallback_open (hf ▸ List.mem_cons_self ..)
  · rintro ⟨before, _, c, after, rfl, ⟨lead, stem, gap, rfl, hlead, hne, hstem, hgap⟩, hc⟩
    have hclose := concat_eq_takeWhile_append after ')'
    have hopen : ')' ∉ after.takeWhile (· != ')') := fun hm => by simpa using List.mem_takeWhile_imp hm
    generalize after.takeWhile (· != ')') = f at hclose hopen
    generalize ((after ++ [')']).dropWhile (· != ')')).drop 1 = r at hclose
    refine ⟨_, ⟨before, ?_⟩, (⟨lead, stem, gap, c :: f⟩, r), read_eq_some_iff.2 ⟨rfl, hlead, hne, hstem, hgap,
      List.cons_ne_nil _ _, ?_⟩⟩
    · simp [text, ← hclose]
    · simpa [Ne.symm hc] using hopen

end FallbackLookup

namespace Sheet

open Text FallbackLookup

variable {s : List Char}

theorem isLookup_eq_true (h : isLookup s = true) : ',' ∉ s ∧ ∃ t, s = t ++ [')'] := by
  obtain ⟨stem, rfl, _, hlegal⟩ := isLookup_iff.1 h
  have hcomma : ',' ∉ stem := fun hm => by cases hlegal _ hm
  exact ⟨by simp [hcomma], _, rfl⟩

theorem closed_expression (s : List Char) : Closed (expression s) := by
  unfold expression
  dsimp only
  split
  · next h => exact .inr (.inr (isLookup_eq_true h).2)
  · split
    · next h =>
        refine .inr (.inl (List.not_mem_append (dash_notMem_of_isNumber h) (by decide)))
    · split
      · exact .inr (.inr ⟨_, rfl⟩)
      · next h => exact .inr (.inl fun hm => h (List.any_eq_true.2 ⟨_, hm, rfl⟩))

/-- The expression of a text has a lookup with a fallback if and only if the text begins one. -/
theorem hits_expression_ne_nil_iff : pattern.hits (expression s) ≠ [] ↔ Begins s := by
  unfold expression
  dsimp only
  split
  · next h =>
      have hcomma := (isLookup_eq_true h).1
      have hs : ',' ∉ s := fun hm => hcomma ((mem_trim rfl).2 hm)
      exact iff_of_false (not_not.2 (hits_eq_nil_of_notMem (.inr (.inr rfl)) hcomma)) fun hb => hs hb.comma_mem
  · split
    · next h =>
        have hdash := dash_notMem_of_isNumber h
        have hs : '-' ∉ s := fun hm => hdash ((mem_trim rfl).2 hm)
        exact iff_of_false (not_not.2 (hits_eq_nil_of_notMem (.inr (.inl rfl)) (List.not_mem_append hdash (by decide))))
          fun hb => hs hb.dash_mem
    · split
      · have hcalc : pattern.hits (['c', 'a', 'l', 'c', '('] ++ s ++ [')']) = pattern.hits (s ++ [')']) := by
          simp only [List.cons_append, List.nil_append]
          repeat rw [hits_cons_of_ne (by decide)]
        rw [hcalc, hits_close_ne_nil_iff]
      · next h =>
          have hs : '-' ∉ s := fun hm => h (List.any_eq_true.2 ⟨_, hm, rfl⟩)
          exact iff_of_false (not_not.2 (hits_eq_nil_of_notMem (.inr (.inl rfl)) hs)) fun hb => hs hb.dash_mem

end Sheet

namespace Graph

open FallbackLookup

/-! ## Texts -/

/-- Outside of its references, the text begins a lookup with a fallback and goes on with it after the comma. -/
def WritesFallback (text : String) : Prop :=
  ∃ before o piece after,
    Reference.pattern.pieces text.toList = before ++ (o ++ [',']).map .plain ++ piece :: after ∧ IsOpening o ∧
      piece ≠ .plain ')'

variable {g : Graph} {context : String} {pieces : List (Text.Piece (List Char))} {parts : List (List Char)}
  {before o tail : List Char}

/-- Lookups that replace references have a bracket at the end and no comma. -/
theorem exists_lookup_eq (a : Address) : ∃ t, a.lookup.toList = 'v' :: t ++ [')'] ∧ ',' ∉ 'v' :: t := by
  obtain ⟨stem, hstem, _, hlegal⟩ := a.isProper_variableName
  have hcomma : ',' ∉ stem := fun hm => by cases hlegal _ hm
  refine ⟨'a' :: 'r' :: '(' :: '-' :: '-' :: stem, ?_, by simp [hcomma]⟩
  rw [Address.lookup, hstem]
  simp

/-- The end of such a lookup does not reach into what a lookup with a fallback begins with. -/
theorem append_ne_append_comma {t rest : List Char} (ht : ',' ∉ t) (ho : ')' ∉ o) :
    t ++ ')' :: rest ≠ o ++ ',' :: tail := by
  intro he
  rcases List.append_eq_append_iff.1 he with ⟨w, rfl, hr⟩ | ⟨w, rfl, hr⟩
  · cases w with
    | nil => cases hr
    | cons d w =>
        obtain ⟨rfl, _⟩ := List.cons.inj hr
        exact ho (by simp)
  · cases w with
    | nil => cases hr
    | cons d w =>
        obtain ⟨rfl, _⟩ := List.cons.inj hr
        exact ht (by simp)

theorem flatten_of_plain (h : List.Forall₂ (g.Replaces context) (o.map .plain) parts) : parts.flatten = o := by
  induction o generalizing parts with
  | nil =>
      cases h
      rfl
  | cons c o ih =>
      cases h with
      | cons hp hrest =>
          obtain rfl := hp
          exact congrArg _ (ih hrest)

theorem exists_pieces_of_flatten_eq_append (h : List.Forall₂ (g.Replaces context) pieces parts) (ho : ')' ∉ o)
    (he : parts.flatten = before ++ (o ++ ',' :: tail)) :
    ∃ ps qs parts', pieces = ps ++ qs ∧ List.Forall₂ (g.Replaces context) qs parts' ∧
      parts'.flatten = o ++ ',' :: tail := by
  induction h generalizing before with
  | nil => simp at he
  | @cons piece part pieces parts hp hrest ih =>
      cases before with
      | nil => exact ⟨[], piece :: pieces, part :: parts, rfl, .cons hp hrest, he⟩
      | cons b before =>
          rw [List.flatten_cons] at he
          -- The part is passed over as a whole: a character is, and a lookup cannot reach into the comma.
          obtain ⟨w, hw⟩ : ∃ w, parts.flatten = w ++ (o ++ ',' :: tail) := by
            cases piece with
            | plain c =>
                obtain rfl := hp
                exact ⟨before, (List.cons.inj he).2⟩
            | hit inner =>
                obtain ⟨a, _, rfl⟩ := hp
                obtain ⟨t, ht, hcomma⟩ := exists_lookup_eq a
                rw [ht] at he
                rcases List.append_eq_append_iff.1 he with ⟨w, _, hw⟩ | ⟨w, hw, hr⟩
                · exact ⟨w, hw⟩
                · rcases List.eq_nil_or_concat' w with rfl | ⟨w, d, rfl⟩
                  · exact ⟨[], hr.symm⟩
                  · rw [← List.append_assoc] at hw
                    obtain ⟨hpart, hd⟩ := List.append_inj' hw rfl
                    obtain rfl := List.singleton_inj.1 hd
                    rw [List.append_assoc, List.singleton_append] at hr
                    have hw : ',' ∉ w := fun hm => hcomma (hpart ▸ List.mem_append_right _ hm)
                    exact absurd hr.symm (append_ne_append_comma hw ho)
          obtain ⟨ps, qs, parts', rfl, hqs, hflat⟩ := ih hw
          exact ⟨piece :: ps, qs, parts', rfl, hqs, hflat⟩

theorem exists_plain_of_flatten_eq (h : List.Forall₂ (g.Replaces context) pieces parts) (ho : ')' ∉ o)
    (he : parts.flatten = o ++ ',' :: tail) :
    ∃ qs parts', pieces = (o ++ [',']).map .plain ++ qs ∧ List.Forall₂ (g.Replaces context) qs parts' ∧
      parts'.flatten = tail := by
  induction o generalizing pieces parts with
  | nil =>
      cases h with
      | nil => cases he
      | @cons piece part pieces parts hp hrest =>
          cases piece with
          | plain c =>
              obtain rfl := hp
              obtain ⟨rfl, hflat⟩ := List.cons.inj he
              exact ⟨pieces, parts, rfl, hrest, hflat⟩
          | hit inner =>
              obtain ⟨a, _, rfl⟩ := hp
              obtain ⟨t, ht, _⟩ := exists_lookup_eq a
              rw [List.flatten_cons, ht] at he
              cases (List.cons.inj he).1
  | cons d o ih =>
      cases h with
      | nil => cases he
      | @cons piece part pieces parts hp hrest =>
          cases piece with
          | plain c =>
              obtain rfl := hp
              obtain ⟨rfl, hflat⟩ := List.cons.inj he
              obtain ⟨qs, parts', rfl, hqs, htail⟩ := ih hrest (fun hm => ho (List.mem_cons_of_mem _ hm)) hflat
              exact ⟨qs, parts', rfl, hqs, htail⟩
          | hit inner =>
              obtain ⟨a, _, rfl⟩ := hp
              obtain ⟨t, ht, hcomma⟩ := exists_lookup_eq a
              rw [List.flatten_cons, ht, List.append_assoc, List.singleton_append] at he
              exact absurd he (append_ne_append_comma hcomma ho)

/-- A text whose references are replaced begins a lookup with a fallback if and only if it did so before. -/
theorem begins_flatten_iff {text : String}
    (h : List.Forall₂ (g.Replaces context) (Reference.pattern.pieces text.toList) parts) :
    Begins parts.flatten ↔ WritesFallback text := by
  constructor
  · rintro ⟨before, o, c, after, he, ho, hc⟩
    rw [List.append_assoc] at he
    obtain ⟨ps, qs, parts', hpieces, hqs, he⟩ := exists_pieces_of_flatten_eq_append h ho.close_notMem he
    obtain ⟨rest, parts'', rfl, hrest, htail⟩ := exists_plain_of_flatten_eq hqs ho.close_notMem he
    cases hrest with
    | nil => cases htail
    | @cons piece part rest _ hp _ =>
        refine ⟨ps, o, piece, rest, by rw [hpieces, List.append_assoc], ho, ?_⟩
        rintro rfl
        obtain rfl := hp
        exact hc (List.cons.inj htail).1.symm
  · rintro ⟨ps, o, piece, rest, hpieces, ho, hne⟩
    rw [hpieces] at h
    obtain ⟨us, vs, rfl, hus, hvs⟩ := exists_append_of_forall₂ h
    obtain ⟨ws, us', rfl, _, hws⟩ := exists_append_of_forall₂ hus
    cases hvs with
    | @cons _ part _ parts hp _ =>
        obtain ⟨c, t, rfl, hc⟩ : ∃ c t, part = c :: t ∧ c ≠ ')' := by
          cases piece with
          | plain c =>
              obtain rfl := hp
              exact ⟨c, [], rfl, fun he => hne (congrArg _ he)⟩
          | hit inner =>
              obtain ⟨a, _, rfl⟩ := hp
              obtain ⟨t, ht, _⟩ := exists_lookup_eq a
              exact ⟨'v', _, ht, by decide⟩
        refine ⟨ws.flatten, o, c, t ++ parts.flatten, ?_, ho, hc⟩
        rw [List.flatten_append, List.flatten_append, flatten_of_plain hws, List.flatten_cons]
        simp

/-! ## Documents -/

variable {j : Json} {fileLabel : Layer → String} {sourceLabel : String}

/-- A token of a document has a lookup with a fallback in its value if and only if it is a text that writes one. -/
theorem hits_compileValue (hj : j.Ordered) (hg : ofJson j = .ok g) {a : Address} {leaf : Leaf}
    (hleaf : g.leaf? a = some leaf) {value : String} (hv : g.compileValue leaf.value context = .ok value) :
    Closed value.toList ∧ (all value ≠ [] ↔ ∃ s, leaf.value = .text s ∧ WritesFallback s) := by
  obtain ⟨_, raw, _, hraw, _⟩ := (leaf?_eq_some_iff hj hg).1 hleaf
  obtain ⟨value', kind⟩ := leaf
  cases value' with
  | scalar s =>
      cases hv
      have hopen := hraw.open_notMem
      refine ⟨.inl hopen, iff_of_false ?_ (by simp)⟩
      simp [all, hits_eq_nil_of_notMem (.inl rfl) hopen]
  | text s =>
      obtain ⟨t, ht, rfl⟩ := map_eq_ok_iff.1 hv
      obtain ⟨parts, hparts, rfl⟩ := substitute_eq_ok_iff.1 ht
      simp only [compileText, String.toList_ofList, TokenValue.text.injEq, exists_eq_left', ← begins_flatten_iff hparts,
        ← Sheet.hits_expression_ne_nil_iff, all, ne_eq, List.map_eq_nil_iff, and_true]
      exact Sheet.closed_expression _

variable {sheets : List Sheet} {sheet : Sheet}

/-- In the usual layout, the lookups with fallbacks in the sheets of an accepted document are those in the values of
their variables. -/
theorem all_contents (hj : j.Ordered) (hg : ofJson j = .ok g)
    (h : g.compile ({} : Layout).generatedFile ({} : Layout).tokens.text = .ok sheets) (hsheet : sheet ∈ sheets) :
    all sheet.contents = sheet.vars.flatMap fun v => all v.value := by
  have hc := compiles_of_mem h hsheet
  have hlabels : '(' ∉ (({} : Layout).generatedFile sheet.layer).toList ∧ '(' ∉ ({} : Layout).tokens.text.toList := by
    cases sheet.layer <;> decide +kernel
  rw [hc.contents_eq]
  refine all_render _ hlabels.1 hlabels.2 hc.isProper_name fun v hv => ?_
  obtain ⟨a, leaf, _, hleaf, value, hvalue, rfl⟩ := hc.mem_vars_iff.1 hv
  exact (hits_compileValue hj hg hleaf hvalue).1

/-- A sheet has the lookups with fallbacks of its values, one variable after the other. It has none if and only if no
text of its layer writes one. -/
theorem compile_fallbacks (hj : j.Ordered) (hg : ofJson j = .ok g)
    (h : g.compile ({} : Layout).generatedFile ({} : Layout).tokens.text = .ok sheets) :
    ∀ sheet ∈ sheets,
      all sheet.contents = sheet.vars.flatMap (fun v => all v.value) ∧
      (all sheet.contents = [] ↔
        ∀ e ∈ g.entries sheet.layer, ∀ s, e.leaf.value = .text s → ¬WritesFallback s) := by
  intro sheet hsheet
  have hc := compiles_of_mem h hsheet
  have hall := all_contents hj hg h hsheet
  refine ⟨hall, ?_⟩
  rw [hall, List.flatMap_eq_nil_iff]
  constructor
  · rintro hnone ⟨a, leaf⟩ he s hs hwrites
    obtain ⟨hlayer, hleaf⟩ := mem_entries_iff.1 he
    obtain ⟨value, hvalue⟩ := hc.exists_value hlayer hleaf
    have hv : (⟨a.variableName, value, a.path⟩ : Variable) ∈ sheet.vars :=
      hc.mem_vars_iff.2 ⟨a, leaf, hlayer, hleaf, value, hvalue, rfl⟩
    exact (hits_compileValue hj hg hleaf hvalue).2.2 ⟨s, hs, hwrites⟩ (hnone _ hv)
  · intro hnone v hv
    obtain ⟨a, leaf, hlayer, hleaf, value, hvalue, rfl⟩ := hc.mem_vars_iff.1 hv
    by_contra hne
    obtain ⟨s, hs, hwrites⟩ := (hits_compileValue hj hg hleaf hvalue).2.1 hne
    exact hnone ⟨a, leaf⟩ (mem_entries_iff.2 ⟨hlayer, hleaf⟩) s hs hwrites

/-- One text writes a lookup with a fallback. In the other one, a reference stands where the name should be, and nothing
stands where the fallback should be. -/
private def panelDocument : Json :=
  .object [
    ("component", .object [("note", .object [("$value", .text "var({gap}, 8px) var(--x,)")])]),
    ("primitives", .object [("gap", .object [("$value", .text "4")])]),
    ("semantic", .object [("panel", .object [("$value", .text "var(--panel, {gap})")])])]

private def panel : Graph := (Graph.ofJson panelDocument).toOption.get (by decide +kernel)

private def panelSheets : List Sheet :=
  ((Layer.all.mapM fun layer => (panel.layerVariables layer).map fun vars => (layer, vars)) >>=
    (·.mapM fun c =>
      Sheet.ofVariables c.1 (({} : Layout).generatedFile c.1) ({} : Layout).tokens.text c.2)).toOption.get
    (by decide +kernel)

private theorem compile_panel :
    panel.compile ({} : Layout).generatedFile ({} : Layout).tokens.text = .ok panelSheets := by
  have hedges : panel.edges = .ok [("component.note", ["primitives.gap"]), ("primitives.gap", []),
      ("semantic.panel", ["primitives.gap"])] := by decide +kernel
  have hcycles : panel.checkCycles = .ok () := by
    rw [checkCycles_of_edges hedges]
    simp [Reference.findCycle?, Reference.visitAll, Reference.visit_eq, List.lookup_cons, Except.map]
  rw [compile_of_checkCycles hcycles]
  exact eq_ok_get _

private theorem ordered_panel : panelDocument.Ordered := by
  have htext : ∀ s, Json.Ordered (.text s) := fun _ => .other rfl
  simp +decide [panelDocument, Json.ordered_object_iff, Assoc.Sorted, htext]

theorem compile_fallbacks_panel :
    panelDocument.Ordered ∧ ofJson panelDocument = .ok panel ∧
    panel.compile ({} : Layout).generatedFile ({} : Layout).tokens.text = .ok panelSheets ∧
    ∀ sheet ∈ panelSheets, (∀ e ∈ panel.entries sheet.layer, ∀ s, e.leaf.value = .text s → ¬WritesFallback s) ↔
      sheet.layer ≠ .semantic := by
  have hfound : ∀ sheet ∈ panelSheets, (sheet.vars.flatMap fun v => all v.value) = [] ↔ sheet.layer ≠ .semantic := by
    decide +kernel
  have hok : ofJson panelDocument = .ok panel := eq_ok_get _
  refine ⟨ordered_panel, hok, compile_panel, fun sheet hsheet => ?_⟩
  obtain ⟨hall, hnone⟩ := compile_fallbacks ordered_panel hok compile_panel sheet hsheet
  rw [← hnone, hall]
  exact hfound sheet hsheet

/-- An accepted document whose stylesheets are not free of lookups with fallbacks. -/
theorem not_fallbackFree_panel :
    ofJson panelDocument = .ok panel ∧
    panel.compile ({} : Layout).generatedFile ({} : Layout).tokens.text = .ok panelSheets ∧
    ∃ sheet ∈ panelSheets, all sheet.contents = ["var(--panel, var(--gap)"] := by
  have hfound : ∃ sheet ∈ panelSheets, (sheet.vars.flatMap fun v => all v.value) = ["var(--panel, var(--gap)"] := by
    decide +kernel
  obtain ⟨sheet, hsheet, hvalues⟩ := hfound
  refine ⟨eq_ok_get _, compile_panel, sheet, hsheet, ?_⟩
  rw [all_contents ordered_panel (eq_ok_get _) compile_panel hsheet, hvalues]

end Graph

end DesignTokens
