import DesignTokens.Proofs.Expression
import DesignTokens.Proofs.Segments

/-!
# What texts with references are compiled to

The lookup of a reference that stands alone is never wrapped, though names have dashes. In any other text with
references the lookups bring their dashes with them, and the whole text is wrapped.
-/

namespace DesignTokens

namespace Sheet

open Text

/-- A text that is a lookup when it is trimmed has only white space around a lookup that occurs in it. -/
theorem blank_of_isLookup_trim {u l t : List Char} (hl : isLookup l = true)
    (h : isLookup (trim (u ++ l ++ t)) = true) :
    (∀ c ∈ u, isBlank c = true) ∧ ∀ c ∈ t, isBlank c = true := by
  obtain ⟨before, after, heq, hbefore, hafter⟩ := exists_eq_trim (u ++ l ++ t)
  generalize trim (u ++ l ++ t) = m at h heq
  obtain ⟨stem, rfl, _⟩ := isLookup_iff.1 hl
  obtain ⟨stem', rfl, _, hlegal⟩ := isLookup_iff.1 h
  have hbracket : ∀ {c : Char}, isBlank c = false → Name.isLegal c = false → c ∉ before ∧ c ∉ stem' ∧ c ∉ after :=
    fun hb hl => ⟨fun hm => by simp [hbefore _ hm] at hb, fun hm => by simp [hlegal _ hm] at hl,
      fun hm => by simp [hafter _ hm] at hb⟩
  obtain ⟨hopenBefore, hopenStem, hopenAfter⟩ := hbracket (c := '(') rfl rfl
  obtain ⟨_, hcloseStem, hcloseAfter⟩ := hbracket (c := ')') rfl rfl
  -- Both texts are cut at the only opening bracket, and what follows it at the only closing one.
  have hcut : (before ++ ['v', 'a', 'r']) ++ '(' :: ('-' :: '-' :: stem' ++ ')' :: after) =
      (u ++ ['v', 'a', 'r']) ++ '(' :: ('-' :: '-' :: stem ++ ')' :: t) := by
    simpa using heq.symm
  rw [List.append_cons_inj_of_notMem (by simp [hopenBefore]) (by simp [hopenStem, hopenAfter]),
    List.append_cons_inj_of_notMem (by simp [hcloseStem]) hcloseAfter, List.append_cancel_right_eq] at hcut
  obtain ⟨rfl, _, _, _, rfl⟩ := hcut
  exact ⟨hbefore, hafter⟩

end Sheet

namespace Reference

open Text Sheet

/-- The text is the reference with nothing but white space around it. -/
def IsBare (text reference : List Char) : Prop :=
  IsReference reference ∧ ∃ before after, text = before ++ reference ++ after ∧
    (∀ c ∈ before, isBlank c = true) ∧ ∀ c ∈ after, isBlank c = true

variable {s r : List Char} {x : Segments} {f : List Char → List Char}

namespace Segments

theorem cuts_of_blank {before after : List Char} (hr : IsReference r) (hbefore : ∀ c ∈ before, isBlank c = true)
    (hafter : ∀ c ∈ after, isBlank c = true) : (cut before r (last after)).Cuts (before ++ r ++ after) := by
  induction before with
  | nil =>
      have hopen : '{' ∉ after := fun hm => by cases hafter _ hm
      exact ⟨rfl, List.forall_mem_singleton.2 hr,
        List.forall_mem_cons.2 ⟨fun q hq => hq.not_infix List.not_mem_nil,
          List.forall_mem_singleton.2 fun q hq => hq.not_infix hopen⟩,
        fun _ _ _ _ _ => Nat.zero_le _, trivial⟩
  | cons c before ih =>
      obtain ⟨hc, hbefore⟩ := List.forall_mem_cons.1 hbefore
      refine (ih hbefore).push (read_eq_none_of_ne ?_ _)
      rintro rfl
      cases hc

/-- If a text becomes a lookup when lookups take the places of its references, its reference stands alone. -/
theorem exists_isBare_of_isLookup (hx : x.Cuts s) (hne : x.references ≠ []) (hf : ∀ r, isLookup (f r) = true)
    (h : isLookup (trim (x.replace f)) = true) : ∃ r, IsBare s r := by
  cases x with
  | last u => exact absurd rfl hne
  | cut u r x =>
      obtain ⟨hu, ht⟩ := blank_of_isLookup_trim (hf r) h
      cases x with
      | last v => exact ⟨r, hx.isReference r (List.mem_cons_self ..), u, v, hx.text_eq.symm, hu, ht⟩
      | cut v q x =>
          obtain ⟨stem, hstem, _⟩ := isLookup_iff.1 (hf q)
          have hopen : '(' ∈ v ++ f q ++ x.replace f := by simp [hstem]
          cases ht _ hopen

theorem dash_mem_replace (hne : x.references ≠ []) (hf : ∀ r, isLookup (f r) = true) : '-' ∈ x.replace f := by
  cases x with
  | last u => exact absurd rfl hne
  | cut u r x => simp [replace, dash_mem_of_isLookup (hf r)]

end Segments

end Reference

namespace Graph

open Reference

variable {g : Graph} {text context : String} {f : String → Address} {x : Segments}

theorem compileValue_of_cuts (hx : x.Cuts text.toList)
    (hf : ∀ r ∈ Reference.all text, g.resolve r context = .ok (f r)) :
    g.compileValue (.text text) context =
      .ok (.ofList (Sheet.expression (x.replace fun r => (f (.ofList r)).lookup.toList))) := by
  rw [compileValue, substitute_of_cuts hx hf, Except.map, compileText, String.toList_ofList]

theorem compileValue_of_isBare (hf : ∀ r ∈ Reference.all text, g.resolve r context = .ok (f r)) {r : List Char}
    (h : IsBare text.toList r) :
    .ofList r ∈ Reference.all text ∧ g.compileValue (.text text) context = .ok (f (.ofList r)).lookup := by
  obtain ⟨hr, before, after, htext, hbefore, hafter⟩ := h
  have hcuts : (Segments.cut before r (.last after)).Cuts text.toList :=
    htext ▸ Segments.cuts_of_blank hr hbefore hafter
  have hlookup := Sheet.isLookup_lookup (f (.ofList r))
  have htrim : Text.trim (before ++ (f (.ofList r)).lookup.toList ++ after) = (f (.ofList r)).lookup.toList :=
    (Sheet.trimmed_of_isLookup hlookup).trim_eq hbefore hafter
  have hexpression := Sheet.expression_of_isLookup (htrim.symm ▸ hlookup)
  constructor
  · rw [← hcuts.map_references]
    exact List.mem_cons_self ..
  · rw [compileValue_of_cuts hcuts hf, Segments.replace, Segments.replace, hexpression, htrim, String.ofList_toList]

theorem compileValue_of_not_isBare (hf : ∀ r ∈ Reference.all text, g.resolve r context = .ok (f r))
    (hne : Reference.all text ≠ []) (h : ¬∃ r, IsBare text.toList r) :
    ∃ t, g.substitute text context = .ok t ∧ g.compileValue (.text text) context = .ok ("calc(" ++ t ++ ")") := by
  obtain ⟨x, hcuts⟩ : ∃ x : Segments, x.Cuts text.toList := ⟨_, Segments.cuts_ofPieces text.toList⟩
  have hreferences : x.references ≠ [] := fun hnil => hne (by rw [← hcuts.map_references, hnil, List.map_nil])
  have hlookup : ∀ r : List Char, Sheet.isLookup (f (.ofList r)).lookup.toList = true := fun r =>
    Sheet.isLookup_lookup _
  have hexpression := Sheet.expression_of_dash
    (fun hl => h (Segments.exists_isBare_of_isLookup hcuts hreferences hlookup hl))
    (Segments.dash_mem_replace hreferences hlookup)
  refine ⟨_, substitute_of_cuts hcuts hf, ?_⟩
  rw [compileValue_of_cuts hcuts hf, hexpression, String.ofList_append, String.ofList_append]

/-- A text whose references all mean tokens is compiled to the lookup of its reference if this one stands alone, and
otherwise the whole text, with its references replaced, is wrapped. -/
theorem compileValue_wraps (g : Graph) {text context : String} (hne : Reference.all text ≠ [])
    (hresolve : ∀ r ∈ Reference.all text, ∃ a, g.resolve r context = .ok a) :
    (∀ r, IsBare text.toList r → ∃ a, g.resolve (.ofList r) context = .ok a ∧ Name.IsProper a.variableName ∧
      g.compileValue (.text text) context = .ok ("var(" ++ a.variableName ++ ")")) ∧
    ((¬∃ r, IsBare text.toList r) → ∃ t, g.substitute text context = .ok t ∧
      g.compileValue (.text text) context = .ok ("calc(" ++ t ++ ")")) := by
  obtain ⟨f, hf⟩ : ∃ f : String → Address, ∀ r ∈ Reference.all text, g.resolve r context = .ok (f r) := by
    refine ⟨fun r => (g.resolve r context).toOption.getD ⟨.primitives, []⟩, fun r hr => ?_⟩
    obtain ⟨a, ha⟩ := hresolve r hr
    dsimp only
    rw [ha]
    rfl
  refine ⟨fun r hbare => ?_, compileValue_of_not_isBare hf hne⟩
  obtain ⟨hmem, hvalue⟩ := compileValue_of_isBare hf hbare
  exact ⟨_, hf _ hmem, Address.isProper_variableName _, hvalue⟩

/-- Tokens whose texts refer to the first one: alone, and next to another reference. -/
private def stackDocument : Json :=
  .object [
    ("primitives", .object [("scale", .object [("m", .object [("value", .text "4")])])]),
    ("semantic", .object [("gap", .object [("value", .text " {scale.m}\t")])]),
    ("component", .object [("stack", .object [("value", .text "{scale.m}{ gap }")])])]

private def stack : Graph := (Graph.ofJson stackDocument).toOption.get (by decide +kernel)

theorem compileValue_wraps_stack :
    Graph.ofJson stackDocument = .ok stack ∧
      stack.compileValue (.text " {scale.m}\t") "semantic.gap" = .ok "var(--scale-m)" ∧
      stack.compileValue (.text "{scale.m}{ gap }") "component.stack" =
        .ok "calc(var(--scale-m)var(--gap))" := by
  have hresolves : ∀ (s context : String),
      (∀ r ∈ Reference.all s, (stack.resolve r context).toOption.isSome = true) →
        ∀ r ∈ Reference.all s, ∃ a, stack.resolve r context = .ok a := fun _ _ h r hr => ⟨_, eq_ok_get (h r hr)⟩
  have hscale : IsReference "{scale.m}".toList := ⟨"scale.m".toList, by decide +kernel⟩
  have hbare : IsBare " {scale.m}\t".toList "{scale.m}".toList :=
    ⟨hscale, [' '], ['\t'], by decide +kernel, List.forall_mem_singleton.2 rfl, List.forall_mem_singleton.2 rfl⟩
  have hmixed : ¬∃ r, IsBare "{scale.m}{ gap }".toList r := by
    rintro ⟨r, hr, before, after, htext, hbefore, hafter⟩
    have hs : "{scale.m}{ gap }".toList = "{scale.m}".toList ++ "{ gap }".toList := by
      decide +kernel
    rw [hs] at htext
    cases before with
    | nil =>
        obtain ⟨_, rfl⟩ := hscale.append_inj hr htext
        exact absurd (hafter '{' (by decide +kernel)) (by decide)
    | cons c before =>
        cases (List.cons.inj htext).1
        exact absurd (hbefore '{' (List.mem_cons_self ..)) (by decide)
  obtain ⟨a, ha, _, hvalue⟩ := (compileValue_wraps stack (by decide +kernel)
    (hresolves _ "semantic.gap" (by decide +kernel))).1 _ hbare
  obtain ⟨t, ht, hwrapped⟩ := (compileValue_wraps stack (by decide +kernel)
    (hresolves _ "component.stack" (by decide +kernel))).2 hmixed
  have hlookup : stack.resolve (.ofList "{scale.m}".toList) "semantic.gap" =
      .ok ⟨.primitives, ["scale", "m"]⟩ := by
    decide +kernel
  have hsubstituted : stack.substitute "{scale.m}{ gap }" "component.stack" =
      .ok "var(--scale-m)var(--gap)" := by
    decide +kernel
  obtain rfl := Except.ok.inj (hlookup.symm.trans ha)
  obtain rfl := Except.ok.inj (hsubstituted.symm.trans ht)
  refine ⟨eq_ok_get _, hvalue.trans ?_, hwrapped.trans ?_⟩ <;> decide +kernel

end Graph

end DesignTokens
