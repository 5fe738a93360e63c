import DesignTokens.Proofs.Blank
import DesignTokens.Proofs.Lookups
import DesignTokens.Proofs.Verdict

/-!
# Texts cut at their references

There is one way to cut a text at its references, each of which begins at the first place where one can. Substitution
puts a lookup into the place of each reference and leaves the text between them as it is.
-/

namespace DesignTokens

namespace Reference

/-! ## The form of references -/

/-- Braces around at least one character, none of which is a closing brace. -/
def IsReference (s : List Char) : Prop := ∃ inner, s = braced inner ∧ inner ≠ [] ∧ '}' ∉ inner

theorem read_eq_some_iff {s inner r : List Char} :
    read s = some (inner, r) ↔ s = braced inner ++ r ∧ inner ≠ [] ∧ '}' ∉ inner := by
  constructor
  · intro h
    refine ⟨(braced_append_of_read h).symm, ?_⟩
    unfold read at h
    split at h
    · next s =>
        split at h
        · next c inner' d rest ht hd =>
            cases h
            refine ⟨List.cons_ne_nil _ _, fun hm => ?_⟩
            rw [← ht] at hm
            simpa using List.mem_takeWhile_imp hm
        · cases h
    · cases h
  · rintro ⟨rfl, hne, hclose⟩
    obtain ⟨c, inner, rfl⟩ := List.exists_cons_of_ne_nil hne
    have hs : braced (c :: inner) ++ r = '{' :: (c :: inner ++ '}' :: r) := by simp [braced]
    rw [hs, read, Text.takeWhile_append_cons hclose, Text.dropWhile_append_cons hclose]

variable {q r a b s : List Char}

theorem read_eq_none_of_ne {c : Char} (hc : c ≠ '{') (s : List Char) : read (c :: s) = none := by
  unfold read
  split
  · next h => exact absurd (List.cons.inj h).1 hc
  · rfl

theorem IsReference.not_infix (h : IsReference r) (hs : '{' ∉ s) : ¬r <:+: s := by
  obtain ⟨_, rfl, _⟩ := h
  exact fun hr => hs (hr.mem (List.mem_cons_self ..))

theorem isReference_of_read {inner : List Char} (h : read s = some (inner, r)) : IsReference (braced inner) :=
  ⟨inner, rfl, (read_eq_some_iff.1 h).2⟩

theorem not_isReference_of_read (h : read s = none) (hs : s = q ++ r) : ¬IsReference q := by
  rintro ⟨inner, rfl, hinner⟩
  rw [read_eq_some_iff.2 ⟨hs, hinner⟩] at h
  cases h

/-- Where a reference begins, its end is fixed. -/
theorem IsReference.append_inj (hq : IsReference q) (hr : IsReference r) (h : q ++ a = r ++ b) : q = r ∧ a = b := by
  obtain ⟨inner, rfl, hinner⟩ := hq
  obtain ⟨inner', rfl, hinner'⟩ := hr
  have hread : read (braced inner ++ a) = some (inner, a) := read_eq_some_iff.2 ⟨rfl, hinner⟩
  rw [h, read_eq_some_iff.2 ⟨rfl, hinner'⟩] at hread
  cases hread
  exact ⟨rfl, rfl⟩

/-! ## Cuts -/

/-- A text in parts: gaps with references between them. -/
inductive Segments where
  | last (gap : List Char)
  | cut (gap reference : List Char) (rest : Segments)

namespace Segments

/-- The parts in one text. -/
def text : Segments → List Char
  | last u => u
  | cut u r rest => u ++ r ++ rest.text

/-- The text before, between and after the references. -/
def gaps : Segments → List (List Char)
  | last u => [u]
  | cut u _ rest => u :: rest.gaps

/-- The references in order. -/
def references : Segments → List (List Char)
  | last _ => []
  | cut _ r rest => r :: rest.references

/-- The parts in one text, with something else for each reference. -/
def replace (f : List Char → List Char) : Segments → List Char
  | last u => u
  | cut u r rest => u ++ f r ++ rest.replace f

/-- After the reference before it, no reference could begin earlier than the next one does. -/
def IsLeftmost : Segments → Prop
  | last _ => True
  | cut u r rest =>
    (∀ before q after, before ++ q ++ after = u ++ r ++ rest.text → IsReference q → u.length ≤ before.length) ∧
      rest.IsLeftmost

/-- The parts are those of the text: its leftmost references, and gaps without any. -/
structure Cuts (x : Segments) (s : List Char) : Prop where
  text_eq : x.text = s
  isReference : ∀ r ∈ x.references, IsReference r
  gaps_free : ∀ u ∈ x.gaps, ∀ r, IsReference r → ¬r <:+: u
  leftmost : x.IsLeftmost

theorem Cuts.rest {u : List Char} {x : Segments} (h : (cut u r x).Cuts s) : x.Cuts x.text :=
  ⟨rfl, (List.forall_mem_cons.1 h.isReference).2, (List.forall_mem_cons.1 h.gaps_free).2, h.leftmost.2⟩

theorem Cuts.unique {x y : Segments} (hx : x.Cuts s) (hy : y.Cuts s) : x = y := by
  induction x generalizing y s with
  | last u =>
      cases y with
      | last v => rw [show u = v from hx.text_eq.trans hy.text_eq.symm]
      | cut v r y =>
          have hr : IsReference r := hy.isReference r (List.mem_cons_self ..)
          refine absurd ⟨v, y.text, ?_⟩ (hx.gaps_free u (List.mem_singleton.2 rfl) r hr)
          exact hy.text_eq.trans hx.text_eq.symm
  | cut u q x ih =>
      have hq : IsReference q := hx.isReference q (List.mem_cons_self ..)
      cases y with
      | last v =>
          refine absurd ⟨u, x.text, ?_⟩ (hy.gaps_free v (List.mem_singleton.2 rfl) q hq)
          exact hx.text_eq.trans hy.text_eq.symm
      | cut v r y =>
          have hr : IsReference r := hy.isReference r (List.mem_cons_self ..)
          have htext : u ++ q ++ x.text = v ++ r ++ y.text := hx.text_eq.trans hy.text_eq.symm
          have hlength : u.length = v.length :=
            Nat.le_antisymm (hx.leftmost.1 v r y.text htext.symm hr) (hy.leftmost.1 u q x.text htext hq)
          rw [List.append_assoc, List.append_assoc] at htext
          obtain ⟨rfl, htail⟩ := List.append_inj htext hlength
          obtain ⟨rfl, hrest⟩ := hq.append_inj hr htail
          rw [ih hx.rest (hrest ▸ hy.rest)]

/-! ## The cuts of a scan -/

/-- Puts a character in front. -/
def push (c : Char) : Segments → Segments
  | last u => last (c :: u)
  | cut u r rest => cut (c :: u) r rest

/-- The parts that a scan finds. -/
def ofPieces : List (Text.Piece (List Char)) → Segments
  | [] => last []
  | .plain c :: ps => (ofPieces ps).push c
  | .hit inner :: ps => cut [] (braced inner) (ofPieces ps)

@[simp] theorem text_push (c : Char) (x : Segments) : (x.push c).text = c :: x.text := by cases x <;> rfl

@[simp] theorem references_push (c : Char) (x : Segments) : (x.push c).references = x.references := by cases x <;> rfl

@[simp] theorem replace_push (f : List Char → List Char) (c : Char) (x : Segments) :
    (x.push c).replace f = c :: x.replace f := by
  cases x <;> rfl

theorem references_ofPieces (ps : List (Text.Piece (List Char))) :
    (ofPieces ps).references = (ps.filterMap Text.Piece.hit?).map braced := by
  induction ps with
  | nil => rfl
  | cons p ps ih =>
      cases p with
      | plain c => rw [ofPieces, references_push, ih, List.filterMap_cons_none rfl]
      | hit inner =>
          rw [ofPieces, references, ih]
          rfl

/-- A character with which no reference begins belongs to the first gap. -/
theorem Cuts.push {x : Segments} {c : Char} (h : x.Cuts s) (hread : read (c :: s) = none) :
    (x.push c).Cuts (c :: s) := by
  have hfirst : ∀ {u t : List Char}, c :: s = c :: u ++ t → (∀ q, IsReference q → ¬q <:+: u) →
      ∀ q, IsReference q → ¬q <:+: c :: u := by
    intro u t hs hu q hq hqu
    rcases List.infix_cons_iff.1 hqu with ⟨v, hv⟩ | hqu
    · exact not_isReference_of_read hread (r := v ++ t) (by rw [hs, ← hv, List.append_assoc]) hq
    · exact hu q hq hqu
  refine ⟨by rw [text_push, h.text_eq], by rw [references_push]; exact h.isReference, ?_, ?_⟩
  · cases x with
    | last u =>
        refine List.forall_mem_singleton.2 (hfirst (t := []) ?_ (h.gaps_free u (List.mem_singleton.2 rfl)))
        rw [← h.text_eq, List.append_nil]
        rfl
    | cut u r x =>
        obtain ⟨hu, hgaps⟩ := List.forall_mem_cons.1 h.gaps_free
        refine List.forall_mem_cons.2 ⟨hfirst (t := r ++ x.text) ?_ hu, hgaps⟩
        rw [← h.text_eq, text, List.append_assoc]
        rfl
  · cases x with
    | last u => trivial
    | cut u r x =>
        refine ⟨fun before q after he hq => ?_, h.leftmost.2⟩
        have hs : before ++ q ++ after = c :: s := by
          rw [he, ← h.text_eq]
          rfl
        cases before with
        | nil => exact absurd hq (not_isReference_of_read hread hs.symm)
        | cons d before =>
            have htail : before ++ q ++ after = u ++ r ++ x.text := (List.cons.inj hs).2.trans h.text_eq.symm
            exact Nat.succ_le_succ (h.leftmost.1 before q after htail hq)

theorem cuts_ofPieces (s : List Char) : (ofPieces (pattern.pieces s)).Cuts s := by
  fun_induction pattern.pieces s with
  | case1 =>
      exact ⟨rfl, List.forall_mem_nil _, List.forall_mem_singleton.2 fun r hr => hr.not_infix List.not_mem_nil, trivial⟩
  | case2 c s inner rest h ih =>
      refine ⟨?_, List.forall_mem_cons.2 ⟨isReference_of_read h, ih.isReference⟩,
        List.forall_mem_cons.2 ⟨fun r hr => hr.not_infix List.not_mem_nil, ih.gaps_free⟩,
        fun _ _ _ _ _ => Nat.zero_le _, ih.leftmost⟩
      rw [ofPieces, text, ih.text_eq]
      exact braced_append_of_read h
  | case3 c s h ih => exact ih.push h

theorem Cuts.eq_ofPieces {x : Segments} (h : x.Cuts s) : x = ofPieces (pattern.pieces s) := h.unique (cuts_ofPieces s)

theorem Cuts.map_references {x : Segments} {text : String} (h : x.Cuts text.toList) :
    x.references.map String.ofList = Reference.all text := by
  rw [h.eq_ofPieces, references_ofPieces, List.map_map]
  rfl

end Segments

end Reference

namespace Graph

open Reference

variable {g : Graph} {context : String}

/-- If each reference means a token, the lookups of these tokens take their places. -/
theorem exists_parts {f : String → Address} {ps : List (Text.Piece (List Char))}
    (h : ∀ r ∈ (Segments.ofPieces ps).references, g.resolve (.ofList r) context = .ok (f (.ofList r))) :
    ∃ parts, List.Forall₂ (g.Replaces context) ps parts ∧
      parts.flatten = (Segments.ofPieces ps).replace fun r => (f (.ofList r)).lookup.toList := by
  induction ps with
  | nil => exact ⟨[], .nil, rfl⟩
  | cons p ps ih =>
      cases p with
      | plain c =>
          rw [Segments.ofPieces, Segments.references_push] at h
          obtain ⟨parts, hparts, hflatten⟩ := ih h
          refine ⟨[c] :: parts, .cons rfl hparts, ?_⟩
          rw [Segments.ofPieces, Segments.replace_push, ← hflatten]
          rfl
      | hit inner =>
          obtain ⟨hinner, hrest⟩ := List.forall_mem_cons.1 h
          obtain ⟨parts, hparts, hflatten⟩ := ih hrest
          refine ⟨_ :: parts, .cons ⟨_, hinner, rfl⟩ hparts, ?_⟩
          rw [List.flatten_cons, hflatten]
          rfl

theorem substitute_of_cuts {x : Segments} {text : String} (hx : x.Cuts text.toList) {f : String → Address}
    (hf : ∀ r ∈ Reference.all text, g.resolve r context = .ok (f r)) :
    g.substitute text context = .ok (.ofList (x.replace fun r => (f (.ofList r)).lookup.toList)) := by
  rw [← hx.map_references, List.forall_mem_map, hx.eq_ofPieces] at hf
  obtain ⟨parts, hparts, hflatten⟩ := exists_parts hf
  rw [hx.eq_ofPieces, ← hflatten]
  exact substitute_eq_ok_iff.2 ⟨parts, hparts, rfl⟩

/-- A text is cut at its references in one way. If all of them mean tokens, substitution puts the lookups of these in
their places and keeps the gaps; otherwise it fails with the first one that means none. It fails exactly for the texts
for which no edges can be given to the search for cycles. -/
theorem substitute_exact (g : Graph) (text context : String) :
    ∃ x : Segments, x.Cuts text.toList ∧ (∀ y : Segments, y.Cuts text.toList → y = x) ∧
      x.references.map String.ofList = Reference.all text ∧
      (∀ f : String → Address, (∀ r ∈ Reference.all text, g.resolve r context = .ok (f r)) →
        g.substitute text context = .ok (.ofList (x.replace fun r => (f (.ofList r)).lookup.toList))) ∧
      ((∃ t, g.substitute text context = .ok t) ↔ ∀ r ∈ Reference.all text, ∃ a, g.resolve r context = .ok a) ∧
      (∀ r, IsFirst (fun r => ¬∃ a, g.resolve r context = .ok a) (Reference.all text) r →
        g.substitute text context = .error (.unresolvedReference r context)) ∧
      ∀ e : Entry, e.leaf.value = .text text → e.address.path = context →
        ((∃ ts, g.targets e = .ok ts) ↔ ∃ t, g.substitute text context = .ok t) := by
  have hcuts := Segments.cuts_ofPieces text.toList
  refine ⟨_, hcuts, fun y hy => hy.unique hcuts, hcuts.map_references, fun f hf => substitute_of_cuts hcuts hf,
    exists_substitute_iff, fun r hr => ?_, fun e he hpath => ?_⟩
  · exact substitute_eq_error_iff.2 (mapM_resolve_eq_error_iff.2 ⟨r, hr, rfl⟩)
  · rw [targets, he, exists_substitute_iff, ← hpath]
    simp [exists_mapM_eq_ok_iff, map_eq_ok_iff]

example : Reference.all r"{{a}} {} {b}" = [r"{{a}", "{b}"] := by decide +kernel

end Graph

end DesignTokens
