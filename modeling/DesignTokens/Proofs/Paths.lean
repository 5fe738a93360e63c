import DesignTokens.Disk.Basic
import DesignTokens.Legacy.Prune
import DesignTokens.Proofs.Fields
import Mathlib.Data.List.DropRight

/-!
# The locations that paths name

A path names its location part by part. So the location of a joined path, and that of a path with another name in place
of its last one, follow from the location of the path that it is made from.
-/

namespace DesignTokens

namespace Path

variable {p q : Path}

/-! ## Parts -/

theorem parts_ne_nil (p : Path) : p.parts ≠ [] := by
  rw [parts, Text.fieldsOf, Ne, List.map_eq_nil_iff]
  exact Text.fields_ne_nil '/' p.text.toList

theorem notMem_of_mem_parts {part : String} (h : part ∈ p.parts) : '/' ∉ part.toList := by
  obtain ⟨f, hf, rfl⟩ := List.mem_map.1 h
  rw [String.toList_ofList]
  exact Text.notMem_of_mem_fields hf

theorem parts_slash (s t : String) : parts ⟨s ++ "/" ++ t⟩ = parts ⟨s⟩ ++ parts ⟨t⟩ := by
  simp [parts, Text.fieldsOf, Text.fields_append_sep]

theorem parts_ofParts {ps : List String} (hne : ps ≠ []) (h : ∀ part ∈ ps, '/' ∉ part.toList) :
    (ofParts ps).parts = ps := by
  have hjoin : Text.fields '/' (Text.join ['/'] (ps.map String.toList)) = ps.map String.toList :=
    Text.fields_join (by simpa using hne) (by simpa using h)
  simp [parts, ofParts, Text.joinWith, Text.fieldsOf, hjoin, Function.comp_def]

theorem isAbsolute_append {s : String} (hs : s ≠ "") (t : String) : isAbsolute ⟨s ++ t⟩ = isAbsolute ⟨s⟩ := by
  cases h : s.toList with
  | nil => exact absurd (String.toList_eq_nil_iff.1 h) hs
  | cons c cs => simp [isAbsolute, h]

/-- An empty part comes first in an absolute path and in the empty one. -/
theorem isAbsolute_or_parts_eq (h : p.parts.head? = some "") : p.isAbsolute = true ∨ p.parts = [""] := by
  cases hp : p.text.toList with
  | nil => exact .inr (by simp [parts, Text.fieldsOf, hp, Text.fields])
  | cons c s =>
      by_cases hc : c = '/'
      · exact .inl (by simp [isAbsolute, hp, hc])
      · obtain ⟨f, fs, hf⟩ := List.exists_cons_of_ne_nil (Text.fields_ne_nil '/' s)
        simp [parts, Text.fieldsOf, hp, Text.fields, hc, hf] at h

theorem text_eq_of_parts_eq (h : p.parts = [""]) : p.text = "" := by
  have htext := Text.joinWith_fieldsOf '/' p.text
  rwa [show Text.fieldsOf '/' p.text = [""] from h, eq_comm] at htext

theorem parts_of_isAbsolute (h : p.isAbsolute = true) : p.parts = "" :: p.parts.drop 1 := by
  cases hp : p.text.toList with
  | nil => simp [isAbsolute, hp] at h
  | cons c s =>
      have hc : c = '/' := by simpa [isAbsolute, hp] using h
      simp [parts, Text.fieldsOf, hp, Text.fields, hc]

theorem isAbsolute_eq_false (h : p.parts.head? ≠ some "") : p.isAbsolute = false := by
  cases habs : p.isAbsolute with
  | false => rfl
  | true =>
      rw [parts_of_isAbsolute habs] at h
      exact absurd rfl h

theorem join_eq (hq : q.isAbsolute = false) :
    p = ⟨""⟩ ∧ p.join q = q ∨ (∃ s, p = ⟨s ++ "/"⟩ ∧ p.join q = ⟨s ++ "/" ++ q.text⟩) ∨
      p.text ≠ "" ∧ p.join q = ⟨p.text ++ "/" ++ q.text⟩ := by
  by_cases hempty : p.text = ""
  · refine .inl ⟨congrArg Path.mk hempty, ?_⟩
    simp [join, hq, hempty]
  · by_cases hlast : p.text.toList.getLast? = some '/'
    · have htext : p.text = String.ofList p.text.toList.dropLast ++ "/" := by
        refine String.toList_inj.1 ?_
        simpa using (List.dropLast_append_getLast? '/' hlast).symm
      refine .inr (.inl ⟨_, congrArg Path.mk htext, ?_⟩)
      rw [← htext]
      simp [join, hq, hlast]
    · refine .inr (.inr ⟨hempty, ?_⟩)
      simp [join, hq, hempty, hlast]

/-! ## Names -/

theorem isAbsolute_of_isName (h : ∀ part ∈ p.parts, IsName part) : p.isAbsolute = false := by
  refine isAbsolute_eq_false fun hempty => ?_
  cases (h "" (List.mem_of_head? hempty)).not_vacuous

theorem parts_of_noSlash {name : String} (h : '/' ∉ name.toList) : parts ⟨name⟩ = [name] := by
  simp [parts, Text.fieldsOf, Text.fields_of_notMem h]

/-! ## Starts -/

theorem start_eq_top_iff : p.start = .top ↔ p.isAbsolute = true := by
  rw [start]
  split
  · next h => simp [h]
  · next h => split <;> simp [h]

/-- The part that tells the start of a path leads nowhere. -/
theorem parts_eq_or (p : Path) :
    p.start = .joined ∧ p.body = p.parts ∨
      p.start ≠ .joined ∧ ∃ first, isVacuous first = true ∧ p.parts = first :: p.body := by
  by_cases hjoined : p.start = .joined
  · exact .inl ⟨hjoined, if_pos hjoined⟩
  · refine .inr ⟨hjoined, ?_⟩
    rw [body, if_neg hjoined]
    by_cases habs : p.isAbsolute = true
    · exact ⟨"", rfl, parts_of_isAbsolute habs⟩
    · obtain ⟨first, rest, hparts⟩ := List.exists_cons_of_ne_nil (parts_ne_nil p)
      refine ⟨first, ?_, by rw [hparts, List.drop_one, List.tail_cons]⟩
      by_cases hfirst : first = "."
      · rw [hfirst]
        rfl
      · exact absurd (by simp [start, habs, hparts, hfirst]) hjoined

theorem mem_parts_of_mem_body {part : String} (h : part ∈ p.body) : part ∈ p.parts := by
  rcases parts_eq_or p with ⟨_, heq⟩ | ⟨_, _, _, hparts⟩
  · exact heq ▸ h
  · exact hparts ▸ List.mem_cons_of_mem _ h

end Path

namespace Disk

open DesignTokens.Path

variable {home loc : Location} {p q : Path} {parts : List String}

/-! ## Locations -/

theorem step_of_isVacuous {part : String} (h : isVacuous part = true) : step loc part = loc := if_pos h

theorem step_of_isName {part : String} (h : IsName part) : step loc part = loc ++ [part] := by
  rw [step, h.not_vacuous, if_neg Bool.false_ne_true, if_neg h.not_up]

theorem foldl_step_of_isVacuous (h : ∀ part ∈ parts, isVacuous part = true) : parts.foldl step loc = loc := by
  induction parts with
  | nil => rfl
  | cons part parts ih =>
      obtain ⟨hpart, hparts⟩ := List.forall_mem_cons.1 h
      rw [List.foldl_cons, step_of_isVacuous hpart, ih hparts]

theorem foldl_step_rdropWhile {blank : String → Bool} (h : ∀ part, blank part = true → isVacuous part = true)
    (parts : List String) : (parts.rdropWhile blank).foldl step loc = parts.foldl step loc := by
  have hblanks : ∀ part ∈ parts.rtakeWhile blank, isVacuous part = true := fun part hpart =>
    h part (List.mem_rtakeWhile_imp hpart)
  calc (parts.rdropWhile blank).foldl step loc
    _ = (parts.rdropWhile blank ++ parts.rtakeWhile blank).foldl step loc := by
      rw [List.foldl_append, foldl_step_of_isVacuous hblanks]
    _ = parts.foldl step loc := by rw [List.rdropWhile_append_rtakeWhile]

/-- What is joined to a path is found from where the path leads. -/
theorem locate_join (hq : q.isAbsolute = false) :
    locate home (p.join q) = q.parts.foldl step (locate home p) := by
  have hempty : locate home ⟨""⟩ = home := rfl
  rcases join_eq (p := p) hq with ⟨rfl, h⟩ | ⟨s, rfl, h⟩ | ⟨hp, h⟩
  · rw [h, hempty, locate, hq, if_neg Bool.false_ne_true]
  · have hs : s ++ "/" ≠ "" := by simp
    have hslash : parts ⟨s ++ "/"⟩ = parts ⟨s⟩ ++ [""] := by
      have hnil : Path.parts ⟨""⟩ = [""] := rfl
      rw [← hnil, ← parts_slash, String.append_empty]
    rw [h, locate, locate, isAbsolute_append hs, parts_slash, hslash, List.foldl_append, List.foldl_append]
    rfl
  · have hp' : p.text ++ "/" ≠ "" := by simp
    rw [h, locate, locate, isAbsolute_append hp', isAbsolute_append hp, parts_slash, List.foldl_append]

theorem foldl_step_of_isName (h : ∀ part ∈ parts, IsName part) : parts.foldl step loc = loc ++ parts := by
  induction parts generalizing loc with
  | nil => exact (List.append_nil loc).symm
  | cons part parts ih =>
      obtain ⟨hpart, hparts⟩ := List.forall_mem_cons.1 h
      rw [List.foldl_cons, step_of_isName hpart, ih hparts, List.append_assoc, List.singleton_append]

/-- A path of names leads down, name by name. -/
theorem locate_join_names (h : ∀ part ∈ q.parts, IsName part) :
    locate home (p.join q) = locate home p ++ q.parts := by
  rw [locate_join (isAbsolute_of_isName h), foldl_step_of_isName h]

theorem locate_join_name {name : String} (h : IsName name) :
    locate home (p.join ⟨name⟩) = locate home p ++ [name] := by
  have hparts : Path.parts ⟨name⟩ = [name] := parts_of_noSlash h.no_slash
  rw [locate_join_names (by rw [hparts]; exact List.forall_mem_singleton.2 h), hparts]

/-- The location that a start names. -/
def startOf (home : Location) (start : Start) : Location := if start = .top then [] else home

theorem locate_eq_body (home : Location) (p : Path) : locate home p = p.body.foldl step (startOf home p.start) := by
  have hstart : (if p.isAbsolute then [] else home) = startOf home p.start := by
    simp only [startOf, start_eq_top_iff]
  rw [locate, hstart]
  rcases parts_eq_or p with ⟨_, hbody⟩ | ⟨_, first, hfirst, hparts⟩
  · rw [hbody]
  · rw [hparts, List.foldl_cons, step_of_isVacuous hfirst]

end Disk

end DesignTokens
