import DesignTokens.Project.Build
import DesignTokens.Proofs.Roundtrip
import DesignTokens.Proofs.Steps

/-!
# Canonical texts

Values with the same canonical text are equal, and a document and its canonical text have the same digest and the same
stylesheets.
-/

namespace DesignTokens

namespace Json

theorem sortedItems_eq_map (items : List Json) : sortedItems items = items.map sorted := by
  induction items with
  | nil => rfl
  | cons j rest ih => rw [sortedItems, ih, List.map_cons]

theorem sortedMembers_eq_map (members : List (String × Json)) :
    sortedMembers members = members.map fun m => (m.1, sorted m.2) := by
  induction members with
  | nil => rfl
  | cons m rest ih => rw [sortedMembers, ih, List.map_cons]

/-- A value that is held is in order. -/
theorem Held.sorted_eq {depth : Nat} {j : Json} (h : Held depth j) : j.sorted = j := by
  induction h with
  | null | bool | integer | binary | text => rfl
  | @array depth items _ ih =>
      have hitems : items.map sorted = items := (List.map_congr_left (g := id) ih).trans (List.map_id items)
      rw [sorted, sortedItems_eq_map, hitems]
  | @object depth members hsorted _ ih =>
      have hmembers : (members.map fun m => (m.1, sorted m.2)) = members :=
        (List.map_congr_left (g := id) fun m hm => congrArg (Prod.mk m.1) (ih m hm)).trans (List.map_id members)
      rw [sorted, sortedMembers_eq_map, hmembers, Assoc.ofList_eq_self hsorted]

/-- The canonical text of a value that was read gives back the value. -/
theorem read_canonical {d : String} {j : Json} (h : read d = .ok j) (hi : j.isIntegral = true) :
    read j.canonical = .ok j := by
  have hvalue := value_compact (held_of_read h) hi (Nat.le_refl _) endsNumber_nil
  rw [List.append_nil] at hvalue
  have hend : peek [] = .ok (none, []) := rfl
  simp only [read, whole, canonical, (held_of_read h).sorted_eq, String.toList_ofList]
  rw [Reader.bind_of_ok hvalue, Reader.bind_of_ok hend]
  rfl

theorem canonical_inj {d e : String} {j k : Json} (hj : read d = .ok j) (hk : read e = .ok k)
    (hij : j.isIntegral = true) (hik : k.isIntegral = true) : j.canonical = k.canonical ↔ j = k := by
  refine ⟨fun h => ?_, fun h => h ▸ rfl⟩
  have hback := read_canonical hj hij
  rw [h, read_canonical hk hik] at hback
  exact (Except.ok.inj hback).symm

end Json

/-! ## Documents -/

theorem readDocument_canonical {d : String} {j : Json} (h : Json.read d = .ok j) (hi : j.isIntegral = true) :
    readDocument j.canonical = readDocument d := by
  rw [readDocument, readDocument, Json.read_canonical h hi, h]

/-- Canonical texts are a normal form of documents all of whose numbers are exact integers: two of them have the same
canonical text if and only if their values are alike, which means that they are equal. The canonical text is read back as
the value, is its own canonical text, and has the digest of the document and its stylesheets or its error. -/
theorem canonical_normalForm {d e : String} {j k : Json} (hj : Json.read d = .ok j) (hk : Json.read e = .ok k)
    (hij : j.isIntegral = true) (hik : k.isIntegral = true) :
    (j.canonical = k.canonical ↔ j.Alike k) ∧ (j.Alike k ↔ j = k) ∧
    Json.read j.canonical = .ok j ∧ (Json.read j.canonical).map Json.canonical = .ok j.canonical ∧
    (readDocument j.canonical).map documentDigest = (readDocument d).map documentDigest ∧
    ∀ (fileLabel : Layer → String) (sourceLabel : String),
      (do (← Graph.ofText j.canonical).compile fileLabel sourceLabel) =
        (do (← Graph.ofText d).compile fileLabel sourceLabel) := by
  have halike := Json.alike_iff_eq (Json.held_of_read hj) (Json.held_of_read hk)
  have hread := Json.read_canonical hj hij
  have hdocument := readDocument_canonical hj hij
  refine ⟨(Json.canonical_inj hj hk hij hik).trans halike.symm, halike, hread, ?_, ?_, fun fileLabel sourceLabel => ?_⟩
  · rw [hread, Except.map]
  · rw [hdocument]
  · rw [Graph.ofText, Graph.ofText, hdocument]

/-- A document with blanks, a key that is bound twice, and escapes. -/
private def looseText : String :=
  r#"{ "semantic": {}, "component": {"x": 1, "x": {"$value": -3}},
 "primitives": {"a": {"$value": "\u0041\n"}} }"#

/-- The same value with other keys first and other escapes. -/
private def denseText : String :=
  r#"{"primitives":{"a":{"$value":"A\u000a"}},"component":{"x":{"$value":-3}},"semantic":{}}"#

private def looseValue : Json := (Json.read looseText).toOption.get (by decide +kernel)

private def denseValue : Json := (Json.read denseText).toOption.get (by decide +kernel)

theorem canonical_normalForm_loose :
    Json.read looseText = .ok looseValue ∧ Json.read denseText = .ok denseValue ∧
    looseValue.isIntegral = true ∧ denseValue.isIntegral = true ∧
    looseValue.canonical ≠ looseText ∧ looseValue = denseValue ∧ Json.read looseValue.canonical = .ok looseValue ∧
    (readDocument looseValue.canonical).map documentDigest = (readDocument looseText).map documentDigest := by
  have hvalues : (looseValue.isIntegral = true ∧ denseValue.isIntegral = true) ∧
      looseValue.canonical ≠ looseText ∧ looseValue.canonical = denseValue.canonical := by decide +kernel
  obtain ⟨⟨hloose, hdense⟩, hne, htext⟩ := hvalues
  obtain ⟨hiff, heq, hread, _, hdigest, _⟩ := canonical_normalForm (eq_ok_get _) (eq_ok_get _) hloose hdense
  exact ⟨eq_ok_get _, eq_ok_get _, hloose, hdense, hne, heq.1 (hiff.1 htext), hread, hdigest⟩

end DesignTokens
