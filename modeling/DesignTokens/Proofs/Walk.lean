import DesignTokens.Proofs.Components
import DesignTokens.Proofs.Growth

/-!
# The files below a path

What a path lists are the files at or below the location that it leads to, in the order of their locations, each under
the path and the names that lead to it.
-/

namespace DesignTokens.Disk

open DesignTokens.Path

variable {d e : Disk} {p q : Path} {loc base : Location} {item : Item} {bytes : ByteArray} {ns : List String}

/-! ## Paths that can be looked up -/

theorem accept_eq_ok_iff :
    accept p = .ok () ↔ '\x00' ∉ p.text.toList ∧ p.text.utf8ByteSize ≤ maxPathSize ∧ p.text ≠ "" := by
  rw [accept]
  split
  · next h => simp_all
  · next h =>
      split
      · next hsize => simp [Nat.not_le.2 hsize]
      · next hsize => split <;> simp_all

theorem accept_of_append {rest : String} (htext : p.text = q.text ++ rest) (hq : q.text ≠ "")
    (h : accept p = .ok ()) : accept q = .ok () := by
  obtain ⟨hzero, hsize, _⟩ := accept_eq_ok_iff.1 h
  rw [htext] at hzero hsize
  rw [String.utf8ByteSize_append] at hsize
  exact accept_eq_ok_iff.2 ⟨fun hmem => hzero (by simp [hmem]), by omega, hq⟩

theorem accept_of_join (hq : q.isAbsolute = false) (hp : p.text ≠ "") (h : accept (p.join q) = .ok ()) :
    accept p = .ok () := by
  obtain ⟨slash, htext⟩ := exists_text_join (p := p) hq
  exact accept_of_append (htext.trans (String.append_assoc ..)) hp h

/-! ## Items -/

theorem item?_top (d : Disk) : d.item? [] = some .directory := rfl

theorem mem_items_iff : (loc, item) ∈ d.items ↔ loc ≠ [] ∧ d.item? loc = some item := by
  constructor
  · intro h
    have hne := (d.closed _ h).1
    exact ⟨hne, by rw [item?, Item.at?, if_neg hne, Assoc.lookup_eq_some_of_mem d.sorted h]⟩
  · rintro ⟨hne, h⟩
    rw [item?, Item.at?, if_neg hne] at h
    exact Assoc.mem_of_lookup_eq_some h

theorem directory_dropLast (h : d.item? loc = some item) : d.item? loc.dropLast = some .directory := by
  by_cases hne : loc = []
  · rw [hne]
    rfl
  · exact (d.closed _ (mem_items_iff.2 ⟨hne, h⟩)).2

/-- What lies above an item is a directory. -/
theorem directory_above (hne : ns ≠ []) (h : d.item? (loc ++ ns) = some item) : d.item? loc = some .directory := by
  induction ns using List.reverseRecOn generalizing item with
  | nil => exact absurd rfl hne
  | append_singleton ns name ih =>
      have hdir := directory_dropLast h
      rw [← List.append_assoc, List.dropLast_concat] at hdir
      by_cases hns : ns = []
      · rwa [hns, List.append_nil] at hdir
      · exact ih hns hdir

theorem eq_of_prefix_of_file (hbase : d.item? base = some (.file bytes)) (hpre : base <+: loc)
    (h : d.item? loc = some item) : loc = base := by
  obtain ⟨ns, rfl⟩ := hpre
  by_cases hns : ns = []
  · rw [hns, List.append_nil]
  · rw [directory_above hns h] at hbase
    cases hbase

theorem lt_of_compare_eq_lt {a b : Location} (h : compare a b = .lt) : a < b := by
  induction a generalizing b with
  | nil =>
      cases b with
      | nil => cases h
      | cons c b => exact List.nil_lt_cons c b
  | cons c a ih =>
      cases b with
      | nil => cases h
      | cons c' b =>
          rw [List.compare_cons_cons, Ordering.then_eq_lt] at h
          rcases h with h | ⟨heq, h⟩
          · exact List.cons_lt_cons_iff.2 (.inl (compareOfLessAndEq_eq_lt.1 h))
          · exact List.cons_lt_cons_iff.2 (.inr ⟨Std.LawfulEqCmp.eq_of_compare heq, ih h⟩)

/-- All that lies on a disk is reached by names. -/
theorem isName_of_item? (h : d.item? loc = some item) : ∀ name ∈ loc, IsName name := fun _ hname =>
  d.named _ (mem_items_iff.2 ⟨List.ne_nil_of_mem hname, h⟩) _ hname

/-! ## Listing -/

/-- The files at or below a location, in the order of their locations. -/
def filesUnder (d : Disk) (base : Location) : List (Location × ByteArray) :=
  d.items.filterMap fun
    | (loc, .file bytes) => if base.isPrefixOf loc then some (loc, bytes) else none
    | (_, .directory) => none

theorem mem_filesUnder : (loc, bytes) ∈ d.filesUnder base ↔ base <+: loc ∧ d.item? loc = some (.file bytes) := by
  rw [filesUnder, List.mem_filterMap]
  constructor
  · rintro ⟨⟨there, item⟩, hmem, hitem⟩
    cases item with
    | directory => cases hitem
    | file found =>
        obtain ⟨hpre, heq⟩ := Option.ite_none_right_eq_some.1 hitem
        cases heq
        exact ⟨List.isPrefixOf_iff_prefix.1 hpre, (mem_items_iff.1 hmem).2⟩
  · rintro ⟨hpre, hitem⟩
    have hne : loc ≠ [] := by
      rintro rfl
      cases hitem
    exact ⟨_, mem_items_iff.2 ⟨hne, hitem⟩, if_pos (List.isPrefixOf_iff_prefix.2 hpre)⟩

theorem pairwise_filesUnder : (d.filesUnder base).Pairwise fun f g => f.1 < g.1 := by
  have hkey : ∀ {b : Location × Item} {f : Location × ByteArray}, (match b with
      | (loc, .file bytes) => if base.isPrefixOf loc then some (loc, bytes) else none
      | (_, .directory) => none) = some f → f.1 = b.1 := by
    rintro ⟨there, item⟩ f h
    cases item with
    | directory => cases h
    | file found =>
        obtain ⟨_, heq⟩ := Option.ite_none_right_eq_some.1 h
        cases heq
        rfl
  refine List.pairwise_filterMap.2 (d.sorted.imp fun {b c} hlt f hf g hg => ?_)
  rw [hkey hf, hkey hg]
  exact lt_of_compare_eq_lt hlt

theorem filesUnder_of_file (h : d.item? base = some (.file bytes)) : d.filesUnder base = [(base, bytes)] := by
  have hmem : (base, bytes) ∈ d.filesUnder base := mem_filesUnder.2 ⟨List.prefix_rfl, h⟩
  have hall : ∀ f ∈ d.filesUnder base, f.1 = base := fun f hf => by
    obtain ⟨hpre, hitem⟩ := mem_filesUnder.1 hf
    exact eq_of_prefix_of_file h hpre hitem
  have hpairs : (d.filesUnder base).Pairwise fun f g => f.1 < g.1 := pairwise_filesUnder
  match hfiles : d.filesUnder base with
  | [] =>
      rw [hfiles] at hmem
      cases hmem
  | [f] =>
      rw [hfiles] at hmem
      rw [List.mem_singleton.1 hmem]
  | f :: g :: files =>
      rw [hfiles] at hall hpairs
      have hlt := (List.pairwise_cons.1 hpairs).1 g (List.mem_cons_self ..)
      rw [hall f (List.mem_cons_self ..), hall g (by simp)] at hlt
      exact absurd hlt (List.lt_irrefl base)

/-- The path that a listing gives what lies at `loc`, if `p` leads to `base` above it. -/
def pathBelow (p : Path) (base loc : Location) : Path := p.descend (loc.drop base.length)

/-- Whether the directory of what lies at `loc` has a path that can be looked up. -/
def listsAt (p : Path) (base loc : Location) : Bool := (accept (p.descend (loc.drop base.length).dropLast)).isOk

/-- A path lists the files at or below the location that it leads to, as long as their directories have paths that can
be looked up. -/
theorem walk_eq (h : d.find p = .ok (base, item)) :
    d.walk p = ((d.filesUnder base).filter fun f => listsAt p base f.1).map fun f => (pathBelow p base f.1, f.2) := by
  rw [walk, h]
  cases item with
  | file bytes =>
      have hlists : listsAt p base base = true := by
        rw [listsAt, List.drop_length]
        exact congrArg Except.isOk (leads_of_find h).accepted
      have hown : pathBelow p base base = p := by
        rw [pathBelow, List.drop_length]
        rfl
      simp only [filesUnder_of_file (find_eq_ok h).2, List.filter_cons, List.filter_nil, hlists, if_true,
        List.map_singleton, hown]
  | directory =>
      rw [filesUnder, List.filter_filterMap, List.map_filterMap]
      refine List.filterMap_congr fun b _ => ?_
      obtain ⟨loc, below | _⟩ := b
      · by_cases hpre : base.isPrefixOf loc <;>
          by_cases hlists : (accept (p.descend (loc.drop base.length).dropLast)).isOk <;>
          simp [hpre, hlists, pathBelow, listsAt, Option.filter]
      · rfl

end DesignTokens.Disk
