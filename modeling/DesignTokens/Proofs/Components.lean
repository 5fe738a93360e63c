import DesignTokens.Proofs.Paths

/-!
# The components of paths

A path says where it starts and which names it leads through. Joining and descending put names behind these; a path that
is taken relative to another one keeps the names that follow, and leads to the same place when it is joined again.
-/

namespace DesignTokens

namespace Path

variable {p q base : Path} {ns parts rest : List String} {name : String}

/-- The parts that lead somewhere. -/
def names (p : Path) : List String := p.parts.filter fun part => !isVacuous part

/-- The component that tells where a path starts. -/
def Start.lead : Start → List String
  | .top => ["/"]
  | .point => ["."]
  | .joined => []

theorem filter_of_isVacuous (h : ∀ part ∈ parts, isVacuous part = true) :
    (parts.filter fun part => !isVacuous part) = [] :=
  List.filter_eq_nil_iff.2 fun part hpart => by simp [h part hpart]

theorem filter_body (p : Path) : (p.body.filter fun part => !isVacuous part) = p.names := by
  rcases parts_eq_or p with ⟨_, hbody⟩ | ⟨_, first, hfirst, hparts⟩
  · rw [names, hbody]
  · rw [names, hparts, List.filter_cons_of_neg (by simp [hfirst])]

theorem components_eq (p : Path) : p.components = p.start.lead ++ p.names := by
  rw [components, filter_body]
  cases p.start <;> rfl

/-! ## Paths of parts -/

theorem names_ofParts (hslash : ∀ part ∈ parts, '/' ∉ part.toList) :
    (ofParts parts).names = parts.filter fun part => !isVacuous part := by
  cases parts with
  | nil => rfl
  | cons part parts => rw [names, parts_ofParts (List.cons_ne_nil part parts) hslash]

theorem start_ofParts (hslash : ∀ part ∈ parts, '/' ∉ part.toList)
    (hhead : ∀ part ∈ parts.head?, isVacuous part = false) : (ofParts parts).start = .joined := by
  cases parts with
  | nil => rfl
  | cons part parts =>
      have hparts := parts_ofParts (List.cons_ne_nil part parts) hslash
      obtain ⟨hempty, hpoint⟩ : part ≠ "" ∧ part ≠ "." := by simpa [isVacuous] using hhead part rfl
      rw [start, isAbsolute_eq_false (by simpa [hparts] using hempty), hparts]
      simp [hpoint]

/-- A path that starts at whatever it is joined to starts with a name, if it has one. -/
theorem not_isVacuous_head? (hjoined : p.start = .joined) (hne : p.parts ≠ [""]) :
    ∀ part ∈ p.parts.head?, isVacuous part = false := by
  intro part hpart
  have habs : p.isAbsolute ≠ true := fun habs => by
    rw [start_eq_top_iff.2 habs] at hjoined
    cases hjoined
  have hempty : part ≠ "" := by
    rintro rfl
    exact (isAbsolute_or_parts_eq hpart).elim habs hne
  have hpoint : part ≠ "." := by
    rintro rfl
    rw [start, if_neg habs, if_pos (Option.mem_def.1 hpart)] at hjoined
    cases hjoined
  simp [isVacuous, hempty, hpoint]

theorem text_eq_of_components_eq_nil (h : p.components = []) : p.text = "" := by
  rw [components_eq, List.append_eq_nil_iff] at h
  obtain ⟨hlead, hnames⟩ := h
  have hjoined : p.start = .joined := by
    cases hstart : p.start <;> rw [hstart] at hlead <;> first | rfl | cases hlead
  obtain ⟨first, rest, hparts⟩ := List.exists_cons_of_ne_nil (parts_ne_nil p)
  have hfirst : isVacuous first = true := by
    rw [names, hparts, List.filter_eq_nil_iff] at hnames
    simpa using hnames first (List.mem_cons_self ..)
  by_cases hone : p.parts = [""]
  · exact text_eq_of_parts_eq hone
  · rw [not_isVacuous_head? hjoined hone first (by rw [hparts]; rfl)] at hfirst
    cases hfirst

/-! ## Joining -/

/-- The parts of a joined path, up to an empty part where the paths meet. -/
theorem parts_join (hp : p.text ≠ "") (hq : q.isAbsolute = false) :
    ∃ above, above ≠ [] ∧ (p.join q).parts = above ++ q.parts ∧ (p.parts = above ∨ p.parts = above ++ [""]) ∧
      (p.join q).isAbsolute = p.isAbsolute := by
  rcases join_eq (p := p) hq with ⟨rfl, _⟩ | ⟨s, rfl, h⟩ | ⟨_, h⟩
  · exact absurd rfl hp
  · refine ⟨parts ⟨s⟩, parts_ne_nil _, by rw [h, parts_slash], .inr ?_, ?_⟩
    · have hslash := parts_slash s ""
      rwa [String.append_empty] at hslash
    · rw [h, isAbsolute_append hp]
  · refine ⟨p.parts, parts_ne_nil p, by rw [h, parts_slash], .inl rfl, ?_⟩
    rw [h, String.append_assoc, isAbsolute_append hp]

theorem start_join (hp : p.text ≠ "") (hq : q.isAbsolute = false) : (p.join q).start = p.start := by
  obtain ⟨above, hne, hparts, hown, habs⟩ := parts_join hp hq
  have hhead : (p.join q).parts.head? = p.parts.head? := by
    obtain ⟨first, rest, rfl⟩ := List.exists_cons_of_ne_nil hne
    rcases hown with hown | hown <;> rw [hparts, hown] <;> rfl
  rw [start, start, habs, hhead]

theorem empty_join (hq : q.isAbsolute = false) : (Path.mk "").join q = q := by simp [join, hq]

theorem names_join (hq : q.isAbsolute = false) : (p.join q).names = p.names ++ q.names := by
  by_cases hp : p.text = ""
  · obtain rfl : p = ⟨""⟩ := congrArg Path.mk hp
    rw [empty_join hq]
    rfl
  · obtain ⟨above, _, hparts, hown, _⟩ := parts_join hp hq
    rw [names, names, names, hparts, List.filter_append]
    rcases hown with hown | hown
    · rw [hown]
    · rw [hown, List.filter_append, List.filter_cons_of_neg (by decide), List.filter_nil, List.append_nil]

theorem text_join_ne (hq : q.text ≠ "") : (p.join q).text ≠ "" := by
  rw [join]
  split
  · exact hq
  · split <;> simp [hq]

theorem exists_text_join (hq : q.isAbsolute = false) : ∃ slash, (p.join q).text = p.text ++ slash ++ q.text := by
  rw [join, hq, if_neg Bool.false_ne_true]
  split
  · exact ⟨"", by rw [String.append_empty]⟩
  · exact ⟨"/", rfl⟩

theorem IsName.text_ne (h : IsName name) : name ≠ "" := by
  rintro rfl
  cases h.not_vacuous

theorem IsName.not_isAbsolute (h : IsName name) : isAbsolute ⟨name⟩ = false := by
  refine isAbsolute_eq_false ?_
  rw [parts_of_noSlash h.no_slash]
  simpa using h.text_ne

theorem IsName.names_eq (h : IsName name) : Path.names ⟨name⟩ = [name] := by
  rw [Path.names, parts_of_noSlash h.no_slash, List.filter_cons_of_pos (by simp [h.not_vacuous])]
  rfl

theorem names_descend (h : ∀ name ∈ ns, IsName name) : (p.descend ns).names = p.names ++ ns := by
  induction ns generalizing p with
  | nil => exact (List.append_nil _).symm
  | cons name rest ih =>
      obtain ⟨hname, hrest⟩ := List.forall_mem_cons.1 h
      rw [descend, List.foldl_cons]
      change ((p.join ⟨name⟩).descend rest).names = _
      rw [ih hrest, names_join hname.not_isAbsolute, hname.names_eq, List.append_assoc, List.singleton_append]

theorem start_descend (hp : p.text ≠ "") (h : ∀ name ∈ ns, IsName name) : (p.descend ns).start = p.start := by
  induction ns generalizing p with
  | nil => rfl
  | cons name rest ih =>
      obtain ⟨hname, hrest⟩ := List.forall_mem_cons.1 h
      rw [descend, List.foldl_cons]
      change ((p.join ⟨name⟩).descend rest).start = _
      rw [ih (text_join_ne hname.text_ne) hrest, start_join hp hname.not_isAbsolute]

theorem text_descend_ne (hp : p.text ≠ "") (h : ∀ name ∈ ns, IsName name) : (p.descend ns).text ≠ "" := by
  induction ns generalizing p with
  | nil => exact hp
  | cons name rest ih =>
      obtain ⟨hname, hrest⟩ := List.forall_mem_cons.1 h
      exact ih (text_join_ne hname.text_ne) hrest

/-! ## Relative paths -/

theorem dropComponents_eq_some (h : dropComponents parts ns = some rest) :
    ∃ before, parts = before ++ rest ∧ (before.filter fun part => !isVacuous part) = ns := by
  induction ns generalizing parts with
  | nil =>
      rw [dropComponents] at h
      cases h
      exact ⟨[], rfl, rfl⟩
  | cons c ns ih =>
      rw [dropComponents] at h
      split at h
      · next part parts' hdrop =>
          split at h
          · next heq =>
              obtain ⟨before, rfl, hbefore⟩ := ih h
              have hpart : isVacuous part = false := by
                simpa [hdrop] using List.head?_dropWhile_not isVacuous parts
              have hblank : (parts.takeWhile isVacuous).filter (fun part => !isVacuous part) = [] :=
                filter_of_isVacuous fun part hpart => List.mem_takeWhile_imp hpart
              refine ⟨parts.takeWhile isVacuous ++ part :: before, ?_, ?_⟩
              · rw [List.append_assoc, List.cons_append, ← hdrop, List.takeWhile_append_dropWhile]
              · rw [List.filter_append, hblank, List.filter_cons_of_pos (by simp [hpart]), hbefore, heq]
                rfl
          · cases h
      · cases h

theorem exists_dropComponents (h : (parts.filter fun part => !isVacuous part) = ns ++ rest) :
    ∃ after, dropComponents parts ns = some after := by
  induction ns generalizing parts with
  | nil => exact ⟨parts, by rw [dropComponents]⟩
  | cons c ns ih =>
      have hsplit := List.takeWhile_append_dropWhile (p := isVacuous) (l := parts)
      have hblank : (parts.takeWhile isVacuous).filter (fun part => !isVacuous part) = [] :=
        filter_of_isVacuous fun part hpart => List.mem_takeWhile_imp hpart
      rw [← hsplit, List.filter_append, hblank, List.nil_append] at h
      rw [dropComponents]
      cases hdrop : parts.dropWhile isVacuous with
      | nil =>
          rw [hdrop] at h
          cases h
      | cons part parts' =>
          have hpart : isVacuous part = false := by
            simpa [hdrop] using List.head?_dropWhile_not isVacuous parts
          rw [hdrop, List.filter_cons_of_pos (by simp [hpart])] at h
          obtain ⟨rfl, hrest⟩ := List.cons.inj h
          simpa using ih hrest

/-- The parts that are left of a path, without those at its ends that lead nowhere. -/
def stripped (parts : List String) : List String := trimParts (parts.dropWhile isVacuous)

theorem stripped_eq (parts : List String) :
    ∃ before after, parts = before ++ stripped parts ++ after ∧ (∀ part ∈ before, isVacuous part = true) ∧
      ∀ part ∈ after, isVacuous part = true := by
  refine ⟨parts.takeWhile isVacuous, (parts.dropWhile isVacuous).rtakeWhile isVacuous, ?_,
    fun part hpart => List.mem_takeWhile_imp hpart, fun part hpart => List.mem_rtakeWhile_imp hpart⟩
  have htrim : stripped parts ++ (parts.dropWhile isVacuous).rtakeWhile isVacuous = parts.dropWhile isVacuous :=
    List.rdropWhile_append_rtakeWhile
  rw [List.append_assoc, htrim, List.takeWhile_append_dropWhile]

theorem head?_stripped (parts : List String) : ∀ part ∈ (stripped parts).head?, isVacuous part = false := by
  intro part hpart
  obtain ⟨rest, hstripped⟩ := List.head?_eq_some_iff.1 hpart
  obtain ⟨blanks, hblanks⟩ : stripped parts <+: parts.dropWhile isVacuous := List.rdropWhile_prefix isVacuous _
  have hhead := List.head?_dropWhile_not isVacuous parts
  rw [← hblanks, hstripped] at hhead
  simpa using hhead

theorem filter_stripped (parts : List String) :
    ((stripped parts).filter fun part => !isVacuous part) = parts.filter fun part => !isVacuous part := by
  obtain ⟨before, after, hparts, hbefore, hafter⟩ := stripped_eq parts
  conv_rhs => rw [hparts]
  rw [List.filter_append, List.filter_append, filter_of_isVacuous hbefore, filter_of_isVacuous hafter,
    List.nil_append, List.append_nil]

theorem mem_of_mem_stripped {parts : List String} {part : String} (h : part ∈ stripped parts) : part ∈ parts := by
  obtain ⟨before, after, hparts, _, _⟩ := stripped_eq parts
  rw [hparts]
  simp [h]

/-- A path of stripped parts names what they name, and starts where the path stands that it is joined to. -/
theorem names_start_ofParts_stripped {parts : List String} (hslash : ∀ part ∈ stripped parts, '/' ∉ part.toList) :
    (ofParts (stripped parts)).names = parts.filter (fun part => !isVacuous part) ∧
      (ofParts (stripped parts)).start = .joined :=
  ⟨(names_ofParts hslash).trans (filter_stripped parts), start_ofParts hslash (head?_stripped parts)⟩

/-- What a relative path is: the names that follow those of the base. -/
structure Follows (p base r : Path) : Prop where
  start_eq : p.start = base.start
  names_eq : p.names = base.names ++ r.names
  components_eq : r.components = r.names

theorem follows_of_relativeTo? (hbase : base.components ≠ []) {r : Path} (h : p.relativeTo? base = some r) :
    p.Follows base r := by
  rw [relativeTo?, if_neg hbase] at h
  split at h
  · next hstart =>
      obtain ⟨rest, hdrop, rfl⟩ := Option.map_eq_some_iff.1 h
      rw [filter_body] at hdrop
      obtain ⟨before, hbody, hbefore⟩ := dropComponents_eq_some hdrop
      have hslash : ∀ part ∈ stripped rest, '/' ∉ part.toList := fun part hpart =>
        notMem_of_mem_parts (mem_parts_of_mem_body (hbody ▸ List.mem_append_right _ (mem_of_mem_stripped hpart)))
      obtain ⟨hnames, hjoined⟩ := names_start_ofParts_stripped hslash
      refine ⟨hstart, ?_, ?_⟩
      · change p.names = base.names ++ (ofParts (stripped rest)).names
        rw [hnames, ← filter_body p, hbody, List.filter_append, hbefore]
      · change (ofParts (stripped rest)).components = _
        rw [Path.components_eq, hjoined]
        rfl
  · cases h

theorem exists_relativeTo? (hstart : p.start = base.start) (hnames : p.names = base.names ++ rest) :
    ∃ r, p.relativeTo? base = some r := by
  by_cases hbase : base.components = []
  · exact ⟨p, if_pos hbase⟩
  · rw [← filter_body p] at hnames
    obtain ⟨after, hafter⟩ := exists_dropComponents hnames
    exact ⟨_, by rw [relativeTo?, if_neg hbase, if_pos hstart, filter_body, hafter, Option.map_some]⟩

end Path

namespace Disk

open DesignTokens.Path

variable {home loc : Location} {p base : Path} {ns parts : List String}

/-! ## Locations -/

theorem foldl_step_filter (parts : List String) :
    (parts.filter fun part => !isVacuous part).foldl step loc = parts.foldl step loc := by
  induction parts generalizing loc with
  | nil => rfl
  | cons part parts ih =>
      cases hpart : isVacuous part with
      | true => rw [List.filter_cons_of_neg (by simp [hpart]), ih, List.foldl_cons, step_of_isVacuous hpart]
      | false => rw [List.filter_cons_of_pos (by simp [hpart]), List.foldl_cons, List.foldl_cons, ih]

theorem locate_eq_names (home : Location) (p : Path) : locate home p = p.names.foldl step (startOf home p.start) := by
  rw [locate_eq_body, ← filter_body, foldl_step_filter]

theorem locate_descend (h : ∀ name ∈ ns, IsName name) : locate home (p.descend ns) = locate home p ++ ns := by
  induction ns generalizing p with
  | nil => exact (List.append_nil _).symm
  | cons name rest ih =>
      obtain ⟨hname, hrest⟩ := List.forall_mem_cons.1 h
      rw [descend, List.foldl_cons]
      change locate home ((p.join ⟨name⟩).descend rest) = _
      rw [ih hrest, locate_join_name hname, List.append_assoc, List.singleton_append]

/-- A relative path that is joined to its base leads where the path led. -/
theorem locate_join_relativeTo? {r : Path} (h : p.relativeTo? base = some r) :
    locate home (base.join r) = locate home p := by
  by_cases hbase : base.components = []
  · rw [relativeTo?, if_pos hbase] at h
    cases h
    have htext := text_eq_of_components_eq_nil hbase
    rw [join]
    split
    · rfl
    · simp [htext]
  · have hfollows := follows_of_relativeTo? hbase h
    have hr : r.isAbsolute = false := by
      cases habs : r.isAbsolute with
      | false => rfl
      | true =>
          have hcomponents := hfollows.components_eq
          rw [Path.components_eq, start_eq_top_iff.2 habs] at hcomponents
          have hlength := congrArg List.length hcomponents
          simp [Start.lead] at hlength
    rw [locate_join hr, locate_eq_names home p, hfollows.names_eq, hfollows.start_eq, List.foldl_append,
      ← locate_eq_names, ← foldl_step_filter r.parts]
    rfl

end Disk

end DesignTokens
