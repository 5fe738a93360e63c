import DesignTokens.Proofs.Components

/-!
# The last names of paths

A path that gets another last name starts where it started and leads through the same names above. Parts at its end
that lead nowhere make no difference.
-/

namespace DesignTokens

namespace Path

variable {p q : Path} {ps above gap vac : List String} {last name new : String}

/-! ## Components -/

theorem mem_names_iff {part : String} : part ∈ p.names ↔ part ∈ p.parts ∧ isVacuous part = false := by
  simp [names]

/-- The components that tell a start are no names. -/
theorem ne_of_mem_names {part : String} (h : part ∈ p.names) : part ≠ "/" ∧ part ≠ "." := by
  obtain ⟨hparts, hvacuous⟩ := mem_names_iff.1 h
  constructor
  · rintro rfl
    exact notMem_of_mem_parts hparts (by simp)
  · rintro rfl
    cases hvacuous

theorem filter_components (p : Path) : (p.components.filter fun c => c == "/" || c == ".") = p.start.lead := by
  have hnames : (p.names.filter fun c => c == "/" || c == ".") = [] :=
    List.filter_eq_nil_iff.2 fun c hc => by simp [ne_of_mem_names hc]
  rw [components_eq, List.filter_append, hnames, List.append_nil]
  cases p.start <;> rfl

theorem Start.lead_inj {s t : Start} : s.lead = t.lead ↔ s = t := by
  cases s <;> cases t <;> simp [Start.lead]

theorem components_inj : p.components = q.components ↔ p.start = q.start ∧ p.names = q.names := by
  constructor
  · intro h
    have hstart : p.start = q.start := by rw [← Start.lead_inj, ← filter_components, ← filter_components, h]
    rw [components_eq, components_eq, hstart] at h
    exact ⟨hstart, List.append_cancel_left h⟩
  · rintro ⟨hstart, hnames⟩
    rw [components_eq, components_eq, hstart, hnames]

theorem fileName?_eq_some_iff : p.fileName? = some name ↔ p.names.getLast? = some name ∧ IsName name := by
  constructor
  · intro h
    obtain ⟨hlast, hname⟩ := Option.filter_eq_some_iff.1 h
    obtain ⟨⟨hslash, hpoint⟩, hup⟩ : (name ≠ "/" ∧ name ≠ ".") ∧ name ≠ ".." := by simpa using hname
    rw [components_eq, List.getLast?_append] at hlast
    cases hnames : p.names.getLast? with
    | none =>
        rw [hnames, Option.none_or] at hlast
        cases hstart : p.start <;> rw [hstart] at hlast <;> cases hlast
        · exact absurd rfl hslash
        · exact absurd rfl hpoint
    | some last =>
        rw [hnames] at hlast
        cases hlast
        obtain ⟨hparts, hvacuous⟩ := mem_names_iff.1 (List.mem_of_getLast? hnames)
        exact ⟨rfl, hvacuous, hup, notMem_of_mem_parts hparts⟩
  · rintro ⟨hlast, hname⟩
    have hcomponents : p.components.getLast? = some name := by
      rw [components_eq, List.getLast?_append, hlast]
      rfl
    simp [fileName?, hcomponents, ne_of_mem_names (List.mem_of_getLast? hlast), hname.not_up]

theorem names_eq_of_fileName? (h : p.fileName? = some name) : p.names = p.names.dropLast ++ [name] :=
  (List.dropLast_append_getLast? name (fileName?_eq_some_iff.1 h).1).symm

theorem components_eq_of_fileName? (h : p.fileName? = some name) : p.components = p.components.dropLast ++ [name] := by
  rw [components_eq, names_eq_of_fileName? h, ← List.append_assoc, List.dropLast_concat]

theorem fileName?_join (hq : q.isAbsolute = false) (h : q.fileName? = some name) :
    (p.join q).fileName? = some name := by
  obtain ⟨hlast, hname⟩ := fileName?_eq_some_iff.1 h
  refine fileName?_eq_some_iff.2 ⟨?_, hname⟩
  rw [names_join hq, List.getLast?_append, hlast]
  rfl

/-! ## Parents -/

variable {s : Start}

theorem names_ofStart (hslash : ∀ part ∈ ps, '/' ∉ part.toList) :
    (ofStart s ps).names = ps.filter fun part => !isVacuous part := by
  cases s with
  | top =>
      have hparts : parts ⟨"/" ++ (ofParts ps).text⟩ = "" :: (ofParts ps).parts := parts_slash "" _
      rw [ofStart, names, hparts, List.filter_cons_of_neg (by decide)]
      exact names_ofParts hslash
  | point =>
      have hpoint : ∀ part ∈ "." :: ps, '/' ∉ part.toList := List.forall_mem_cons.2 ⟨by simp, hslash⟩
      rw [ofStart, names_ofParts hpoint, List.filter_cons_of_neg (by decide)]
  | joined => exact names_ofParts hslash

theorem start_ofStart (hslash : ∀ part ∈ ps, '/' ∉ part.toList)
    (hhead : s = .joined → ∀ part ∈ ps.head?, isVacuous part = false) : (ofStart s ps).start = s := by
  cases s with
  | top => exact start_eq_top_iff.2 (by simp [ofStart, isAbsolute])
  | point =>
      have hparts : (ofParts ("." :: ps)).parts = "." :: ps :=
        parts_ofParts (List.cons_ne_nil "." ps) (List.forall_mem_cons.2 ⟨by simp, hslash⟩)
      rw [ofStart, start, isAbsolute_eq_false (by simp [hparts]), hparts]
      rfl
  | joined => exact start_ofParts hslash (hhead rfl)

/-- The body of a path is cut at its last part that leads somewhere: what stands above it is what stands above it in
the parent of the path. -/
structure EndsWith (p : Path) (above gap : List String) (last : String) (vac : List String) : Prop where
  body_eq : p.body = above ++ gap ++ last :: vac
  not_vacuous : isVacuous last = false
  gap_vacuous : ∀ part ∈ gap, isVacuous part = true
  vac_vacuous : ∀ part ∈ vac, isVacuous part = true
  head?_vacuous : p.start = .joined → ∀ part ∈ above.head?, isVacuous part = false
  parent?_eq : p.parent? = some (ofStart p.start above)

theorem exists_endsWith (h : trimParts p.body ≠ []) : ∃ above gap last vac, p.EndsWith above gap last vac := by
  obtain ⟨inner, last, hinner⟩ := (List.eq_nil_or_concat' (trimParts p.body)).resolve_left h
  have hlast : isVacuous last = false := by
    simpa [show p.body.rdropWhile isVacuous = inner ++ [last] from hinner]
      using List.rdropWhile_last_not isVacuous p.body h
  have hgap : trimParts inner ++ inner.rtakeWhile isVacuous = inner := List.rdropWhile_append_rtakeWhile
  have hbody : p.body = trimParts inner ++ inner.rtakeWhile isVacuous ++ last :: p.body.rtakeWhile isVacuous := by
    rw [hgap, List.append_cons, ← hinner]
    exact List.rdropWhile_append_rtakeWhile.symm
  refine ⟨trimParts inner, inner.rtakeWhile isVacuous, last, p.body.rtakeWhile isVacuous, hbody, hlast,
    fun part hpart => List.mem_rtakeWhile_imp hpart, fun part hpart => List.mem_rtakeWhile_imp hpart,
    fun hjoined part hpart => ?_, ?_⟩
  · have hparts : p.body = p.parts := if_pos hjoined
    refine not_isVacuous_head? hjoined (fun hempty => h (by rw [hparts, hempty]; rfl)) part ?_
    obtain ⟨rest, hrest⟩ := List.head?_eq_some_iff.1 hpart
    rw [← hparts, hbody, hrest]
    rfl
  · rw [parent?, hinner]
    obtain ⟨first, rest, hfirst⟩ := List.exists_cons_of_ne_nil (List.concat_ne_nil last inner)
    rw [hfirst]
    simp only [← hfirst, List.dropLast_concat]

theorem EndsWith.names_eq (h : p.EndsWith above gap last vac) :
    p.names = (above.filter fun part => !isVacuous part) ++ [last] := by
  rw [← filter_body, h.body_eq, List.filter_append, List.filter_append, filter_of_isVacuous h.gap_vacuous,
    List.filter_cons_of_pos (by simp [h.not_vacuous]), filter_of_isVacuous h.vac_vacuous, List.append_nil]

theorem EndsWith.slash_notMem (h : p.EndsWith above gap last vac) : ∀ part ∈ above, '/' ∉ part.toList :=
  fun part hpart => notMem_of_mem_parts (mem_parts_of_mem_body (p := p) (by simp [h.body_eq, hpart]))

/-- The parent of a path that has names starts where the path starts and has all of its names but the last. -/
theorem exists_parent? (h : p.names ≠ []) :
    ∃ q, p.parent? = some q ∧ q.start = p.start ∧ q.names = p.names.dropLast := by
  have hbody : trimParts p.body ≠ [] := by
    intro hnil
    refine h ?_
    rw [← filter_body]
    exact filter_of_isVacuous (List.rdropWhile_eq_nil_iff.1 hnil)
  obtain ⟨above, gap, last, vac, hends⟩ := exists_endsWith hbody
  refine ⟨_, hends.parent?_eq, start_ofStart hends.slash_notMem hends.head?_vacuous, ?_⟩
  rw [names_ofStart hends.slash_notMem, hends.names_eq, List.dropLast_concat]

/-! ## Other last names -/

theorem IsName.start_eq (h : IsName name) : start ⟨name⟩ = .joined := by
  have hmem : name ∈ Path.names ⟨name⟩ := by simp [h.names_eq]
  rw [start, h.not_isAbsolute, parts_of_noSlash h.no_slash]
  simp [ne_of_mem_names hmem]

theorem start_join_eq (hq : q.isAbsolute = false) :
    (p.join q).start = if p.text = "" then q.start else p.start := by
  split
  · next hp =>
      obtain rfl : p = ⟨""⟩ := congrArg Path.mk hp
      rw [empty_join hq]
  · next hp => exact start_join hp hq

theorem start_join_name (h : IsName name) : (p.join ⟨name⟩).start = p.start := by
  rw [start_join_eq h.not_isAbsolute, h.start_eq]
  split
  · next hp =>
      obtain rfl : p = ⟨""⟩ := congrArg Path.mk hp
      rfl
  · rfl

theorem withFileName_eq (h : p.fileName? = some name) (hnew : IsName new) :
    (p.withFileName new).start = p.start ∧ (p.withFileName new).names = p.names.dropLast ++ [new] := by
  obtain ⟨hlast, _⟩ := fileName?_eq_some_iff.1 h
  have hne : p.names ≠ [] := by
    intro hnil
    rw [hnil] at hlast
    cases hlast
  obtain ⟨q, hparent, hstart, hnames⟩ := exists_parent? hne
  have hjoin : p.withFileName new = q.join ⟨new⟩ := by simp [withFileName, h, hparent]
  rw [hjoin, start_join_name hnew, names_join hnew.not_isAbsolute, hnew.names_eq, hnames]
  exact ⟨hstart, rfl⟩

theorem components_withFileName (h : p.fileName? = some name) (hnew : IsName new) :
    (p.withFileName new).components = p.components.dropLast ++ [new] := by
  obtain ⟨hstart, hnames⟩ := withFileName_eq h hnew
  rw [components_eq, components_eq, hstart, hnames, names_eq_of_fileName? h, ← List.append_assoc,
    ← List.append_assoc, List.dropLast_concat, List.dropLast_concat]

theorem fileName?_withFileName (h : p.fileName? = some name) (hnew : IsName new) :
    (p.withFileName new).fileName? = some new := by
  refine fileName?_eq_some_iff.2 ⟨?_, hnew⟩
  rw [(withFileName_eq h hnew).2, List.getLast?_concat]

theorem isAbsolute_congr (h : p.start = q.start) : p.isAbsolute = q.isAbsolute := by
  rw [Bool.eq_iff_iff, ← start_eq_top_iff, ← start_eq_top_iff, h]

/-- Whether a path gets its new last name before or after it is joined, it says the same. -/
theorem components_join_withFileName (hp : p.isAbsolute = false) (h : p.fileName? = some name) (hnew : IsName new) :
    (q.join (p.withFileName new)).components = ((q.join p).withFileName new).components := by
  obtain ⟨hstart, hnames⟩ := withFileName_eq h hnew
  obtain ⟨hstart', hnames'⟩ := withFileName_eq (fileName?_join (p := q) hp h) hnew
  have habs : (p.withFileName new).isAbsolute = false := (isAbsolute_congr hstart).trans hp
  rw [components_inj, hstart', hnames', start_join_eq habs, start_join_eq hp, hstart, names_join habs, names_join hp,
    hnames]
  constructor
  · rfl
  · rw [names_eq_of_fileName? h, ← List.append_assoc, ← List.append_assoc, List.dropLast_concat, List.dropLast_concat]

end Path

namespace Disk

open DesignTokens.Path

variable {home : Location} {p q : Path} {name new : String}

/-! ## Locations -/

/-- What a path says decides which location it names. -/
theorem locate_congr (h : p.components = q.components) : locate home p = locate home q := by
  obtain ⟨hstart, hnames⟩ := components_inj.1 h
  rw [locate_eq_names, locate_eq_names, hstart, hnames]

theorem locate_eq_of_fileName? (h : p.fileName? = some name) :
    locate home p = p.names.dropLast.foldl step (startOf home p.start) ++ [name] := by
  rw [locate_eq_names, names_eq_of_fileName? h, List.foldl_append, List.foldl_cons, List.foldl_nil,
    step_of_isName (fileName?_eq_some_iff.1 h).2, List.dropLast_concat]

end Disk

end DesignTokens
