import DesignTokens.Proofs.Roundtrip
import DesignTokens.Proofs.Steps
import Mathlib.Data.List.Nodup

/-!
# Records in JSON

A record is read member by member. After each member the fields named so far have their values and the others are as
they were, in whatever order the members come. A member of no interest changes nothing, and a field is not set twice.
-/

namespace DesignTokens.Json

variable {α ρ : Type} {s t w rest : List Char}

/-! ## Texts and lists of texts -/

/-- A text in quotes, with any escapes. -/
inductive WritesText (v : String) : List Char → Prop where
  | mk {w : List Char} (h : Spells v.toList w) : WritesText v ('"' :: (w ++ ['"']))

/-- Texts in an array, with any blanks. -/
inductive WritesTexts (vs : List String) : List Char → Prop where
  | mk {blank : List Char} {parts : List Part} (hblank : Blanks blank)
      (h : List.Forall₂ (fun p v => p.Padded ∧ WritesText v p.core) parts vs) :
      WritesTexts vs (bracketed '[' blank parts ']')

theorem WritesText.begins {v : String} (h : WritesText v t) : Begins t := by
  cases h
  exact ⟨'"', _, rfl, by decide⟩

theorem skips_textItem (size : Nat) : Skips (textItem size) := skips_peek _

theorem skips_listItem (item : Nat → Reader α) (size : Nat) : Skips (listItem item size) := skips_peek _

theorem skips_recordItem (fields : List (Field ρ)) (r : ρ) (size : Nat) : Skips (recordItem fields r size) :=
  skips_peek _

theorem reads_textItem {v : String} (h : WritesText v t) (size : Nat) : Reads (textItem size) t v := by
  intro rest _
  obtain ⟨h⟩ := h
  rw [List.cons_append, List.append_assoc, textItem, Reader.bind_of_ok (peek_cons rfl _)]
  simp only [if_true]
  rw [Reader.bind_of_ok (advance_cons ..)]
  exact stringLexeme_append h rest

/-- A list is read if each item is. -/
theorem reads_listItem {item : Nat → Reader α} {f : String → α} {vs : List String} {size : Nat} (h : WritesTexts vs t)
    (hsize : t.length ≤ size) (hskip : Skips (item size)) (hitem : ∀ v t, WritesText v t → Reads (item size) t (f v)) :
    Reads (listItem item size) t (vs.map f) := by
  intro rest _
  obtain @⟨blank, parts, hblank, hparts⟩ := h
  have hall : List.Forall₂ (fun p a => p.Padded ∧ Reads (item size) p.core a) parts (vs.map f) :=
    List.forall₂_map_right_iff.2 (hparts.imp fun p v h => ⟨h.1, hitem v p.core h.2⟩)
  have hbegin : ∀ p ∈ parts, Begins p.core := fun p hp => by
    obtain ⟨v, _, _, hv⟩ := exists_of_forall₂ hparts hp
    exact hv.begins
  have hcount : parts.length ≤ size + 1 := by
    have := length_parts_le '[' ']' blank parts
    omega
  have hlist := listUntil_parts (.inl rfl) hskip hall hbegin hcount hblank rest
  rw [bracketed, List.cons_append, List.append_assoc, List.singleton_append, listItem,
    Reader.bind_of_ok (peek_cons rfl _)]
  simp only [if_true]
  rw [Reader.bind_of_ok (advance_cons ..)]
  exact hlist

/-! ## Members -/

/-- What the values of known keys may be: for each key the texts that are asked for. -/
abbrev Values := List (String × (List Char → Prop))

/-- A member with its key, whose value is as asked for if the key is known, and any value if it is not. -/
structure Fits (values : Values) (m : String × Member) : Prop where
  padded : m.2.Padded
  spells : Spells m.1.toList m.2.spelled
  known : ∀ v ∈ values, v.1 = m.1 → v.2 m.2.value
  unknown : m.1 ∉ values.map Prod.fst → IsValue m.2.value

/-- Members that fit, none of whose known keys is there twice. -/
structure Holds (values : Values) (ms : List (String × Member)) : Prop where
  fits : ∀ m ∈ ms, Fits values m
  once : ((ms.map Prod.fst).filter (· ∈ values.map Prod.fst)).Nodup

theorem Holds.of_cons {values : Values} {m : String × Member} {ms : List (String × Member)}
    (h : Holds values (m :: ms)) :
    Fits values m ∧ Holds values ms ∧ (m.1 ∈ values.map Prod.fst → m.1 ∉ ms.map Prod.fst) := by
  obtain ⟨hm, hms⟩ := List.forall_mem_cons.1 h.fits
  have honce := h.once
  rw [List.map_cons, List.filter_cons] at honce
  refine ⟨hm, ⟨hms, ?_⟩, fun hk hmem => ?_⟩
  · split at honce
    · exact honce.of_cons
    · exact honce
  · rw [if_pos (decide_eq_true hk), List.nodup_cons] at honce
    exact honce.1 (List.mem_filter.2 ⟨hmem, decide_eq_true hk⟩)

theorem Holds.of_concat {values : Values} {ms : List (String × Member)} {m : String × Member}
    (h : Holds values (ms ++ [m])) :
    Holds values ms ∧ Fits values m ∧ (m.1 ∈ values.map Prod.fst → m.1 ∉ ms.map Prod.fst) := by
  have honce := h.once
  rw [List.map_append, List.filter_append, List.nodup_append] at honce
  obtain ⟨hfirst, _, hdistinct⟩ := honce
  refine ⟨⟨fun m' hm' => h.fits m' (List.mem_append_left _ hm'), hfirst⟩, h.fits m (by simp), fun hk hmem => ?_⟩
  exact hdistinct m.1 (List.mem_filter.2 ⟨hmem, decide_eq_true hk⟩) m.1
    (List.mem_filter.2 ⟨by simp, decide_eq_true hk⟩) rfl

/-- Members, each with a comma behind it. -/
def listed (ms : List (String × Member)) : List Char := ms.flatMap fun m => m.2.part.text ++ [',']

/-- An object whose members hold the values asked for, and whose known keys are those among `names`. -/
inductive WritesRecord (values : Values) (names : List String) : List Char → Prop where
  | mk {blank : List Char} {ms : List (String × Member)} (hblank : Blanks blank) (hms : Holds values ms)
      (hnames : ∀ k ∈ values.map Prod.fst, k ∈ ms.map Prod.fst ↔ k ∈ names) :
      WritesRecord values names (bracketed '{' blank (ms.map fun m => m.2.part) '}')

/-- The field reads each text asked for into a record of which some fields have been set. -/
structure Field.Takes (f : Field ρ) (asked : List Char → Prop) (overlay : List String → ρ) (size : Nat) : Prop where
  skips : ∀ r, Skips (f.read size r)
  reads : ∀ seen t, asked t → t.length ≤ size → Reads (f.read size (overlay seen)) t (overlay (f.key :: seen))

/-- The fields are those of the values, and `overlay` tells what becomes of `r` when the fields of some keys are set. -/
structure Overlays (fields : List (Field ρ)) (values : Values) (r : ρ) (overlay : List String → ρ) (size : Nat) :
    Prop where
  nil : overlay [] = r
  takes : List.Forall₂ (fun f v => f.key = v.1 ∧ f.Takes v.2 overlay size) fields values
  congr : ∀ {names names' : List String}, (∀ k ∈ values.map Prod.fst, k ∈ names ↔ k ∈ names') →
    overlay names = overlay names'

section

variable {fields : List (Field ρ)} {values : Values} {overlay : List String → ρ} {size fuel : Nat}
  {names seen : List String} {m : String × Member} {ms : List (String × Member)} {k : String} {r : ρ}

theorem Overlays.find?_eq_none (h : Overlays fields values r overlay size) (hk : k ∉ values.map Prod.fst) :
    fields.find? (·.key == k) = none := by
  refine List.find?_eq_none.2 fun f hf hkey => hk ?_
  obtain ⟨v, hv, heq, _⟩ := exists_of_forall₂ h.takes hf
  exact List.mem_map.2 ⟨v, hv, by rw [← heq, beq_iff_eq.1 hkey]⟩

theorem Overlays.exists_find?_eq (h : Overlays fields values r overlay size) (hk : k ∈ values.map Prod.fst) :
    ∃ f, fields.find? (·.key == k) = some f ∧ f.key = k ∧ ∃ v ∈ values, v.1 = k ∧ f.Takes v.2 overlay size := by
  obtain ⟨v, hv, rfl⟩ := List.mem_map.1 hk
  obtain ⟨f, hf, hkey, _⟩ := exists_of_forall₂ h.takes.flip hv
  cases hfind : fields.find? (·.key == v.1) with
  | none => exact absurd (beq_iff_eq.2 hkey) (List.find?_eq_none.1 hfind f hf)
  | some g =>
      obtain ⟨w, hw, heq, htakes⟩ := exists_of_forall₂ h.takes (List.mem_of_find?_eq_some hfind)
      have hg : g.key = v.1 := by simpa using List.find?_some hfind
      exact ⟨g, rfl, hg, w, hw, heq.symm.trans hg, htakes⟩

theorem skips_recordMembers (size : Nat) (fields : List (Field ρ)) (fuel : Nat) (seen : List String) (r : ρ) :
    Skips (recordMembers size fields fuel seen r) := by
  cases fuel with
  | zero => exact fun _ _ _ => rfl
  | succ fuel => exact Skips.bind (skips_peek _) _

/-- What is read of a record after a member. -/
def recordRest (size : Nat) (fields : List (Field ρ)) (fuel : Nat) (seen : List String) (r : ρ) : Reader ρ := do
  match ← peek with
  | none => throw .unfinished
  | some c =>
    if c = '}' then do advance; return r
    else if c = ',' then do advance; recordMembers size fields fuel seen r
    else throw .malformed

/-- The value after the key of a member. -/
def recordValue (size : Nat) (fields : List (Field ρ)) (seen : List String) (r : ρ) (k : String) : Reader ρ :=
  match fields.find? (·.key == k) with
  | some f => if seen.contains k then throw .mismatched else do colon; f.read size r
  | none => do colon; skipValue (size + 1); pure r

theorem recordMembers_succ (size : Nat) (fields : List (Field ρ)) (fuel : Nat) (seen : List String) (r : ρ) :
    recordMembers size fields (fuel + 1) seen r =
      key >>= fun k => recordValue size fields seen r k >>= fun r => recordRest size fields fuel (k :: seen) r := by
  rw [recordMembers]
  refine congrArg (key >>= ·) (funext fun k => ?_)
  unfold recordValue
  cases fields.find? (·.key == k) with
  | none =>
      simp only [bind_assoc, pure_bind]
      rfl
  | some f =>
      cases hseen : seen.contains k with
      | true =>
          simp only [if_true]
          rfl
      | false =>
          simp only [Bool.false_eq_true, if_false, bind_assoc]
          rfl

/-! ## Step by step -/

theorem recordValue_append (hov : Overlays fields values r overlay size) (hm : Fits values m)
    (hfresh : m.1 ∈ values.map Prod.fst → m.1 ∉ seen) (hsize : m.2.value.length ≤ size) (hrest : EndsNumber rest) :
    recordValue size fields seen (overlay seen) m.1 (m.2.gap ++ ':' :: (m.2.pad ++ (m.2.value ++ rest))) =
      .ok (overlay (m.1 :: seen), rest) := by
  rw [recordValue]
  by_cases hk : m.1 ∈ values.map Prod.fst
  · obtain ⟨f, hfind, hkey, v, hv, hvkey, htakes⟩ := hov.exists_find?_eq hk
    have hseen : seen.contains m.1 = false := by simpa using hfresh hk
    rw [hfind]
    simp only [hseen, Bool.false_eq_true, if_false]
    rw [Reader.bind_of_ok (colon_append hm.padded.gap _), htakes.skips _ _ _ hm.padded.pad,
      htakes.reads seen _ (hm.known v hv hvkey) hsize rest hrest, hkey]
  · -- A key that is not known sets no field.
    have hsame : overlay (m.1 :: seen) = overlay seen := hov.congr fun k hin => by
      have hne : k ≠ m.1 := fun heq => hk (heq ▸ hin)
      simp [hne]
    have hskip := (skips_skipValue (size + 1) _ _ hm.padded.pad).trans
      (reads_skipValue (hm.unknown hk) (Nat.le_succ_of_le hsize) rest hrest)
    rw [hov.find?_eq_none hk, hsame]
    change (colon >>= fun _ => skipValue (size + 1) >>= fun _ => pure (overlay seen)) _ = _
    rw [Reader.bind_of_ok (colon_append hm.padded.gap _), Reader.bind_of_ok hskip]
    rfl

/-- One member is read, and what follows it is left. -/
theorem recordMembers_member (hov : Overlays fields values r overlay size) (hm : Fits values m)
    (hfresh : m.1 ∈ values.map Prod.fst → m.1 ∉ seen) (hsize : m.2.value.length ≤ size) (hs : EndsNumber s) :
    recordMembers size fields (fuel + 1) seen (overlay seen) (m.2.part.text ++ s) =
      recordRest size fields fuel (m.1 :: seen) (overlay (m.1 :: seen)) (m.2.tail ++ s) := by
  have htext : m.2.part.text ++ s = m.2.lead ++ '"' :: (m.2.spelled ++ '"' ::
      (m.2.gap ++ ':' :: (m.2.pad ++ (m.2.value ++ (m.2.tail ++ s))))) := by
    simp [Part.text, Member.part]
  rw [htext, skips_recordMembers _ _ _ _ _ _ _ hm.padded.lead, recordMembers_succ,
    Reader.bind_of_ok (key_append hm.spells _),
    Reader.bind_of_ok (recordValue_append hov hm hfresh hsize (endsNumber_append hm.padded.tail hs))]

theorem recordRest_comma {blank : List Char} (hblank : Blanks blank) (r : ρ) (s : List Char) :
    recordRest size fields fuel seen r (blank ++ ',' :: s) = recordMembers size fields fuel seen r s := by
  rw [recordRest, Reader.bind_of_ok (peek_append_cons hblank rfl s)]
  simp only [(by decide : ',' ≠ '}'), if_false, if_true]
  exact Reader.bind_of_ok (advance_cons ..)

theorem recordRest_brace {blank : List Char} (hblank : Blanks blank) (r : ρ) (s : List Char) :
    recordRest size fields fuel seen r (blank ++ '}' :: s) = .ok (r, s) := by
  rw [recordRest, Reader.bind_of_ok (peek_append_cons hblank rfl s)]
  simp only [if_true]
  rfl

/-- After some members the fields of their keys are set. -/
theorem recordMembers_listed (hov : Overlays fields values r overlay size) (hms : Holds values ms)
    (hfresh : ∀ m ∈ ms, m.1 ∈ values.map Prod.fst → m.1 ∉ seen) (hsize : (listed ms).length ≤ size) (s : List Char) :
    recordMembers size fields (fuel + ms.length) seen (overlay seen) (listed ms ++ s) =
      recordMembers size fields fuel ((ms.map Prod.fst).reverse ++ seen) (overlay ((ms.map Prod.fst).reverse ++ seen))
        s := by
  -- The keys read so far grow with each member, so the induction is for all of them.
  induction ms generalizing seen with
  | nil => rfl
  | cons m ms ih =>
      obtain ⟨hm, hms, hdistinct⟩ := hms.of_cons
      obtain ⟨hnew, hlater⟩ := List.forall_mem_cons.1 hfresh
      have hunseen : ∀ m' ∈ ms, m'.1 ∈ values.map Prod.fst → m'.1 ∉ m.1 :: seen := fun m' hm' hk hmem => by
        rcases List.mem_cons.1 hmem with heq | hmem
        · exact hdistinct (heq ▸ hk) (heq ▸ List.mem_map_of_mem hm')
        · exact hlater m' hm' hk hmem
      have htext : listed (m :: ms) ++ s = m.2.part.text ++ ',' :: (listed ms ++ s) := by simp [listed]
      have hvalue := m.2.length_value_lt
      have hlength : m.2.part.core.length + (listed ms).length ≤ size := by
        simp only [listed, List.flatMap_cons, List.length_append, Part.text] at hsize ⊢
        omega
      rw [htext, List.length_cons, ← Nat.add_assoc,
        recordMembers_member hov hm hnew (by omega) (endsNumber_comma _), recordRest_comma hm.padded.tail,
        ih hms hunseen (by omega)]
      simp

theorem length_le_length_listed (ms : List (String × Member)) : ms.length ≤ (listed ms).length := by
  induction ms with
  | nil => exact Nat.le_refl _
  | cons m ms ih =>
      simp only [listed, List.flatMap_cons, List.length_append, List.length_cons, List.length_nil] at ih ⊢
      omega

theorem exists_listed_append (ms : List (String × Member)) (hms : ∀ m ∈ ms, m.2.Padded) {lead : List Char}
    (hlead : Blanks lead) (s : List Char) :
    ∃ blank s', Blanks blank ∧ listed ms ++ (lead ++ '"' :: s) = blank ++ '"' :: s' := by
  cases ms with
  | nil => exact ⟨lead, s, hlead, rfl⟩
  | cons m ms =>
      exact ⟨m.2.lead, _, (hms m (List.mem_cons_self ..)).lead, by simp [listed, Part.text, Member.part]; rfl⟩

/-- The members of an object are read up to the key of a further one. -/
theorem recordItem_listed (hov : Overlays fields values r overlay size) (hms : Holds values ms) {blank lead : List Char}
    (hblank : Blanks blank) (hlead : Blanks lead) (hsize : (listed ms).length < size) (s : List Char) :
    ∃ fuel, recordItem fields r size ('{' :: (blank ++ (listed ms ++ (lead ++ '"' :: s)))) =
      recordMembers size fields (fuel + 1) (ms.map Prod.fst).reverse (overlay (ms.map Prod.fst).reverse)
        (lead ++ '"' :: s) := by
  obtain ⟨blank', s', hblank', htext⟩ := exists_listed_append ms (fun m hm => (hms.fits m hm).padded) hlead s
  have hcount := length_le_length_listed ms
  obtain ⟨fuel, hfuel⟩ : ∃ fuel, size + 1 = fuel + 1 + ms.length := ⟨size - ms.length, by omega⟩
  have hlisted : recordMembers size fields (fuel + 1 + ms.length) [] (overlay [])
      (listed ms ++ (lead ++ '"' :: s)) = _ :=
    recordMembers_listed hov hms (fun _ _ _ => List.not_mem_nil) (Nat.le_of_lt hsize) _
  rw [List.append_nil, hov.nil] at hlisted
  refine ⟨fuel, ?_⟩
  rw [recordItem, Reader.bind_of_ok (peek_cons rfl _)]
  simp only [if_true]
  rw [Reader.bind_of_ok (advance_cons ..), htext, ← List.append_assoc,
    Reader.bind_of_ok (peek_append_cons (List.forall_mem_append.2 ⟨hblank, hblank'⟩) rfl s')]
  simp only [(by decide : '"' ≠ '}'), if_false]
  rw [← skips_recordMembers _ _ _ _ _ blank' _ hblank', ← htext, hfuel, hlisted]

/-- A record is read with the fields of its keys set, in whatever order they come. -/
theorem reads_recordItem (hov : Overlays fields values r overlay size) (h : WritesRecord values names t)
    (hsize : t.length ≤ size) : Reads (recordItem fields r size) t (overlay names) := by
  intro rest hrest
  obtain @⟨blank, ms, hblank, hms, hnames⟩ := h
  rw [← hov.congr hnames]
  -- No comma follows the last member, so it is read apart from those before it.
  rcases List.eq_nil_or_concat' ms with rfl | ⟨init, last, rfl⟩
  · have htext : bracketed '{' blank [] '}' ++ rest = '{' :: (blank ++ '}' :: rest) := by
      simp [bracketed, Text.join]
    rw [List.map_nil, htext, recordItem, Reader.bind_of_ok (peek_cons rfl _)]
    simp only [if_true]
    rw [Reader.bind_of_ok (advance_cons ..), Reader.bind_of_ok (peek_append_cons hblank rfl rest), List.map_nil,
      hov.nil]
    simp only [if_true]
    rfl
  · have hjoin : Text.join [','] (((init ++ [last]).map fun m => m.2.part).map Part.text) =
        listed init ++ last.2.part.text := by
      rw [List.map_map, List.map_append, List.map_singleton, Text.join_concat, List.flatMap_map]
      rfl
    have htext : bracketed '{' blank ((init ++ [last]).map fun m => m.2.part) '}' ++ rest =
        '{' :: (blank ++ (listed init ++ (last.2.part.text ++ '}' :: rest))) := by
      rw [bracketed, hjoin]
      simp
    obtain ⟨hinit, hlast, hfresh⟩ := hms.of_concat
    have hlength := congrArg List.length hjoin
    have hvalue := last.2.length_value_lt
    simp only [bracketed, List.length_cons, List.length_append, List.length_nil, Part.text] at hsize hlength
    obtain ⟨s, hs⟩ := last.2.exists_text_append ('}' :: rest)
    obtain ⟨fuel, hrun⟩ := recordItem_listed hov hinit hblank hlast.padded.lead (by omega) s
    have hnew : last.1 ∈ values.map Prod.fst → last.1 ∉ (init.map Prod.fst).reverse := fun hk hmem =>
      hfresh hk (List.mem_reverse.1 hmem)
    have hsame : overlay (last.1 :: (init.map Prod.fst).reverse) = overlay ((init ++ [last]).map Prod.fst) :=
      hov.congr fun k _ => by simp [or_comm]
    rw [htext, hs, hrun, ← hs, recordMembers_member hov hlast hnew (by omega) (Closes.endsNumber (.inr rfl) rest),
      recordRest_brace hlast.padded.tail, hsame]

end

/-! ## Fields -/

namespace Field

variable {overlay : List String → ρ} {size : Nat} {key : String}

theorem takes_of {item : Nat → Reader α} {set : ρ → α → ρ} {v : α} {asked : List Char → Prop}
    (hskip : Skips (item size))
    (hreads : ∀ t, asked t → t.length ≤ size → Reads (item size) t v)
    (hset : ∀ seen, set (overlay seen) v = overlay (key :: seen)) :
    (Field.of key item set).Takes asked overlay size where
  skips r := hskip.map (set r)
  reads seen t ht hsize := hset seen ▸ (hreads t ht hsize).map (set (overlay seen))

theorem takes_text {set : ρ → String → ρ} {v : String} (hset : ∀ seen, set (overlay seen) v = overlay (key :: seen)) :
    (Field.of key textItem set).Takes (WritesText v) overlay size :=
  takes_of (skips_textItem size) (fun _ h _ => reads_textItem h size) hset

theorem takes_texts {set : ρ → List String → ρ} {vs : List String}
    (hset : ∀ seen, set (overlay seen) vs = overlay (key :: seen)) :
    (Field.of key (listItem textItem) set).Takes (WritesTexts vs) overlay size := by
  refine takes_of (skips_listItem textItem size) (fun t h hsize => ?_) hset
  have hlist := reads_listItem (f := id) h hsize (skips_textItem size) fun v t hv => reads_textItem hv size
  rwa [List.map_id] at hlist

theorem takes_record {σ : Type} {set : ρ → σ → ρ} {fields : List (Field σ)} {values : Values}
    {overlay' : List String → σ} {r : σ} {names : List String} (hov : Overlays fields values r overlay' size)
    (hset : ∀ seen, set (overlay seen) (overlay' names) = overlay (key :: seen)) :
    (Field.of key (recordItem fields r) set).Takes (WritesRecord values names) overlay size :=
  takes_of (skips_recordItem fields r size) (fun _ h hsize => reads_recordItem hov h hsize) hset

end Field

/-! ## What is refused -/

/-- The reader refuses all texts that begin so. -/
def Refuses (item : Reader α) (t : List Char) (flaw : Flaw) : Prop := ∀ rest, item (t ++ rest) = .error flaw

theorem Reader.bind_of_error {β : Type} {x : Reader α} {f : α → Reader β} {flaw : Flaw} (h : x s = .error flaw) :
    (x >>= f) s = .error flaw := by
  simp only [bind, StateT.bind, Except.bind, h]

theorem Refuses.map {β : Type} {item : Reader α} {flaw : Flaw} (h : Refuses item t flaw) (f : α → β) :
    Refuses (item.map f) t flaw := fun rest => by
  rw [StateT.map, h rest]
  rfl

/-- An object up to the key of a further member, after members that hold the values asked for. -/
inductive Opens (values : Values) (ms : List (String × Member)) (k : String) : List Char → Prop where
  | mk (blank lead spelled : List Char) (hblank : Blanks blank) (hms : Holds values ms) (hlead : Blanks lead)
      (hspells : Spells k.toList spelled) :
      Opens values ms k ('{' :: (blank ++ (listed ms ++ (lead ++ '"' :: (spelled ++ ['"'])))))

/-- The beginning of an object that names a known key again. -/
inductive Repeats (values : Values) : List Char → Prop where
  | mk {ms : List (String × Member)} {k : String} {t : List Char} (h : Opens values ms k t)
      (hk : k ∈ values.map Prod.fst) (hagain : k ∈ ms.map Prod.fst) : Repeats values t

/-- The beginning of an object up to the value of a key that is named for the first time. -/
inductive Enters (values : Values) (k : String) (u : List Char) : List Char → Prop where
  | mk {ms : List (String × Member)} {t : List Char} (gap pad : List Char) (h : Opens values ms k t)
      (hnew : k ∉ ms.map Prod.fst) (hgap : Blanks gap) (hpad : Blanks pad) :
      Enters values k u (t ++ (gap ++ ':' :: (pad ++ u)))

theorem Enters.length_le {values : Values} {k : String} {u : List Char} (h : Enters values k u t) :
    u.length ≤ t.length := by
  cases h
  simp only [List.length_append, List.length_cons]
  omega

section

variable {fields : List (Field ρ)} {values : Values} {overlay : List String → ρ} {size : Nat} {flaw : Flaw}
  {ms : List (String × Member)} {k : String} {r : ρ}

theorem recordItem_opens (hov : Overlays fields values r overlay size) (h : Opens values ms k t)
    (hsize : t.length ≤ size) (s : List Char) : ∃ fuel, recordItem fields r size (t ++ s) =
      (recordValue size fields (ms.map Prod.fst).reverse (overlay (ms.map Prod.fst).reverse) k >>= fun r =>
        recordRest size fields fuel (k :: (ms.map Prod.fst).reverse) r) s := by
  obtain ⟨blank, lead, spelled, hblank, hms, hlead, hspells⟩ := h
  simp only [List.length_cons, List.length_append] at hsize
  obtain ⟨fuel, hrun⟩ := recordItem_listed hov hms hblank hlead (by omega) (spelled ++ '"' :: s)
  have htext : '{' :: (blank ++ (listed ms ++ (lead ++ '"' :: (spelled ++ ['"'])))) ++ s =
      '{' :: (blank ++ (listed ms ++ (lead ++ '"' :: (spelled ++ '"' :: s)))) := by
    simp
  exact ⟨fuel, by rw [htext, hrun, skips_recordMembers _ _ _ _ _ _ _ hlead, recordMembers_succ,
    Reader.bind_of_ok (key_append hspells s)]⟩

/-- A known key may not come twice, whatever follows. -/
theorem refuses_repeats (hov : Overlays fields values r overlay size) (h : Repeats values t) (hsize : t.length ≤ size) :
    Refuses (recordItem fields r size) t .mismatched := by
  intro rest
  obtain ⟨hopens, hk, hagain⟩ := h
  obtain ⟨fuel, hrun⟩ := recordItem_opens hov hopens hsize rest
  obtain ⟨f, hfind, _⟩ := hov.exists_find?_eq hk
  rw [hrun]
  refine Reader.bind_of_error ?_
  rw [recordValue, hfind]
  simp only [List.contains_reverse, List.contains_iff_mem, hagain, if_true]
  rfl

/-- An object is refused if the value of one of its fields is. -/
theorem refuses_enters (hov : Overlays fields values r overlay size) {item : Nat → Reader α} {set : ρ → α → ρ}
    {u : List Char} (hfind : fields.find? (·.key == k) = some (.of k item set)) (hu : Refuses (item size) u flaw)
    (h : Enters values k u t) (hsize : t.length ≤ size) : Refuses (recordItem fields r size) t flaw := by
  intro rest
  obtain @⟨ms, t, gap, pad, hopens, hnew, hgap, hpad⟩ := h
  simp only [List.length_append] at hsize
  obtain ⟨fuel, hrun⟩ := recordItem_opens hov hopens (by omega) (gap ++ ':' :: (pad ++ (u ++ rest)))
  obtain ⟨v, _, _, htakes⟩ := exists_of_forall₂ hov.takes (List.mem_of_find?_eq_some hfind)
  have htext : t ++ (gap ++ ':' :: (pad ++ u)) ++ rest = t ++ (gap ++ ':' :: (pad ++ (u ++ rest))) := by simp
  rw [htext, hrun]
  refine Reader.bind_of_error ?_
  rw [recordValue, hfind]
  simp only [List.contains_reverse, List.contains_iff_mem, hnew, if_false]
  rw [Reader.bind_of_ok (colon_append hgap _), htakes.skips _ _ _ hpad]
  exact hu.map _ rest

end

/-! ## Whole texts -/

section

variable {item : Nat → Reader α} {lead tail : List Char} {a : α} {flaw : Flaw}

theorem whole_of_reads (hskip : ∀ size, Skips (item size)) (hlead : Blanks lead) (htail : Blanks tail)
    (h : ∀ size, t.length ≤ size → Reads (item size) t a) :
    whole item (String.ofList (lead ++ (t ++ tail))) = .ok a := by
  have hread := h (lead ++ (t ++ tail)).length (by simp only [List.length_append]; omega) tail
    (by simpa using endsNumber_append htail endsNumber_nil)
  have hend : peek tail = .ok (none, []) := (congrArg peek (List.append_nil tail).symm).trans (peek_append htail [])
  simp only [whole, String.toList_ofList]
  rw [Reader.bind_of_ok ((hskip _ _ _ hlead).trans hread), Reader.bind_of_ok hend]
  rfl

theorem whole_of_refuses (hskip : ∀ size, Skips (item size)) (hlead : Blanks lead)
    (h : ∀ size, t.length ≤ size → Refuses (item size) t flaw) :
    whole item (String.ofList (lead ++ (t ++ rest))) = .error flaw := by
  have hrefused := h (lead ++ (t ++ rest)).length (by simp only [List.length_append]; omega) rest
  simp only [whole, String.toList_ofList]
  rw [Reader.bind_of_error ((hskip _ _ _ hlead).trans hrefused)]

end

/-! ## Texts without blanks -/

theorem bracketed_bare (opening closing : Char) (cores : List (List Char)) :
    bracketed opening [] (cores.map Part.bare) closing = opening :: Text.join [','] cores ++ [closing] := by
  have htext : (cores.map Part.bare).map Part.text = cores := by
    rw [List.map_map]
    exact (List.map_congr_left fun core _ => Part.text_bare core).trans (List.map_id cores)
  rw [bracketed, htext]
  rfl

theorem writesText_quote (v : String) : WritesText v (quote v) := .mk (spells_flatMap v.toList)

theorem writesTexts_compact (vs : List String) : WritesTexts vs (compact (.array (vs.map .text))) := by
  have hcores : vs.map (compact ∘ text) = vs.map quote := List.map_congr_left fun _ _ => rfl
  rw [compact_array, List.map_map, hcores, ← bracketed_bare]
  refine .mk blanks_nil (List.forall₂_map_left_iff.2 (List.forall₂_map_left_iff.2 ?_))
  exact List.forall₂_same.2 fun v _ => ⟨Part.padded_bare _, writesText_quote v⟩

/-- A member as it is written without blanks. -/
def Member.bare (m : String × Json) : String × Member :=
  (m.1, ⟨[], m.1.toList.flatMap escapeChar, [], [], compact m.2, []⟩)

theorem compact_object_bare (members : List (String × Json)) :
    compact (.object members) = bracketed '{' [] ((members.map Member.bare).map fun m => m.2.part) '}' := by
  have hpart : ∀ m, (Member.bare m).2.part = Part.bare (memberText m) := fun m => by
    simp [Member.part, Member.bare, Part.bare, memberText, quote]
  rw [compact_object, ← bracketed_bare, List.map_map, List.map_map]
  exact congrArg (bracketed _ _ · _) (List.map_congr_left fun m _ => (hpart m).symm)

/-- The members with these names. -/
def picked (names : List String) (members : List (String × Json)) : List (String × Json) :=
  members.filter fun m => m.1 ∈ names

/-- An object with the members of these names. -/
def pick (names : List String) : Json → Json
  | object members => .object (picked names members)
  | j => j

theorem keys_picked (names : List String) (members : List (String × Json)) :
    ((picked names members).map Member.bare).map Prod.fst = (members.map Prod.fst).filter (· ∈ names) := by
  rw [List.map_map, List.filter_map]
  rfl

section

variable {members : List (String × Json)} {values : Values}

theorem fits_bare (h : List.Forall₂ (fun m v => m.1 = v.1 ∧ v.2 (compact m.2)) members values)
    (hkeys : (values.map Prod.fst).Nodup) {m : String × Json} (hm : m ∈ members) : Fits values (Member.bare m) := by
  obtain ⟨v, hv, hkey, hvalue⟩ := exists_of_forall₂ h hm
  refine ⟨⟨blanks_nil, blanks_nil, blanks_nil, blanks_nil⟩, spells_flatMap _, fun v' hv' hkey' => ?_, fun hnot => ?_⟩
  · obtain rfl := List.inj_on_of_nodup_map hkeys hv' hv (hkey'.trans hkey)
    exact hvalue
  · exact absurd (List.mem_map.2 ⟨v, hv, hkey.symm⟩) hnot

/-- An object with some of the members holds their values, if the object with all of them would. -/
theorem writesRecord_pick (h : List.Forall₂ (fun m v => m.1 = v.1 ∧ v.2 (compact m.2)) members values)
    (hkeys : (values.map Prod.fst).Nodup) (names : List String) :
    WritesRecord values names (pick names (.object members)).compact := by
  have hsame : members.map Prod.fst = values.map Prod.fst :=
    List.forall₂_eq_eq_eq ▸ List.forall₂_map_left_iff.2 (List.forall₂_map_right_iff.2 (h.imp fun _ _ h => h.1))
  have hpicked := keys_picked names members
  rw [hsame] at hpicked
  rw [pick, compact_object_bare]
  refine .mk blanks_nil ⟨List.forall_mem_map.2 fun m hm => ?_, ?_⟩ fun k hk => ?_
  · exact fits_bare h hkeys (List.mem_of_mem_filter hm)
  · rw [hpicked]
    exact (hkeys.filter _).filter _
  · rw [hpicked, List.mem_filter, decide_eq_true_eq, and_iff_right hk]

end

end DesignTokens.Json
