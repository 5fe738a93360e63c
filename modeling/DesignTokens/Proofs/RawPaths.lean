import DesignTokens.Proofs.LastNames
import DesignTokens.Proofs.Utf8
import DesignTokens.RawPath

/-!
# Paths in other spellings

Only slashes and points mean anything in a path. So a path may be written with other texts for the other characters, and
whatever is made from it is made in the same way. From this it follows that paths of bytes are taken apart and put
together like the texts that spell them, and that the bytes of a text make no difference to a path.
-/

namespace DesignTokens

/-- Characters that mean something in a path. -/
def Path.isSign (c : Char) : Bool := c == '/' || c == '.'

/-- Texts for characters, of which signs stand for themselves and occur for no other character. -/
structure Spelling where
  /-- The text for a character. -/
  write : Char → List Char
  ne_nil : ∀ c, write c ≠ []
  write_sign : ∀ c, Path.isSign c = true → write c = [c]
  eq_of_mem : ∀ c d, Path.isSign d = true → d ∈ write c → c = d

namespace Spelling

open DesignTokens.Path

variable (e : Spelling) {s t : String} {ps : List String} {p q : Path} {c d : Char}

/-- A text in the spelling. -/
def text (s : String) : String := .ofList (s.toList.flatMap e.write)

/-- A path in the spelling. -/
def path (p : Path) : Path := ⟨e.text p.text⟩

/-! ## Texts -/

theorem toList_text (s : String) : (e.text s).toList = s.toList.flatMap e.write := by rw [text, String.toList_ofList]

theorem text_append (s t : String) : e.text (s ++ t) = e.text s ++ e.text t := by
  refine String.toList_inj.1 ?_
  simp [toList_text]

theorem head?_write (hd : isSign d = true) : (e.write c).head? = some d ↔ c = d := by
  constructor
  · exact fun h => e.eq_of_mem c d hd (List.mem_of_head? h)
  · rintro rfl
    rw [e.write_sign c hd]
    rfl

theorem getLast?_write (hd : isSign d = true) : (e.write c).getLast? = some d ↔ c = d := by
  constructor
  · exact fun h => e.eq_of_mem c d hd (List.mem_of_getLast? h)
  · rintro rfl
    rw [e.write_sign c hd]
    rfl

theorem write_append_eq_cons_iff (hd : isSign d = true) {rest ds : List Char} :
    e.write c ++ rest = d :: ds ↔ c = d ∧ rest = ds := by
  constructor
  · intro h
    have hc : c = d := by
      rw [← e.head?_write hd, ← List.head?_append_of_ne_nil _ (e.ne_nil c), h]
      rfl
    subst hc
    rw [e.write_sign c hd, List.singleton_append, List.cons.injEq] at h
    exact ⟨rfl, h.2⟩
  · rintro ⟨rfl, rfl⟩
    rw [e.write_sign c hd, List.singleton_append]

/-- Texts of signs are written as they are, and no other text is written like one. -/
theorem flatMap_write_eq_iff {cs ds : List Char} (h : ds.all isSign = true) : cs.flatMap e.write = ds ↔ cs = ds := by
  induction ds generalizing cs with
  | nil => cases cs <;> simp [e.ne_nil]
  | cons d ds ih =>
      rw [List.all_cons, Bool.and_eq_true] at h
      cases cs with
      | nil => simp
      | cons c cs => rw [List.flatMap_cons, e.write_append_eq_cons_iff h.1, ih h.2, List.cons.injEq]

theorem text_eq_iff (h : t.toList.all isSign = true) : e.text s = t ↔ s = t := by
  rw [← String.toList_inj, toList_text, e.flatMap_write_eq_iff h, String.toList_inj]

theorem text_eq_self (h : t.toList.all isSign = true) : e.text t = t := (e.text_eq_iff h).2 rfl

theorem slash_mem_text : '/' ∈ (e.text s).toList ↔ '/' ∈ s.toList := by
  rw [toList_text, List.mem_flatMap]
  constructor
  · rintro ⟨c, hc, hm⟩
    exact e.eq_of_mem c '/' rfl hm ▸ hc
  · intro h
    exact ⟨'/', h, by rw [e.write_sign '/' rfl]; exact List.mem_singleton_self '/'⟩

theorem isVacuous_text (part : String) : isVacuous (e.text part) = isVacuous part := by
  simp only [isVacuous, beq_eq_decide, e.text_eq_iff (t := "") (by decide), e.text_eq_iff (t := ".") (by decide)]

theorem isName_text (h : IsName s) : IsName (e.text s) where
  not_vacuous := (e.isVacuous_text s).trans h.not_vacuous
  not_up hup := h.not_up ((e.text_eq_iff (by decide)).1 hup)
  no_slash hm := h.no_slash (e.slash_mem_text.1 hm)

/-! ## Parts -/

theorem flatMap_join (fs : List (List Char)) :
    (Text.join ['/'] fs).flatMap e.write = Text.join ['/'] (fs.map (·.flatMap e.write)) := by
  induction fs with
  | nil => rfl
  | cons f fs ih =>
      cases fs with
      | nil => rfl
      | cons g gs =>
          rw [Text.join, List.flatMap_append, List.flatMap_append, ih, List.flatMap_singleton, e.write_sign '/' rfl]
          rfl

theorem path_ofParts (ps : List String) : e.path (ofParts ps) = ofParts (ps.map e.text) := by
  refine congrArg Path.mk (String.toList_inj.1 ?_)
  simp [toList_text, ofParts, Text.joinWith, flatMap_join, Function.comp_def]

theorem parts_path (p : Path) : (e.path p).parts = p.parts.map e.text := by
  have hp : p = ofParts p.parts := congrArg Path.mk (Text.joinWith_fieldsOf '/' p.text).symm
  have hslash : ∀ part ∈ p.parts.map e.text, '/' ∉ part.toList := List.forall_mem_map.2 fun part hpart hm =>
    notMem_of_mem_parts hpart (e.slash_mem_text.1 hm)
  calc (e.path p).parts
    _ = (e.path (ofParts p.parts)).parts := by rw [← hp]
    _ = p.parts.map e.text := by
      rw [path_ofParts, parts_ofParts (by simpa using parts_ne_nil p) hslash]

/-! ## Starts -/

theorem isAbsolute_path (p : Path) : (e.path p).isAbsolute = p.isAbsolute := by
  have hhead : (e.path p).text.toList.head? = some '/' ↔ p.text.toList.head? = some '/' := by
    rw [path, toList_text]
    cases p.text.toList with
    | nil => rfl
    | cons c cs =>
        rw [List.flatMap_cons, List.head?_append_of_ne_nil _ (e.ne_nil c), e.head?_write rfl, List.head?_cons,
          Option.some.injEq]
  rw [isAbsolute, isAbsolute, Bool.eq_iff_iff, beq_iff_eq, beq_iff_eq, hhead]

theorem getLast?_text_eq_slash : (e.text s).toList.getLast? = some '/' ↔ s.toList.getLast? = some '/' := by
  rw [toList_text]
  rcases List.eq_nil_or_concat' s.toList with hs | ⟨cs, c, hs⟩
  · rw [hs]
    rfl
  · rw [hs, List.flatMap_append, List.flatMap_singleton, List.getLast?_append_of_ne_nil _ (e.ne_nil c),
      e.getLast?_write rfl, List.getLast?_concat, Option.some.injEq]

theorem start_path (p : Path) : (e.path p).start = p.start := by
  have hpoint : (e.path p).parts.head? = some "." ↔ p.parts.head? = some "." := by
    rw [parts_path, List.head?_map, Option.map_eq_some_iff]
    simp only [e.text_eq_iff (t := ".") (by decide), exists_eq_right]
  simp only [start, isAbsolute_path, hpoint]

theorem body_path (p : Path) : (e.path p).body = p.body.map e.text := by
  rw [body, body, start_path, parts_path]
  split
  · rfl
  · rw [List.map_drop]

/-! ## Components -/

theorem names_path (p : Path) : (e.path p).names = p.names.map e.text := by
  rw [names, names, parts_path, List.filter_map]
  simp only [Function.comp_def, isVacuous_text]

theorem components_path (p : Path) : (e.path p).components = p.components.map e.text := by
  have hlead : p.start.lead.map e.text = p.start.lead := by
    cases p.start with
    | top => exact congrArg (fun part => [part]) (e.text_eq_self (by decide))
    | point => exact congrArg (fun part => [part]) (e.text_eq_self (by decide))
    | joined => rfl
  rw [components_eq, components_eq, start_path, names_path, List.map_append, hlead]

theorem fileName?_path (p : Path) : (e.path p).fileName? = p.fileName?.map e.text := by
  have hname : ∀ part, (e.text part != "/" && e.text part != "." && e.text part != "..") =
      (part != "/" && part != "." && part != "..") := fun part => by
    simp only [bne, beq_eq_decide, e.text_eq_iff (t := "/") (by decide), e.text_eq_iff (t := ".") (by decide),
      e.text_eq_iff (t := "..") (by decide)]
  rw [fileName?, fileName?, components_path, List.getLast?_map, Option.filter_map]
  simp only [Function.comp_def, hname]

/-! ## Joining -/

theorem path_join (p q : Path) : e.path (p.join q) = (e.path p).join (e.path q) := by
  have hempty : (e.path p).text = "" ↔ p.text = "" := e.text_eq_iff (by decide)
  have hlast : (e.path p).text.toList.getLast? = some '/' ↔ p.text.toList.getLast? = some '/' :=
    e.getLast?_text_eq_slash
  have hslash : e.text "/" = "/" := e.text_eq_self (by decide)
  simp only [join, isAbsolute_path, Bool.or_eq_true, decide_eq_true_eq, beq_iff_eq, hempty, hlast]
  split
  · rfl
  · split <;> simp only [path, text_append, hslash]

/-! ## Parents -/

theorem path_ofStart (s : Start) (ps : List String) : e.path (ofStart s ps) = ofStart s (ps.map e.text) := by
  cases s with
  | top =>
      have hparts : e.text (ofParts ps).text = (ofParts (ps.map e.text)).text := congrArg Path.text (e.path_ofParts ps)
      have hslash : e.text "/" = "/" := e.text_eq_self (by decide)
      rw [ofStart, ofStart, path, text_append, hparts, hslash]
  | point => rw [ofStart, path_ofParts, ofStart, List.map_cons, e.text_eq_self (by decide)]
  | joined => exact e.path_ofParts ps

theorem trimParts_map (ps : List String) : trimParts (ps.map e.text) = (trimParts ps).map e.text := by
  rw [trimParts, trimParts, ← List.map_reverse, List.dropWhile_map, ← List.map_reverse]
  simp only [Function.comp_def, isVacuous_text]

theorem parent?_path (p : Path) : (e.path p).parent? = p.parent?.map e.path := by
  have hnone : e.path ⟨""⟩ = ⟨""⟩ := rfl
  rw [parent?, parent?, body_path, trimParts_map, start_path]
  cases trimParts p.body with
  | nil => cases p.start <;> simp [hnone]
  | cons part ps =>
      simp only [List.map_cons, Option.map_some, path_ofStart, ← trimParts_map, List.map_dropLast]

theorem path_withFileName (p : Path) (name : String) :
    e.path (p.withFileName name) = (e.path p).withFileName (e.text name) := by
  have hparent : (e.path p).parent?.getD ⟨""⟩ = e.path (p.parent?.getD ⟨""⟩) := by
    rw [parent?_path]
    cases p.parent? <;> rfl
  rw [withFileName, withFileName, fileName?_path, Option.isSome_map, hparent]
  split <;> exact e.path_join _ _

end Spelling

namespace RawPath

open DesignTokens.Path

variable {p q : RawPath} {name new : List UInt8} {c d : Char}

/-! ## Bytes as characters -/

theorem ofUInt8_toUInt8 (h : c.toNat < 256) : Char.ofUInt8 c.toUInt8 = c := by
  have hc : c.val.toNat < 256 := h
  have hval : (Char.ofUInt8 c.toUInt8).val.toNat = c.val.toNat % 256 := rfl
  exact Char.ext (UInt32.toNat_inj.1 (hval.trans (Nat.mod_eq_of_lt hc)))

theorem unspell_spell (bs : List UInt8) : unspell (spell bs) = bs := by
  have hbyte : ∀ b : UInt8, (Char.ofUInt8 b).toUInt8 = b := UInt8.toUInt8_toUInt32
  simp only [unspell, spell, String.toList_ofList, List.map_map, Function.comp_def, hbyte, List.map_id']

theorem slash_mem_spell (h : '/'.toUInt8 ∈ name) : '/' ∈ (spell name).toList := by
  rw [spell, String.toList_ofList]
  exact List.mem_map_of_mem h

theorem toNat_lt_of_isSign (h : isSign c = true) : c.toNat < 128 := by
  rw [isSign, Bool.or_eq_true, beq_iff_eq, beq_iff_eq] at h
  rcases h with rfl | rfl <;> decide

/-- Texts with a character for each of their bytes. -/
def bytewise : Spelling where
  write c := (String.utf8EncodeChar c).map Char.ofUInt8
  ne_nil _ := by simp [String.utf8EncodeChar_ne_nil]
  write_sign c hc := by
    have hlt := toNat_lt_of_isSign hc
    rcases Text.utf8EncodeChar_cases c with ⟨_, hone⟩ | ⟨hmany, _⟩
    · rw [hone, List.map_singleton, ofUInt8_toUInt8 (by omega)]
    · omega
  eq_of_mem c d hd h := by
    obtain ⟨b, hb, rfl⟩ := List.mem_map.1 h
    rcases Text.utf8EncodeChar_cases c with ⟨hc, hone⟩ | ⟨_, hmany⟩
    · rw [hone, List.mem_singleton] at hb
      rw [hb, ofUInt8_toUInt8 (by omega)]
    · exact absurd (toNat_lt_of_isSign hd) (Nat.not_lt.2 (hmany b hb))

theorem bytewise_text (s : String) : bytewise.text s = spell (Text.utf8 s) := by
  rw [Spelling.text, spell, Text.utf8, List.map_flatMap]
  rfl

theorem spelled_raw (p : Path) : p.raw.spelled = bytewise.path p := congrArg Path.mk (bytewise_text p.text).symm

/-- Texts whose characters have the numbers of bytes, and others with one such character in place of those that do
not. -/
def narrow : Spelling where
  write c := [if c.toNat < 256 then c else '?']
  ne_nil _ := List.cons_ne_nil _ _
  write_sign c hc := by
    have hlt := toNat_lt_of_isSign hc
    rw [if_pos (by omega)]
  eq_of_mem c d hd h := by
    rw [List.mem_singleton] at h
    split at h
    · exact h.symm
    · rw [h] at hd
      cases hd

theorem narrow_text_spell (bs : List UInt8) : narrow.text (spell bs) = spell bs := by
  have hwrite : ∀ b : UInt8, narrow.write (Char.ofUInt8 b) = [Char.ofUInt8 b] := fun b =>
    congrArg (fun c => [c]) (if_pos b.toNat_lt)
  refine String.toList_inj.1 ?_
  rw [Spelling.toList_text, spell, String.toList_ofList, List.flatMap_map]
  simp only [hwrite, List.map_eq_flatMap]

theorem spell_unspell {s : String} (h : narrow.text s = s) : spell (unspell s) = s := by
  have hbyte : ∀ c ∈ s.toList, c.toNat < 256 := by
    rw [← h, Spelling.toList_text]
    intro c hc
    obtain ⟨d, _, hd⟩ := List.mem_flatMap.1 hc
    rw [List.mem_singleton.1 hd]
    split
    · next hlt => exact hlt
    · decide
  refine String.toList_inj.1 ?_
  rw [spell, unspell, String.toList_ofList, List.map_map]
  exact (List.map_congr_left fun c hc => ofUInt8_toUInt8 (hbyte c hc)).trans (List.map_id _)

/-! ## Paths of bytes -/

theorem narrow_spelled (p : RawPath) : narrow.path p.spelled = p.spelled := congrArg Path.mk (narrow_text_spell p.bytes)

theorem spelled_ofSpelled {p : Path} (h : narrow.path p = p) : (ofSpelled p).spelled = p :=
  congrArg Path.mk (spell_unspell (congrArg Path.text h))

theorem spelled_join (p q : RawPath) : (p.join q).spelled = p.spelled.join q.spelled :=
  spelled_ofSpelled (by rw [Spelling.path_join, narrow_spelled, narrow_spelled])

theorem spelled_withFileName (p : RawPath) (name : List UInt8) :
    (p.withFileName name).spelled = p.spelled.withFileName (spell name) :=
  spelled_ofSpelled (by rw [Spelling.path_withFileName, narrow_spelled, narrow_text_spell])

theorem fileName?_eq_some_iff : p.fileName? = some name ↔ p.spelled.fileName? = some (spell name) := by
  rw [fileName?, Option.map_eq_some_iff]
  constructor
  · rintro ⟨text, htext, rfl⟩
    have hnarrow := narrow.fileName?_path p.spelled
    rw [narrow_spelled, htext, Option.map_some, Option.some.injEq] at hnarrow
    rw [htext, spell_unspell hnarrow.symm]
  · intro h
    exact ⟨_, h, unspell_spell name⟩

theorem fileName?_raw (p : Path) : p.raw.fileName? = p.fileName?.map Text.utf8 := by
  rw [fileName?, spelled_raw, Spelling.fileName?_path, Option.map_map]
  simp only [Function.comp_def, bytewise_text, unspell_spell]

theorem fileName?_join (hq : q.isAbsolute = false) (h : q.fileName? = some name) :
    (p.join q).fileName? = some name := by
  rw [fileName?_eq_some_iff, spelled_join]
  exact Path.fileName?_join hq (fileName?_eq_some_iff.1 h)

theorem components_eq_of_fileName? (h : p.fileName? = some name) :
    p.components = p.components.dropLast ++ [name] := by
  have hspelled := Path.components_eq_of_fileName? (fileName?_eq_some_iff.1 h)
  rw [components, hspelled, List.map_append, List.map_singleton, unspell_spell, List.dropLast_concat]

theorem components_withFileName (h : p.fileName? = some name) (hnew : IsName (spell new)) :
    (p.withFileName new).components = p.components.dropLast ++ [new] := by
  rw [components, components, spelled_withFileName, Path.components_withFileName (fileName?_eq_some_iff.1 h) hnew,
    List.map_append, List.map_dropLast, List.map_singleton, unspell_spell]

/-- Whether a path gets its new last name before or after it is joined, it says the same. -/
theorem components_join_withFileName (hp : p.isAbsolute = false) (h : p.fileName? = some name)
    (hnew : IsName (spell new)) :
    (q.join (p.withFileName new)).components = ((q.join p).withFileName new).components := by
  rw [components, components, spelled_join, spelled_withFileName, spelled_withFileName, spelled_join,
    Path.components_join_withFileName hp (fileName?_eq_some_iff.1 h) hnew]

end RawPath

end DesignTokens
