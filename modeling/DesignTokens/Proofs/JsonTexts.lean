import DesignTokens.Json.Record
import DesignTokens.Proofs.Fields
import DesignTokens.Proofs.Lexemes
import Mathlib.Data.List.Forall2

/-!
# Texts in JSON

How values may be written: with any blanks between the lexemes, with any escapes in strings, and nested to any depth. A
reader takes such a text off the front of what follows.
-/

namespace DesignTokens.Json

variable {α β : Type} {s t w rest : List Char}

/-! ## Blanks -/

/-- Nothing but blank characters. -/
def Blanks (s : List Char) : Prop := ∀ c ∈ s, isSpace c = true

instance : DecidablePred Blanks := fun s => decidable_of_iff (s.all isSpace = true) List.all_eq_true

theorem blanks_nil : Blanks [] := nofun

theorem dropWhile_blanks (h : Blanks t) (s : List Char) : (t ++ s).dropWhile isSpace = s.dropWhile isSpace :=
  List.dropWhile_append_of_pos h

theorem peek_append (h : Blanks t) (s : List Char) : peek (t ++ s) = peek s := by
  rw [peek, peek, dropWhile_blanks h]

theorem peek_append_cons (h : Blanks t) {c : Char} (hc : isSpace c = false) (s : List Char) :
    peek (t ++ c :: s) = .ok (some c, c :: s) :=
  (peek_append h _).trans (peek_cons hc s)

theorem endsNumber_append (h : Blanks t) (hs : EndsNumber s) : EndsNumber (t ++ s) := by
  cases t with
  | nil => exact hs
  | cons c t =>
      rintro _ ⟨rfl⟩
      have hc := h c (List.mem_cons_self ..)
      simp only [isSpace, Bool.or_eq_true, beq_iff_eq] at hc
      rcases hc with ((rfl | rfl) | rfl) | rfl <;> decide

/-! ## Readers -/

/-- The reader skips blanks first. -/
def Skips (item : Reader α) : Prop := ∀ blank s, Blanks blank → item (blank ++ s) = item s

/-- The reader takes the text off the front of all texts that do not go on as a number does. -/
def Reads (item : Reader α) (t : List Char) (a : α) : Prop :=
  ∀ rest, EndsNumber rest → item (t ++ rest) = .ok (a, rest)

theorem skips_peek (f : Option Char → Reader α) : Skips (peek >>= f) := fun blank s h => by
  simp only [Bind.bind, StateT.bind, peek_append h]

theorem Skips.bind {x : Reader α} (h : Skips x) (f : α → Reader β) : Skips (x >>= f) := fun blank s hblank => by
  simp only [Bind.bind, StateT.bind, h blank s hblank]

theorem Skips.map {item : Reader α} (h : Skips item) (f : α → β) : Skips (item.map f) := fun blank s hblank => by
  rw [StateT.map, StateT.map, h blank s hblank]

theorem Reads.map {item : Reader α} {a : α} (h : Reads item t a) (f : α → β) : Reads (item.map f) t (f a) :=
  fun rest hrest => by
    rw [StateT.map, h rest hrest]
    rfl

/-! ## Strings and keys -/

/-- Four hexadecimal digits and the code unit that they stand for. -/
inductive IsUnit : List Char → Nat → Prop where
  | mk {a b c d : Char} {i j k l : Nat} (ha : hexValue? a = some i) (hb : hexValue? b = some j)
      (hc : hexValue? c = some k) (hd : hexValue? d = some l) : IsUnit [a, b, c, d] (((i * 16 + j) * 16 + k) * 16 + l)

/-- Characters, and how they may be written in a string: as they are, or escaped by a letter or by code units. -/
inductive Spells : List Char → List Char → Prop where
  | nil : Spells [] []
  | plain {c : Char} {cs w : List Char} (hquote : c ≠ '"') (hslash : c ≠ '\\') (hcontrol : ¬c.toNat < 0x20)
      (h : Spells cs w) : Spells (c :: cs) (c :: w)
  | letter {e c : Char} {cs w : List Char} (he : escaped? e = some c) (h : Spells cs w) :
      Spells (c :: cs) ('\\' :: e :: w)
  | unit {hex cs w : List Char} {n : Nat} (hn : IsUnit hex n) (hrange : n < 0xD800 ∨ 0xDFFF < n) (h : Spells cs w) :
      Spells (Char.ofNat n :: cs) ('\\' :: 'u' :: (hex ++ w))
  | pair {hex hex' cs w : List Char} {high low : Nat} (hhigh : IsUnit hex high) (hlow : IsUnit hex' low)
      (hrange : 0xD800 ≤ high ∧ high ≤ 0xDBFF) (hrange' : 0xDC00 ≤ low ∧ low ≤ 0xDFFF) (h : Spells cs w) :
      Spells (pairedUnits high low :: cs) ('\\' :: 'u' :: (hex ++ '\\' :: 'u' :: (hex' ++ w)))

/-- What may stand in a string of no interest: code units need not form characters. -/
inductive IsString : List Char → Prop where
  | nil : IsString []
  | plain {c : Char} {w : List Char} (hquote : c ≠ '"') (hslash : c ≠ '\\') (hcontrol : ¬c.toNat < 0x20)
      (h : IsString w) : IsString (c :: w)
  | letter {e c : Char} {w : List Char} (he : escaped? e = some c) (h : IsString w) : IsString ('\\' :: e :: w)
  | unit {hex w : List Char} {n : Nat} (hn : IsUnit hex n) (h : IsString w) : IsString ('\\' :: 'u' :: (hex ++ w))

theorem hexUnit_append {hex : List Char} {n : Nat} (h : IsUnit hex n) (s : List Char) :
    hexUnit (hex ++ s) = .ok (n, s) := by
  obtain ⟨ha, hb, hc, hd⟩ := h
  exact hexUnit_cons ha hb hc hd s

theorem ne_of_escaped? {e c : Char} (h : escaped? e = some c) : e ≠ 'u' := by
  rintro rfl
  cases h

theorem escapeLexeme_letter {e c : Char} (h : escaped? e = some c) (s : List Char) :
    escapeLexeme (e :: s) = .ok (c, s) := by
  rw [escapeLexeme, if_neg (ne_of_escaped? h), h]

theorem escapeLexeme_unit {hex : List Char} {n : Nat} (h : IsUnit hex n) (hrange : n < 0xD800 ∨ 0xDFFF < n)
    (s : List Char) : escapeLexeme ('u' :: (hex ++ s)) = .ok (Char.ofNat n, s) := by
  have hlow : (decide (0xDC00 ≤ n) && decide (n ≤ 0xDFFF)) = false := by
    simp only [Bool.and_eq_false_iff, decide_eq_false_iff_not]
    omega
  have hhigh : (decide (0xD800 ≤ n) && decide (n ≤ 0xDBFF)) = false := by
    simp only [Bool.and_eq_false_iff, decide_eq_false_iff_not]
    omega
  rw [escapeLexeme, if_pos rfl, unitsLexeme, Reader.bind_of_ok (hexUnit_append h s)]
  simp only [hlow, hhigh, Bool.false_eq_true, if_false]
  rfl

theorem escapeLexeme_pair {hex hex' : List Char} {high low : Nat} (hhigh : IsUnit hex high) (hlow : IsUnit hex' low)
    (hrange : 0xD800 ≤ high ∧ high ≤ 0xDBFF) (hrange' : 0xDC00 ≤ low ∧ low ≤ 0xDFFF) (s : List Char) :
    escapeLexeme ('u' :: (hex ++ '\\' :: 'u' :: (hex' ++ s))) = .ok (pairedUnits high low, s) := by
  have hnot : (decide (0xDC00 ≤ high) && decide (high ≤ 0xDFFF)) = false := by
    simp only [Bool.and_eq_false_iff, decide_eq_false_iff_not]
    omega
  have hword : word ['\\', 'u'] ('\\' :: 'u' :: (hex' ++ s)) = .ok ((), hex' ++ s) := rfl
  rw [escapeLexeme, if_pos rfl, unitsLexeme, Reader.bind_of_ok (hexUnit_append hhigh _)]
  simp only [hnot, hrange, decide_true, Bool.and_self, Bool.false_eq_true, if_false, if_true]
  rw [Reader.bind_of_ok hword, Reader.bind_of_ok (hexUnit_append hlow s)]
  simp only [hrange', decide_true, Bool.and_self, if_true]
  rfl

theorem contents_append {cs : List Char} (h : Spells cs w) (rest : List Char) :
    contents (w ++ '"' :: rest) = .ok (cs, rest) := by
  induction h with
  | nil => rw [List.nil_append, contents]
  | plain hquote hslash hcontrol _ ih => rw [List.cons_append, contents_cons hquote hslash hcontrol, ih]; rfl
  | letter he _ ih => rw [List.cons_append, List.cons_append, contents_escape (escapeLexeme_letter he _), ih]; rfl
  | unit hn hrange _ ih =>
      rw [List.cons_append, List.cons_append, List.append_assoc, contents_escape (escapeLexeme_unit hn hrange _), ih]
      rfl
  | pair hhigh hlow hrange hrange' _ ih =>
      rw [List.cons_append, List.cons_append, List.append_assoc, List.cons_append, List.cons_append, List.append_assoc,
        contents_escape (escapeLexeme_pair hhigh hlow hrange hrange' _), ih]
      rfl

theorem stringLexeme_append {v : String} (h : Spells v.toList w) (rest : List Char) :
    stringLexeme (w ++ '"' :: rest) = .ok (v, rest) := by
  rw [stringLexeme, StateT.map, contents_append h]
  simp [bind, Except.bind, pure, Except.pure]

theorem skipString_append (h : IsString w) (rest : List Char) : skipString (w ++ '"' :: rest) = .ok ((), rest) := by
  induction h with
  | nil => rw [List.nil_append, skipString]
  | plain hquote hslash hcontrol _ ih =>
      rw [List.cons_append, skipString, if_neg hcontrol, ih]
      · exact hquote
      · exact fun _ _ hc _ => hslash hc
      · exact fun hc _ => hslash hc
  | letter he _ ih =>
      rw [List.cons_append, List.cons_append, skipString, if_neg (ne_of_escaped? he), he, Option.isSome_some,
        if_pos rfl, ih]
  | unit hn _ ih =>
      rw [List.cons_append, List.cons_append, List.append_assoc, skipString, if_pos rfl]
      split
      · next heq =>
          rw [hexUnit_append hn] at heq
          cases heq
          exact ih
      · next heq =>
          rw [hexUnit_append hn] at heq
          cases heq

theorem spells_flatMap (cs : List Char) : Spells cs (cs.flatMap escapeChar) := by
  induction cs with
  | nil => exact .nil
  | cons c cs ih =>
      rw [List.flatMap_cons]
      unfold escapeChar
      split
      case h_8 hquote hslash _ _ _ _ _ =>
        split
        · next hcontrol =>
            have hunit : IsUnit ['0', '0', hexDigit (c.toNat / 16), hexDigit (c.toNat % 16)] c.toNat := by
              have := IsUnit.mk (a := '0') (b := '0') (i := 0) (j := 0) rfl rfl
                (hexValue?_hexDigit (n := c.toNat / 16) (by omega)) (hexValue?_hexDigit (n := c.toNat % 16) (by omega))
              rwa [show ((0 * 16 + 0) * 16 + c.toNat / 16) * 16 + c.toNat % 16 = c.toNat by omega] at this
            have hspells := Spells.unit hunit (by omega) ih
            rwa [Char.ofNat_toNat] at hspells
        · next hcontrol => exact .plain hquote hslash hcontrol ih
      -- The other characters of the match are escaped by one letter.
      all_goals exact .letter rfl ih

theorem key_append {k : String} (h : Spells k.toList w) (s : List Char) :
    key ('"' :: (w ++ '"' :: s)) = .ok (k, s) := by
  rw [key, Reader.bind_of_ok (peek_cons rfl _)]
  simp only [if_true]
  rw [Reader.bind_of_ok (advance_cons ..), stringLexeme_append h]

theorem colon_append {blank : List Char} (h : Blanks blank) (s : List Char) :
    colon (blank ++ ':' :: s) = .ok ((), s) := by
  rw [colon, Reader.bind_of_ok (peek_append_cons h rfl s)]
  rfl

/-! ## Numbers -/

/-- At least one digit. -/
structure IsDigits (ds : List Char) : Prop where
  ne_nil : ds ≠ []
  isDigit : ∀ c ∈ ds, c.isDigit = true

/-- A number as it may be written. -/
inductive IsNumeral : List Char → Prop where
  | mk {sign digits fraction exponent : List Char} (hsign : sign = [] ∨ sign = ['-'])
      (hdigits : digits = ['0'] ∨ IsDigits digits ∧ digits.head? ≠ some '0')
      (hfraction : fraction = [] ∨ ∃ ds, fraction = '.' :: ds ∧ IsDigits ds)
      (hexponent : exponent = [] ∨ ∃ mark sign' ds, exponent = mark :: (sign' ++ ds) ∧ (mark = 'e' ∨ mark = 'E') ∧
        (sign' = [] ∨ sign' = ['+'] ∨ sign' = ['-']) ∧ IsDigits ds) :
      IsNumeral (sign ++ digits ++ fraction ++ exponent)

theorem exists_cons_of_digits {ds : List Char} (h : ds = ['0'] ∨ IsDigits ds ∧ ds.head? ≠ some '0') :
    ∃ d rest, ds = d :: rest ∧ d.isDigit = true := by
  rcases h with rfl | ⟨⟨hne, hdigit⟩, _⟩
  · exact ⟨'0', [], rfl, rfl⟩
  · obtain ⟨d, rest, rfl⟩ := List.exists_cons_of_ne_nil hne
    exact ⟨d, rest, rfl, hdigit d (List.mem_cons_self ..)⟩

theorem exists_cons_of_isNumeral (h : IsNumeral w) : ∃ c s, w = c :: s ∧ (c = '-' ∨ c.isDigit = true) := by
  obtain ⟨rfl | rfl, hdigits, _, _⟩ := h
  · obtain ⟨d, ds, rfl, hd⟩ := exists_cons_of_digits hdigits
    exact ⟨d, _, rfl, .inr hd⟩
  · exact ⟨'-', _, rfl, .inl rfl⟩

theorem wholeDigits_append {ds : List Char} (hds : ds = ['0'] ∨ IsDigits ds ∧ ds.head? ≠ some '0')
    (h : ∀ c ∈ rest.head?, c.isDigit = false) : wholeDigits (ds ++ rest) = .ok (ds, rest) := by
  rcases hds with rfl | ⟨⟨hne, hdigit⟩, hzero⟩
  · have hany : rest.head?.any Char.isDigit = false := by
      cases rest with
      | nil => rfl
      | cons c s => exact h c rfl
    simp [wholeDigits, hany]
  · rw [← digits_append hne hdigit h]
    obtain ⟨d, ds, rfl⟩ := List.exists_cons_of_ne_nil hne
    have hd : d ≠ '0' := by simpa using hzero
    rw [List.cons_append, wholeDigits]
    simpa using hd

theorem digits_map_append {ds : List Char} (hds : IsDigits ds) (h : ∀ c ∈ rest.head?, c.isDigit = false)
    (f : List Char → β) : digits.map f (ds ++ rest) = .ok (f ds, rest) := by
  rw [StateT.map, digits_append hds.ne_nil hds.isDigit h]
  rfl

theorem exists_fractionDigits {fraction : List Char}
    (hfraction : fraction = [] ∨ ∃ ds, fraction = '.' :: ds ∧ IsDigits ds)
    (h : ∀ c ∈ rest.head?, c.isDigit = false ∧ c ≠ '.') : ∃ f, fractionDigits (fraction ++ rest) = .ok (f, rest) := by
  rcases hfraction with rfl | ⟨ds, rfl, hds⟩
  · refine ⟨none, ?_⟩
    cases rest with
    | nil => rfl
    | cons c s =>
        rw [List.nil_append, fractionDigits]
        simpa using (h c rfl).2
  · exact ⟨_, digits_map_append hds (fun c hc => (h c hc).1) some⟩

theorem exists_exponentDigits {exponent : List Char}
    (hexponent : exponent = [] ∨ ∃ mark sign ds, exponent = mark :: (sign ++ ds) ∧ (mark = 'e' ∨ mark = 'E') ∧
      (sign = [] ∨ sign = ['+'] ∨ sign = ['-']) ∧ IsDigits ds)
    (h : EndsNumber rest) : ∃ e, exponentDigits (exponent ++ rest) = .ok (e, rest) := by
  rcases hexponent with rfl | ⟨mark, sign, ds, rfl, hmark, hsign, hds⟩
  · exact ⟨none, exponentDigits_of_endsNumber h⟩
  · have hlead : (mark = 'e' || mark = 'E') = true := by simpa using hmark
    have hdigits : ∀ negative : Bool, digits.map (fun ds => some (negative, ds)) (ds ++ rest) =
        .ok (some (negative, ds), rest) := fun negative =>
      digits_map_append hds (fun c hc => (h c hc).1) fun ds => some (negative, ds)
    rcases hsign with rfl | rfl | rfl
    · obtain ⟨d, ds, rfl⟩ := List.exists_cons_of_ne_nil hds.ne_nil
      have hd := hds.isDigit d (List.mem_cons_self ..)
      refine ⟨_, Eq.trans ?_ (hdigits false)⟩
      simp only [exponentDigits, List.nil_append, List.cons_append, hlead, if_true]
      split
      · next heq =>
          cases heq
          cases hd
      · next heq =>
          cases heq
          cases hd
      · rfl
    · refine ⟨_, Eq.trans ?_ (hdigits false)⟩
      simp only [exponentDigits, List.nil_append, List.cons_append, hlead, if_true]
    · refine ⟨_, Eq.trans ?_ (hdigits true)⟩
      simp only [exponentDigits, List.nil_append, List.cons_append, hlead, if_true]

theorem exists_numeral (hw : IsNumeral w) (h : EndsNumber rest) : ∃ n, numeral (w ++ rest) = .ok (n, rest) := by
  obtain @⟨sign, ds, fraction, exponent, hsign, hdigits, hfraction, hexponent⟩ := hw
  have hlast : ∀ c ∈ (exponent ++ rest).head?, c.isDigit = false ∧ c ≠ '.' := by
    rcases hexponent with rfl | ⟨mark, sign', ds', rfl, rfl | rfl, _⟩
    · exact fun c hc => ⟨(h c hc).1, (h c hc).2.1⟩
    · rintro _ ⟨rfl⟩
      decide
    · rintro _ ⟨rfl⟩
      decide
  have hmiddle : ∀ c ∈ (fraction ++ (exponent ++ rest)).head?, c.isDigit = false := by
    rcases hfraction with rfl | ⟨ds', rfl, _⟩
    · exact fun c hc => (hlast c hc).1
    · rintro _ ⟨rfl⟩
      decide
  obtain ⟨e, he⟩ := exists_exponentDigits hexponent h
  obtain ⟨f, hf⟩ := exists_fractionDigits hfraction hlast
  have hw := wholeDigits_append hdigits hmiddle
  have hparts : ∀ negative : Bool,
      (do return ⟨negative, ← wholeDigits, ← fractionDigits, ← exponentDigits⟩ : Reader Numeral)
        (ds ++ (fraction ++ (exponent ++ rest))) = .ok (⟨negative, ds, f, e⟩, rest) := by
    intro negative
    rw [Reader.bind_of_ok hw, Reader.bind_of_ok hf, Reader.bind_of_ok he]
    rfl
  rw [List.append_assoc, List.append_assoc, List.append_assoc]
  rcases hsign with rfl | rfl
  · refine ⟨_, Eq.trans ?_ (hparts false)⟩
    obtain ⟨d, ds, rfl, hd⟩ := exists_cons_of_digits hdigits
    simp only [List.nil_append, List.cons_append, numeral]
    split
    · next heq =>
        cases heq
        cases hd
    · rfl
  · exact ⟨_, hparts true⟩

/-! ## Parts with commas between them -/

/-- The text begins with a character that is neither blank nor a closing bracket. -/
def Begins (t : List Char) : Prop := ∃ c s, t = c :: s ∧ isSpace c = false ∧ c ≠ ']' ∧ c ≠ '}'

/-- A bracket that closes. -/
def Closes (c : Char) : Prop := c = ']' ∨ c = '}'

theorem endsNumber_comma (s : List Char) : EndsNumber (',' :: s) := by
  rintro c ⟨rfl⟩
  decide

namespace Closes

variable {close : Char}

theorem endsNumber (h : Closes close) (s : List Char) : EndsNumber (close :: s) := by
  rintro c ⟨rfl⟩
  rcases h with rfl | rfl <;> decide

theorem not_isSpace (h : Closes close) : isSpace close = false := by rcases h with rfl | rfl <;> rfl

theorem ne_comma (h : Closes close) : close ≠ ',' := by rcases h with rfl | rfl <;> decide

end Closes

/-- What stands between two commas, with what is before and after it. -/
structure Part where
  lead : List Char
  core : List Char
  tail : List Char

namespace Part

/-- The part as it is written. -/
def text (p : Part) : List Char := p.lead ++ p.core ++ p.tail

/-- Only blanks stand around the part. -/
structure Padded (p : Part) : Prop where
  lead : Blanks p.lead
  tail : Blanks p.tail

/-- A part with nothing around it. -/
def bare (core : List Char) : Part := ⟨[], core, []⟩

theorem text_bare (core : List Char) : (bare core).text = core := List.append_nil core

theorem padded_bare (core : List Char) : (bare core).Padded := ⟨blanks_nil, blanks_nil⟩

end Part

/-- Parts with commas between them, in brackets. -/
def bracketed (opening : Char) (blank : List Char) (parts : List Part) (closing : Char) : List Char :=
  opening :: (blank ++ Text.join [','] (parts.map Part.text) ++ [closing])

theorem exists_join_cons (sep : List Char) (fs : List (List Char)) :
    ∃ more, ∀ f, Text.join sep (f :: fs) = f ++ more := by
  cases fs with
  | nil => exact ⟨[], fun f => (List.append_nil f).symm⟩
  | cons g gs => exact ⟨sep ++ Text.join sep (g :: gs), fun f => by rw [Text.join, List.append_assoc]⟩

section

variable {close : Char} {item : Reader α} {parts : List Part} {as : List α} {fuel : Nat}

theorem itemsUntil_parts (hclose : Closes close) (hskip : Skips item)
    (h : List.Forall₂ (fun p a => p.Padded ∧ Reads item p.core a) parts as) (hne : parts ≠ [])
    (hfuel : parts.length ≤ fuel) (rest : List Char) :
    itemsUntil close item fuel (Text.join [','] (parts.map Part.text) ++ close :: rest) = .ok (as, rest) := by
  induction h generalizing fuel with
  | nil => exact absurd rfl hne
  | @cons p a parts as hfirst hmore ih =>
      obtain ⟨fuel, rfl⟩ : ∃ n, fuel = n + 1 := ⟨fuel - 1, by simp only [List.length_cons] at hfuel; omega⟩
      obtain ⟨hpadded, hreads⟩ := hfirst
      have hitem : ∀ s, EndsNumber s → item (p.text ++ s) = .ok (a, p.tail ++ s) := fun s hs => by
        rw [Part.text, List.append_assoc, List.append_assoc, hskip _ _ hpadded.lead,
          hreads _ (endsNumber_append hpadded.tail hs)]
      cases hmore with
      | nil =>
          rw [List.map_singleton, Text.join, itemsUntil, Reader.bind_of_ok (hitem _ (hclose.endsNumber rest)),
            Reader.bind_of_ok (peek_append_cons hpadded.tail hclose.not_isSpace rest)]
          simp only [if_true]
          rfl
      | @cons q b parts as hsecond hmore =>
          have hrest := ih (List.cons_ne_nil q parts) (Nat.le_of_succ_le_succ hfuel)
          rw [List.map_cons, List.map_cons, Text.join, ← List.map_cons, List.append_assoc, List.append_assoc,
            List.singleton_append, itemsUntil, Reader.bind_of_ok (hitem _ (endsNumber_comma _)),
            Reader.bind_of_ok (peek_append_cons hpadded.tail rfl _)]
          simp only [hclose.ne_comma.symm, if_false, if_true]
          rw [Reader.bind_of_ok (advance_cons ..), Reader.bind_of_ok hrest]
          rfl

/-- What was written with commas between the parts is read, if each part is. -/
theorem listUntil_parts (hclose : Closes close) (hskip : Skips item)
    (h : List.Forall₂ (fun p a => p.Padded ∧ Reads item p.core a) parts as) (hbegin : ∀ p ∈ parts, Begins p.core)
    (hfuel : parts.length ≤ fuel) {blank : List Char} (hblank : Blanks blank) (rest : List Char) :
    listUntil close fuel item (blank ++ Text.join [','] (parts.map Part.text) ++ close :: rest) = .ok (as, rest) := by
  cases h with
  | nil =>
      rw [List.map_nil, Text.join, List.append_nil, listUntil,
        Reader.bind_of_ok (peek_append_cons hblank hclose.not_isSpace rest)]
      simp only [if_true]
      rfl
  | @cons p a parts as hfirst hmore =>
      obtain ⟨c, s, hcore, hspace, hbracket, hbrace⟩ := hbegin p (List.mem_cons_self ..)
      have hne : c ≠ close := by rcases hclose with rfl | rfl <;> assumption
      obtain ⟨more, hjoin⟩ := exists_join_cons [','] (parts.map Part.text)
      -- The blanks before the first part are skipped before it is read.
      have hall : List.Forall₂ (fun (p : Part) a => p.Padded ∧ Reads item p.core a) (⟨[], p.core, p.tail⟩ :: parts)
          (a :: as) :=
        .cons ⟨⟨blanks_nil, hfirst.1.tail⟩, hfirst.2⟩ hmore
      have hitems := itemsUntil_parts hclose hskip hall (List.cons_ne_nil _ _) hfuel rest
      rw [List.map_cons, hjoin, Part.text, List.nil_append, hcore, List.cons_append, List.cons_append, List.cons_append]
        at hitems
      have hlead : Blanks (blank ++ p.lead) := List.forall_mem_append.2 ⟨hblank, hfirst.1.lead⟩
      have htext : blank ++ Text.join [','] ((p :: parts).map Part.text) ++ close :: rest =
          (blank ++ p.lead) ++ c :: (s ++ p.tail ++ more ++ close :: rest) := by
        rw [List.map_cons, hjoin, Part.text, hcore]
        simp
      rw [htext, listUntil, Reader.bind_of_ok (peek_append_cons hlead hspace _)]
      simp only [hne, if_false]
      exact hitems

end

theorem listUntil_join {close : Char} (hclose : Closes close) {item : Reader α} (hskip : Skips item)
    {write : α → List Char} {as : List α} {fuel : Nat} (hfuel : as.length ≤ fuel) (hbegin : ∀ a ∈ as, Begins (write a))
    (hitem : ∀ a ∈ as, Reads item (write a) a) (rest : List Char) :
    listUntil close fuel item (Text.join [','] (as.map write) ++ close :: rest) = .ok (as, rest) := by
  have hall : List.Forall₂ (fun (p : Part) a => p.Padded ∧ Reads item p.core a) (as.map (Part.bare ∘ write)) as :=
    List.forall₂_map_left_iff.2 (List.forall₂_same.2 fun a ha => ⟨Part.padded_bare _, hitem a ha⟩)
  have htext : (as.map (Part.bare ∘ write)).map Part.text = as.map write := by
    rw [List.map_map]
    exact List.map_congr_left fun a _ => Part.text_bare (write a)
  have hlist := listUntil_parts hclose hskip hall (List.forall_mem_map.2 hbegin) (by simpa using hfuel) blanks_nil rest
  rwa [htext] at hlist

theorem length_core_le (opening closing : Char) (blank : List Char) {parts : List Part} {p : Part} (h : p ∈ parts) :
    p.core.length + 2 ≤ (bracketed opening blank parts closing).length := by
  have := Text.length_le_length_join [','] (List.mem_map_of_mem (f := Part.text) h)
  simp only [Part.text, bracketed, List.length_append, List.length_cons, List.length_nil] at this ⊢
  omega

theorem length_parts_le (opening closing : Char) (blank : List Char) (parts : List Part) :
    parts.length + 1 ≤ (bracketed opening blank parts closing).length := by
  have := Text.length_le_length_join_singleton ',' (parts.map Part.text)
  simp only [bracketed, List.length_append, List.length_cons, List.length_nil, List.length_map] at this ⊢
  omega

/-! ## Values -/

/-- A member of an object as it is written: its key, which stands between quotes, its value, and what is around them. -/
structure Member where
  lead : List Char
  spelled : List Char
  gap : List Char
  pad : List Char
  value : List Char
  tail : List Char

namespace Member

/-- The member as a part. -/
def part (m : Member) : Part := ⟨m.lead, '"' :: (m.spelled ++ '"' :: (m.gap ++ ':' :: (m.pad ++ m.value))), m.tail⟩

/-- Only blanks stand around the key and the value. -/
structure Padded (m : Member) : Prop where
  lead : Blanks m.lead
  gap : Blanks m.gap
  pad : Blanks m.pad
  tail : Blanks m.tail

theorem begins_core (m : Member) : Begins m.part.core := ⟨'"', _, rfl, by decide⟩

theorem exists_text_append (m : Member) (s : List Char) : ∃ s', m.part.text ++ s = m.lead ++ '"' :: s' :=
  ⟨_, by simp only [Part.text, part, List.append_assoc, List.cons_append]; rfl⟩

theorem length_value_lt (m : Member) : m.value.length < m.part.core.length := by
  simp only [part, List.length_cons, List.length_append]
  omega

end Member

/-- Values as they may be written. -/
inductive IsValue : List Char → Prop where
  | null : IsValue ['n', 'u', 'l', 'l']
  | true : IsValue ['t', 'r', 'u', 'e']
  | false : IsValue ['f', 'a', 'l', 's', 'e']
  | number {w : List Char} (h : IsNumeral w) : IsValue w
  | string {w : List Char} (h : IsString w) : IsValue ('"' :: (w ++ ['"']))
  | array {blank : List Char} {parts : List Part} (hblank : Blanks blank) (hpadded : ∀ p ∈ parts, p.Padded)
      (h : ∀ p ∈ parts, IsValue p.core) : IsValue (bracketed '[' blank parts ']')
  | object {blank : List Char} {ms : List Member} (hblank : Blanks blank) (hpadded : ∀ m ∈ ms, m.Padded)
      (hkeys : ∀ m ∈ ms, IsString m.spelled) (h : ∀ m ∈ ms, IsValue m.value) :
      IsValue (bracketed '{' blank (ms.map Member.part) '}')

theorem ne_of_isDigit {c d : Char} (hc : c.isDigit = true) (hd : d.isDigit = false) : c ≠ d := by
  rintro rfl
  rw [hd] at hc
  cases hc

theorem isSpace_of_isDigit {c : Char} (h : c.isDigit = true) : isSpace c = false := by
  simp [isSpace, ne_of_isDigit h]

/-- The first character of a number is none that other values begin with. -/
theorem ne_of_leads {c d : Char} (h : c = '-' ∨ c.isDigit = true) (hminus : d ≠ '-') (hdigit : d.isDigit = false) :
    c ≠ d := by
  rcases h with rfl | h
  · exact hminus.symm
  · exact ne_of_isDigit h hdigit

theorem isSpace_of_leads {c : Char} (h : c = '-' ∨ c.isDigit = true) : isSpace c = false := by
  rcases h with rfl | h
  · rfl
  · exact isSpace_of_isDigit h

theorem IsValue.begins (h : IsValue t) : Begins t := by
  cases h with
  | null => exact ⟨'n', _, rfl, by decide⟩
  | true => exact ⟨'t', _, rfl, by decide⟩
  | false => exact ⟨'f', _, rfl, by decide⟩
  | number h =>
      obtain ⟨c, s, rfl, hc⟩ := exists_cons_of_isNumeral h
      exact ⟨c, s, rfl, isSpace_of_leads hc, ne_of_leads hc (by decide) rfl, ne_of_leads hc (by decide) rfl⟩
  | string => exact ⟨'"', _, rfl, by decide⟩
  | array => exact ⟨'[', _, rfl, by decide⟩
  | object => exact ⟨'{', _, rfl, by decide⟩

/-! ## Values of no interest -/

/-- Skips the member of an object. -/
def skipMember (fuel : Nat) : Reader Unit := do
  match ← peek with
  | none => throw .unfinished
  | some c => if c = '"' then do advance; skipString else throw .malformed
  colon
  skipValue fuel

theorem skips_skipValue (fuel : Nat) : Skips (skipValue fuel) := by
  cases fuel with
  | zero => exact fun _ _ _ => rfl
  | succ fuel => exact skips_peek _

theorem skips_skipMember (fuel : Nat) : Skips (skipMember fuel) := skips_peek _

theorem skipValue_cons {c : Char} (hc : isSpace c = false) (fuel : Nat) (s : List Char) :
    skipValue (fuel + 1) (c :: s) = (
      if c = 'n' then word ['n', 'u', 'l', 'l']
      else if c = 't' then word ['t', 'r', 'u', 'e']
      else if c = 'f' then word ['f', 'a', 'l', 's', 'e']
      else if c = '"' then do advance; skipString
      else if c = '-' || c.isDigit then skipNumber
      else if c = '[' then do
        advance
        discard (listUntil ']' (fuel + 1) (skipValue fuel))
      else if c = '{' then do
        advance
        discard (listUntil '}' (fuel + 1) (skipMember fuel))
      else throw .malformed) (c :: s) := by
  rw [skipValue, Reader.bind_of_ok (peek_cons hc s)]
  rfl

theorem reads_skipMember {m : Member} {fuel : Nat} (hpadded : m.Padded) (hkey : IsString m.spelled)
    (hvalue : Reads (skipValue fuel) m.value ()) : Reads (skipMember fuel) m.part.core () := by
  intro rest hrest
  rw [Member.part, List.cons_append, List.append_assoc, List.cons_append, List.append_assoc, List.cons_append,
    List.append_assoc, skipMember, Reader.bind_of_ok (peek_cons rfl _)]
  simp only [if_true]
  rw [Reader.bind_of_ok (advance_cons ..), Reader.bind_of_ok (skipString_append hkey _),
    Reader.bind_of_ok (colon_append hpadded.gap _), skips_skipValue fuel _ _ hpadded.pad, hvalue rest hrest]

theorem reads_skipList {opening closing : Char} (hclose : Closes closing) {item : Reader Unit} (hskip : Skips item)
    {blank : List Char} (hblank : Blanks blank) {parts : List Part} {fuel : Nat}
    (hfuel : (bracketed opening blank parts closing).length ≤ fuel + 1)
    (h : ∀ p ∈ parts, p.Padded ∧ Begins p.core ∧ Reads item p.core ()) (rest : List Char) :
    (do advance; discard (listUntil closing (fuel + 1) item) : Reader Unit)
      (bracketed opening blank parts closing ++ rest) = .ok ((), rest) := by
  have hall : List.Forall₂ (fun p (_ : Unit) => p.Padded ∧ Reads item p.core ()) parts (parts.map fun _ => ()) :=
    List.forall₂_map_right_iff.2 (List.forall₂_same.2 fun p hp => ⟨(h p hp).1, (h p hp).2.2⟩)
  have hcount : parts.length ≤ fuel + 1 :=
    Nat.le_trans (Nat.le_of_succ_le (length_parts_le opening closing blank parts)) hfuel
  have hlist := listUntil_parts hclose hskip hall (fun p hp => (h p hp).2.1) hcount hblank rest
  rw [bracketed, List.cons_append, List.append_assoc, List.singleton_append, Reader.bind_of_ok (advance_cons ..)]
  change (listUntil closing (fuel + 1) item >>= fun _ => pure ()) _ = _
  rw [Reader.bind_of_ok hlist]
  rfl

/-- A value of no interest is skipped, however deep it goes. -/
theorem reads_skipValue (h : IsValue t) {fuel : Nat} (hfuel : t.length ≤ fuel) : Reads (skipValue fuel) t () := by
  intro rest hrest
  induction h generalizing fuel rest with
  | null =>
      obtain ⟨fuel, rfl⟩ := Nat.exists_eq_add_of_le' (Nat.le_trans (by decide : 1 ≤ 4) hfuel)
      exact skipValue_cons rfl fuel _
  | true =>
      obtain ⟨fuel, rfl⟩ := Nat.exists_eq_add_of_le' (Nat.le_trans (by decide : 1 ≤ 4) hfuel)
      exact skipValue_cons rfl fuel _
  | false =>
      obtain ⟨fuel, rfl⟩ := Nat.exists_eq_add_of_le' (Nat.le_trans (by decide : 1 ≤ 5) hfuel)
      exact skipValue_cons rfl fuel _
  | @number w h =>
      obtain ⟨n, hn⟩ := exists_numeral h hrest
      obtain ⟨c, s, rfl, hc⟩ := exists_cons_of_isNumeral h
      obtain ⟨fuel, rfl⟩ := Nat.exists_eq_add_of_le' (Nat.le_trans (Nat.le_add_left 1 s.length) hfuel)
      have hlead : (c = '-' || c.isDigit) = true := by simpa using hc
      rw [List.cons_append] at hn ⊢
      rw [skipValue_cons (isSpace_of_leads hc), if_neg (ne_of_leads hc (by decide) rfl),
        if_neg (ne_of_leads hc (by decide) rfl), if_neg (ne_of_leads hc (by decide) rfl),
        if_neg (ne_of_leads hc (by decide) rfl), if_pos hlead, skipNumber, hn]
  | @string w h =>
      obtain ⟨fuel, rfl⟩ := Nat.exists_eq_add_of_le' (Nat.le_trans (Nat.le_add_left 1 _) hfuel)
      rw [List.cons_append, List.append_assoc, skipValue_cons rfl]
      exact skipString_append h rest
  | @array blank parts hblank hpadded h ih =>
      obtain ⟨fuel, rfl⟩ := Nat.exists_eq_add_of_le' (Nat.le_trans (Nat.le_add_left 1 _) hfuel)
      refine (skipValue_cons rfl fuel _).trans ?_
      refine reads_skipList (.inl rfl) (skips_skipValue fuel) hblank hfuel
        (fun p hp => ⟨hpadded p hp, (h p hp).begins, ?_⟩) rest
      have := length_core_le '[' ']' blank hp
      exact fun rest hrest => ih p hp (by omega) rest hrest
  | @object blank ms hblank hpadded hkeys h ih =>
      obtain ⟨fuel, rfl⟩ := Nat.exists_eq_add_of_le' (Nat.le_trans (Nat.le_add_left 1 _) hfuel)
      refine (skipValue_cons rfl fuel _).trans ?_
      refine reads_skipList (.inr rfl) (skips_skipMember fuel) hblank hfuel (fun p hp => ?_) rest
      obtain ⟨m, hm, rfl⟩ := List.mem_map.1 hp
      have := length_core_le '{' '}' blank hp
      have := m.length_value_lt
      refine ⟨⟨(hpadded m hm).lead, (hpadded m hm).tail⟩, m.begins_core, ?_⟩
      exact reads_skipMember (hpadded m hm) (hkeys m hm) fun rest hrest => ih m hm (by omega) rest hrest

end DesignTokens.Json
