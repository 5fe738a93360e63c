import DesignTokens.Text.Blank
import DesignTokens.Text.Search
import DesignTokens.Text.Word

/-!
Turns of phrase in templates and documents that the contract asks for or forbids.
-/

namespace DesignTokens.Markup

open Text

/-- Quotation marks of templates. -/
def isQuote (c : Char) : Bool := c == '"' || c == '\''

/-- What follows one of two quotation marks. -/
def dropQuote? : List Char → Option (List Char)
  | [] => none
  | c :: s => if isQuote c then some s else none

/-- `or {}`, which makes an empty object the default. -/
def hasEmptyDefault (s : List Char) : Bool :=
  holdsAt (fun before r =>
    atBoundary before r &&
      (do
        let r ← dropLit? "or".toList r
        let r ← dropLit? ['{'] (trimStart r)
        dropLit? ['}'] (trimStart r)).isSome) none s

/-- `include item.include`, which includes what the content asks for. -/
def hasItemInclude (s : List Char) : Bool :=
  holdsSomewhere (fun r =>
    (do
      let r ← dropLit? "include".toList r
      let r ← dropBlanks? r
      dropLit? "item.include".toList r).isSome) s

/-- What follows `item.include == ` and a quotation mark. -/
def dropItemComparison? (s : List Char) : Option (List Char) := do
  let r ← dropLit? "item.include".toList s
  let r ← dropLit? "==".toList (trimStart r)
  dropQuote? (trimStart r)

/-- `item.include == "components/…`, a comparison with an allowed target. -/
def hasWhitelist (s : List Char) : Bool :=
  holdsSomewhere (fun r => (dropItemComparison? r >>= dropLit? "components/".toList).isSome) s

/-- Whether the word `or` and then a quotation mark occur in a text after the character `before`. -/
def hasOrText (before : Char) (s : List Char) : Bool :=
  holdsAt (fun before r =>
    atBoundary before r &&
      match dropLit? "or".toList r with
      | some rest => atBoundary (some 'r') rest && rest.any isQuote
      | none => false) (some before) s

/-- `set name = … or "…"` in a tag, which makes a text the default. -/
def hasSetDefault (s : List Char) : Bool :=
  holdsSomewhere (fun r =>
    (do
      let r ← dropLit? ['{', '%'] r
      let r ← dropLit? "set".toList (trimStart r)
      let r ← dropBlanks? r
      let rest ← if (r.takeWhile isWord).isEmpty then none else some (r.dropWhile isWord)
      let r ← dropLit? ['='] (trimStart rest)
      return hasOrText '=' (r.takeWhile (· != '%'))).getD false) s

/-- `| default(`, the filter of defaults. -/
def hasDefaultFilter (s : List Char) : Bool :=
  holdsSomewhere (fun r =>
    (do
      let r ← dropLit? ['|'] r
      let r ← dropLit? "default".toList (trimStart r)
      dropLit? ['('] (trimStart r)).isSome) s

/-- The shortcode that makes images while pages are built. -/
def hasImageShortcode (s : List Char) : Bool :=
  holdsSomewhere (fun r =>
    (do
      let r ← dropLit? "addNunjucksAsyncShortcode(".toList r
      let r ← dropQuote? (trimStart r)
      let r ← dropLit? "image".toList r
      dropQuote? r).isSome) s

/-- Whether a character is the small letter `a` without regard to case; the long s is a letter s. -/
def foldsTo (a c : Char) : Bool := c.toLower == a.toLower || (a.toLower == 's' && c == 'ſ')

/-- What follows `lit` at the front of a text, without regard to case. -/
def dropFolded? : List Char → List Char → Option (List Char)
  | [], s => some s
  | _ :: _, [] => none
  | a :: lit, c :: s => if foldsTo a c then dropFolded? lit s else none

/-- Whether a text has a phrase without regard to case, with the boundaries of words asked for. -/
def hasPhrase (wordBefore wordAfter : Bool) (phrase : List Char) (s : List Char) : Bool :=
  holdsAt (fun before r =>
    (!wordBefore || atBoundary before r) &&
      match dropFolded? phrase r with
      | some rest => !wordAfter || atBoundary (phrase.getLast?) rest
      | none => false) none s

end DesignTokens.Markup
