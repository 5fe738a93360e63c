import DesignTokens.Assoc
import DesignTokens.Path
import DesignTokens.Text.Blank
import DesignTokens.Text.Scan
import DesignTokens.Contract.Markup

/-!
Generated documents: the targets that a router allows, and the stylesheets as they are.
-/

namespace DesignTokens

/-- A comparison of the included item with a target: white space before and after the equals signs, the quotation
marks, and what stands between them. -/
structure Comparison where
  before : List Char
  after : List Char
  opening : Char
  target : List Char
  closing : Char
  deriving DecidableEq

namespace Comparison

/-- What is compared. -/
def subject : List Char := ['i', 't', 'e', 'm', '.', 'i', 'n', 'c', 'l', 'u', 'd', 'e']

/-- The comparison as it stands in the text. -/
def text (c : Comparison) : List Char :=
  subject ++ c.before ++ '=' :: '=' :: c.after ++ c.opening :: c.target ++ [c.closing]

/-- A target of at least one character and the quotation marks around it, which may differ. -/
def readQuoted : List Char → Option ((Char × List Char × Char) × List Char)
  | [] => none
  | q :: s =>
    match s.dropWhile (!Markup.isQuote ·) with
    | q' :: rest =>
      let target := s.takeWhile (!Markup.isQuote ·)
      if Markup.isQuote q && target != [] then some ((q, target, q'), rest) else none
    | [] => none

/-- A comparison. -/
def read (s : List Char) : Option (Comparison × List Char) :=
  match Text.dropLit? subject s with
  | some s =>
    match s.dropWhile Text.isBlank with
    | '=' :: '=' :: r =>
      match readQuoted (r.dropWhile Text.isBlank) with
      | some ((q, target, q'), rest) =>
        some (⟨s.takeWhile Text.isBlank, r.takeWhile Text.isBlank, q, target, q'⟩, rest)
      | none => none
    | _ => none
  | none => none

theorem append_of_readQuoted {s target r : List Char} {q q' : Char}
    (h : readQuoted s = some ((q, target, q'), r)) : q :: target ++ q' :: r = s := by
  cases s with
  | nil => cases h
  | cons c s =>
    simp only [readQuoted] at h
    split at h
    · next c' rest hd =>
      split at h
      · cases h
        rw [List.cons_append, ← hd, List.takeWhile_append_dropWhile]
      · cases h
    · cases h

theorem text_append_of_read {s r : List Char} {c : Comparison} (h : read s = some (c, r)) : c.text ++ r = s := by
  unfold read at h
  split at h
  · next s' hs =>
    split at h
    · next r' hr =>
      split at h
      · next q target q' rest hq =>
        cases h
        have hq := append_of_readQuoted hq
        have hs' : s'.takeWhile Text.isBlank ++
            '=' :: '=' :: (r'.takeWhile Text.isBlank ++ (q :: target ++ q' :: r)) = s' := by
          rw [hq, List.takeWhile_append_dropWhile, ← hr, List.takeWhile_append_dropWhile]
        rw [Text.dropLit?_eq_some_iff.1 hs]
        refine Eq.trans ?_ (congrArg (subject ++ ·) hs')
        simp [text]
      · cases h
    · cases h
  · cases h

/-- Comparisons as a pattern of texts. -/
def pattern : Text.Pattern Comparison where
  read := read
  text := text
  text_append := text_append_of_read
  text_ne_nil _ := by simp [text]

end Comparison

namespace Docs

/-- The targets that a router compares with, each once and in order. -/
def whitelistedIncludes (source : String) : List String :=
  (Assoc.ofList ((Comparison.pattern.hits source.toList).map fun c => (String.ofList c.target, ()))).map Prod.fst

/-- A text between back quotes. -/
def code (s : String) : String := "`" ++ s ++ "`"

/-- The document on the targets of the router at `path`, if it exists. -/
def routerMap (path : Path) (source : Option String) : String :=
  match source with
  | none => "# ROUTER_MAP (generated)\n\nFAIL: missing source file " ++ code path.text ++ "\n"
  | some source =>
    let listing :=
      match whitelistedIncludes source with
      | [] => "- (none found)"
      | includes => "\n".intercalate (includes.map fun target => "- " ++ code target)
    "# ROUTER_MAP (generated)\n\nSource: " ++ code path.text ++ "\n\n## Whitelisted includes\n" ++ listing ++
      "\n\n## Notes\n- This file is generated. Edit the router, not this doc.\n" ++
      "- Whitelist is derived from comparisons of " ++ code "item.include == \"…\"" ++ " inside the executor.\n"

/-- The section on a file, if it exists. -/
def snapshotSection (path : Path) (content : Option String) : String :=
  match content with
  | some text => "## " ++ path.text ++ "\n\n```scss\n" ++ .ofList (Text.trimEnd text.toList) ++ "\n```"
  | none => "## " ++ path.text ++ "\n\nMissing file."

/-- The document on stylesheets as they are. -/
def tokensSnapshot (sections : List (Path × Option String)) : String :=
  "# TOKENS_SNAPSHOT (generated)\n\nSnapshots of generated token files for diffing.\n\n" ++
    "\n\n".intercalate (sections.map fun s => snapshotSection s.1 s.2) ++ "\n"

end Docs

end DesignTokens
