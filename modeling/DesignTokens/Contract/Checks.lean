import DesignTokens.Contract.Fallback
import DesignTokens.Contract.Markup
import DesignTokens.Contract.Result
import DesignTokens.Contract.Router

/-!
The checks of the contract. Each looks at its own file or directory and has at least one result.
-/

namespace DesignTokens

/-- The checks. -/
inductive Check where
  | executor
  | richtext
  | figure
  | siteConfig
  | stylesheets
  | contractDocument
  deriving DecidableEq

namespace Check

/-- The checks in the order of the report. -/
def battery : List Check := [executor, richtext, figure, siteConfig, stylesheets, contractDocument]

/-- What a check says of a file that must exist. -/
def missingFile (label : String) (path : Path) : List CheckResult :=
  [⟨.fail, label, some ("Missing file: " ++ path.text)⟩]

/-- The dispatch of the executor is safe when it includes nothing by name, or only after a comparison with allowed
targets and with a marker for all others. -/
def dispatchResult (source : String) : CheckResult :=
  let s := source.toList
  if !Markup.hasItemInclude s then .pass "Executor: no include item.include usage"
  else if Markup.hasWhitelist s && mentions source "UNKNOWN_INCLUDE" then
    .pass "Executor: include dispatch is whitelisted (safe include item.include)"
  else ⟨.fail, "Executor: include item.include is unguarded (no whitelist detected)", none⟩

/-- The results on the source of the executor. -/
def executorResults (contract : RouterContract) (source : String) : List CheckResult :=
  let violations := contract.violations source
  [.pass "Executor exists",
   .gate (!Markup.hasEmptyDefault source.toList) "Executor: no `or {}` param defaults" .fail
     "Found `or {}` in executor",
   .gate (mentions source "EXECUTOR_ERROR") "Executor: missing params render EXECUTOR_ERROR comment" .fail
     "EXECUTOR_ERROR marker not found",
   .gate (mentions source "UNKNOWN_INCLUDE") "Executor: unknown include renders visible comment" .fail
     "UNKNOWN_INCLUDE marker not found",
   dispatchResult source,
   .gate violations.isEmpty "Executor: router invariant markers present" .fail ("; ".intercalate violations)]

/-- The results on the source of the richtext component. -/
def richtextResults (source : String) : List CheckResult :=
  let s := source.toList
  [.gate (!(Markup.hasSetDefault s || Markup.hasDefaultFilter s))
    "Richtext: no implicit defaults (`or \"...\"` or `| default()`)" .fail "Defaulting pattern detected"]

/-- The results on the source of the figure component. -/
def figureResults (source : String) : List CheckResult :=
  let s := source.toList
  [.gate (Markup.hasPhrase false true "<img".toList s) "Figure: uses passthrough <img>" .fail "No <img> found",
   .gate (!Markup.hasImageShortcode s) "Figure: no async image shortcode logic inside component" .fail "",
   .gate (mentions source "/assets/images/" && mentions source "FIGURE_ERROR")
     "Figure: warns if src not under /assets/images/" .warn ""]

/-- The results on the source of the site configuration. -/
def siteConfigResults (source : String) : List CheckResult :=
  [.gate (!Markup.hasImageShortcode source.toList)
    "Site config: async image shortcode inactive (stabilize baseline)" .warn ""]

/-- The results on the contract document. -/
def contractDocumentResults (source : String) : List CheckResult :=
  let s := source.toList
  [.gate
    (Markup.hasPhrase false false "figure-optimized".toList s && Markup.hasPhrase true true "srcFile".toList s &&
      Markup.hasPhrase true true "src".toList s)
    "CONTRACT: image split policy documented (src vs srcFile)" .warn
    "Could not confirm figure-optimized/srcFile policy text"]

/-- How many lookups with fallbacks the stylesheets of a directory have. -/
def fallbackCount (d : Disk) (root dir : Path) : Nat :=
  FallbackHit.total (d.scanFallbacks root ⟨[dir], ["scss"]⟩)

/-- How often known typing errors occur in a file. -/
def typosIn (typos : List String) (file : Path × ByteArray) : Nat :=
  match Disk.listedText? file with
  | some s => typos.foldr (fun typo n => Text.count s.toList typo.toList + n) 0
  | none => 0

/-- How often known typing errors occur in the stylesheets of a directory. -/
def typoCount (d : Disk) (root dir : Path) (typos : List String) : Nat :=
  (d.filesBelow (root.join dir) ["scss"]).foldr (fun f n => typosIn typos f + n) 0

/-- The results on the directory of the stylesheets. -/
def stylesheetResults (d : Disk) (root : Path) (layout : Layout) : List CheckResult :=
  let dir := layout.stylesheetDir
  if d.isDirectory (root.join dir) then
    let fallbacks := fallbackCount d root dir
    let typos := typoCount d root dir layout.knownTypos
    [.gate (fallbacks == 0) "SCSS: no var(--token, fallback) usage" .fail
       ("Found " ++ toString fallbacks ++ " fallback usages"),
     .gate (typos == 0) "SCSS: no known token typos" .fail ("Found " ++ toString typos ++ " token typos")]
  else [⟨.fail, "Stylesheet root exists", some ("Missing folder: " ++ dir.text)⟩]

/-- The results of one check. -/
def run (check : Check) (d : Disk) (root : Path) (layout : Layout) : List CheckResult :=
  let files := layout.collaborators
  let source? (path : Path) := d.textOf? (root.join path)
  match check with
  | executor =>
    match source? files.executor with
    | some source => executorResults layout.router source
    | none => missingFile "Executor exists" files.executor
  | richtext =>
    match source? files.richtext with
    | some source => richtextResults source
    | none => [⟨.warn, "Richtext component not present (skipped)", none⟩]
  | figure =>
    match source? files.figure with
    | some source => figureResults source
    | none => missingFile "Figure component exists" files.figure
  | siteConfig =>
    match source? files.siteConfig with
    | some source => siteConfigResults source
    | none => [⟨.warn, "Site config missing (skipped)", none⟩]
  | stylesheets => stylesheetResults d root layout
  | contractDocument =>
    match source? files.contract with
    | some source => contractDocumentResults source
    | none => missingFile (files.contract.text ++ " exists") files.contract

end Check

end DesignTokens
