import DesignTokens.Legacy.Prune

/-!
The arguments of the command line: options, then one command.
-/

namespace DesignTokens.CommandLine

/-- A command. -/
inductive Command where
  | build
  | prune (policy : PrunePolicy)
  | check
  | scanFallbacks
  | checkRouter
  | docs
  | cleanDocs
  deriving DecidableEq

/-- A run that is asked for. -/
structure Invocation where
  root : Path
  config : Option Path
  command : Command
  deriving DecidableEq

/-- The options, each with one value. -/
inductive Opt where
  | root
  | config
  deriving DecidableEq

/-- The values of options given so far. -/
structure Options where
  root : Option String := none
  config : Option String := none
  deriving DecidableEq

/-- Gives an option its value, which must not be empty; no option may come twice. -/
def Options.set? (o : Options) (opt : Opt) (value : String) : Option Options :=
  if value = "" then none
  else
    match opt with
    | .root => if o.root.isSome then none else some { o with root := some value }
    | .config => if o.config.isSome then none else some { o with config := some value }

/-- A long option's value after an equals sign, or no value if there is no such sign. -/
def longValue? (opt : Opt) : List Char → Option (Opt × Option String)
  | [] => some (opt, none)
  | '=' :: value => some (opt, some (.ofList value))
  | _ => none

/-- A short option's value, which may follow an equals sign or stand at once. -/
def shortValue (opt : Opt) : List Char → Opt × Option String
  | [] => (opt, none)
  | '=' :: value => (opt, some (.ofList value))
  | value => (opt, some (.ofList value))

/-- The option of an argument, with the value if the argument holds it. -/
def option? (arg : List Char) : Option (Opt × Option String) :=
  match arg with
  | '-' :: 'r' :: value => some (shortValue .root value)
  | '-' :: 'c' :: value => some (shortValue .config value)
  | '-' :: '-' :: 'r' :: 'o' :: 'o' :: 't' :: value => longValue? .root value
  | '-' :: '-' :: 'c' :: 'o' :: 'n' :: 'f' :: 'i' :: 'g' :: value => longValue? .config value
  | _ => none

/-- Whether an argument looks like an option; a dash alone does not. -/
def looksLikeOption (arg : String) : Bool :=
  match arg.toList with
  | '-' :: _ :: _ => true
  | _ => false

/-- Takes the options off the front. -/
def takeOptions (o : Options) : List String → Option (Options × List String)
  | [] => some (o, [])
  | arg :: rest =>
    match option? arg.toList with
    | some (opt, some value) => (o.set? opt value).bind fun o => takeOptions o rest
    | some (opt, none) =>
      match rest with
      | [] => none
      | value :: rest =>
        if looksLikeOption value then none else (o.set? opt value).bind fun o => takeOptions o rest
    | none => some (o, arg :: rest)

/-- The arguments without the mark for the end of options, which may stand after them. -/
def dropEndMark (args : List String) : List String := if args.getLast? = some "--" then args.dropLast else args

/-- The command of the arguments after the options. -/
def command? (args : List String) : Option Command :=
  match dropEndMark args with
  | ["build"] => some .build
  | ["prune"] => some (.prune (.ofFlags false false))
  | ["prune", "--write"] => some (.prune (.ofFlags true false))
  | ["prune", "--write", "--in-place"] => some (.prune (.ofFlags true true))
  | ["prune", "--in-place", "--write"] => some (.prune (.ofFlags true true))
  | ["check"] => some .check
  | ["scan-fallbacks"] => some .scanFallbacks
  | ["check-router"] => some .checkRouter
  | ["docs"] => some .docs
  | ["clean-docs"] => some .cleanDocs
  | _ => none

/-- What arguments ask for, if they are used rightly. The root is the current directory unless another is given. -/
def Invocation.ofArguments (args : List String) : Option Invocation := do
  let (o, rest) ← takeOptions {} args
  return ⟨⟨o.root.getD "."⟩, o.config.map Path.mk, ← command? rest⟩

end DesignTokens.CommandLine
