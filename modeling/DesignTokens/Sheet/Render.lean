import DesignTokens.Sheet.Variable
import DesignTokens.Text.Fields
import DesignTokens.Token.Layer

/-!
Stylesheets: a comment that names the source, and one block of declarations, each on its own line.
-/

namespace DesignTokens

/-- What the comment says about a layer. -/
def Layer.headings : Layer → List String
  | .primitives => ["Primitives (a.k.a. Base / Core / Foundations)", "Raw values. No meaning. No intent."]
  | .semantic => ["Semantic assignments (a.k.a. Alias / System)", "Intent-based usage tokens."]
  | .component => ["Component assignments", "Component-specific usage tokens."]

namespace Sheet

/-- The lines before the declarations. -/
def headerLines (layer : Layer) (fileLabel sourceLabel : String) : List String :=
  ["/* ----------------------------------", " * " ++ fileLabel] ++ layer.headings.map (" * " ++ ·) ++
    [" *", " * This file is AUTO-GENERATED from", " * " ++ sourceLabel ++ ".",
     " * DO NOT edit this file directly.", " * ----------------------------------*/", "", r":root {"]

/-- The line of a declaration. -/
def declarationLine (v : Variable) : String := "  " ++ v.name ++ ": " ++ v.value ++ ";"

/-- A stylesheet of variables in the order given. -/
def render (layer : Layer) (fileLabel sourceLabel : String) (vars : List Variable) : String :=
  Text.joinWith '\n' (headerLines layer fileLabel sourceLabel ++ vars.map declarationLine ++ [r"}", ""])

end Sheet

end DesignTokens
