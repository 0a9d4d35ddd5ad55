import CssOptimizer.Sheet.Node

/-!
# Printing stylesheets

* `Declaration.print`   a declaration with a given separator;
* `minified`            nodes without any blank that can be left out;
* `pretty`              nodes with one declaration a line, inner ones indented by two spaces;
* `printSheet`          either of the two.

Selectors and parameters are printed as they are.
-/

namespace CssOptimizer

namespace Declaration

def print (separator : String) (d : Declaration) : String := d.property ++ separator ++ d.value

end Declaration

/-! ## minified -/

/-- the parameters of a minified at-rule: a blank stands before them unless a parenthesis does -/
def minifiedParams (params : String) : String :=
  match params.toList with
  | [] => ""
  | '(' :: _ => params
  | _ => " " ++ params

mutual

def Node.minified : Node → String
  | .declaration d => d.print ":"
  | .rule selector body =>
    selector ++ "\x7b" ++ ";".intercalate (body.map (·.print ":")) ++ "\x7d"
  | .atRule name params children =>
    "@" ++ name ++ minifiedParams params ++ "\x7b" ++ minified children ++ "\x7d"

/-- nodes without any blank that can be left out; a semicolon stands behind each declaration
that is not the last node -/
def minified : List Node → String
  | [] => ""
  | [node] => node.minified
  | node :: next :: rest =>
    node.minified ++ (if node.isDeclaration then ";" else "") ++ minified (next :: rest)

end

/-! ## pretty -/

/-- the indentation of a line -/
def indent (depth : Nat) : String := String.ofList (List.replicate (2 * depth) ' ')

/-- a declaration on a line of its own -/
def Declaration.line (depth : Nat) (d : Declaration) : String :=
  indent depth ++ d.print ": " ++ ";\n"

/-- the parameters of an at-rule with a blank before them -/
def spacedParams (params : String) : String := if params.isEmpty then "" else " " ++ params

mutual

def Node.pretty (depth : Nat) : Node → String
  | .declaration d => d.line depth
  | .rule selector body =>
    indent depth ++ selector ++ " \x7b\n" ++ String.join (body.map (·.line (depth + 1))) ++
      indent depth ++ "\x7d\n"
  | .atRule name params children =>
    indent depth ++ "@" ++ name ++ spacedParams params ++ " \x7b\n" ++
      pretty (depth + 1) children ++ indent depth ++ "\x7d\n"

def pretty (depth : Nat) : List Node → String
  | [] => ""
  | node :: rest => node.pretty depth ++ pretty depth rest

end

def printSheet (minify : Bool) (nodes : List Node) : String :=
  if minify then minified nodes else pretty 0 nodes

theorem minified_nil : minified [] = "" := rfl
theorem pretty_nil (depth : Nat) : pretty depth [] = "" := rfl
theorem pretty_cons (depth : Nat) (node : Node) (rest : List Node) :
    pretty depth (node :: rest) = node.pretty depth ++ pretty depth rest := rfl
theorem pretty_append (depth : Nat) (a b : List Node) :
    pretty depth (a ++ b) = pretty depth a ++ pretty depth b := by
  induction a with
  | nil => simp [pretty_nil]
  | cons node a ih => rw [List.cons_append, pretty_cons, pretty_cons, ih, String.append_assoc]

end CssOptimizer
