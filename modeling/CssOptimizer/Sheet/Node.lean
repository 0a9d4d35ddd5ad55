import CssOptimizer.Sheet.Declaration
import CssOptimizer.Text.Classes

/-!
# Stylesheets

A stylesheet is a list of nodes.  Selectors and the parameters of at-rules are texts; only
declarations are taken apart.

* `Node`                  a declaration, a style rule or an at-rule;
* `Node.selector?`        the selector of a style rule;
* `Node.isResource`       at-rules that define something referred to by name;
* `ruleCount`             the number of style rules at the top.
-/

namespace CssOptimizer

/-- a node of a stylesheet: the body of a rule holds declarations only, an at-rule holds nodes -/
inductive Node where
  | declaration (d : Declaration)
  | rule (selector : String) (body : List Declaration)
  | atRule (name params : String) (children : List Node)
  deriving Inhabited

namespace Node

mutual

/-- equality of nodes is decided part by part -/
def decideEq : (a b : Node) → Decidable (a = b)
  | .declaration d, .declaration e =>
    if h : d = e then .isTrue (by rw [h]) else .isFalse (by simp [h])
  | .rule s xs, .rule t ys =>
    if h : s = t ∧ xs = ys then .isTrue (by rw [h.1, h.2]) else .isFalse (by simpa using h)
  | .atRule n p xs, .atRule m q ys =>
    match decideEqAll xs ys with
    | .isTrue hx =>
      if h : n = m ∧ p = q then .isTrue (by rw [h.1, h.2, hx])
      else .isFalse (by simp only [atRule.injEq]; exact fun e => h ⟨e.1, e.2.1⟩)
    | .isFalse hx => .isFalse (by simp only [atRule.injEq]; exact fun e => hx e.2.2)
  | .declaration _, .rule _ _ => .isFalse (by simp)
  | .declaration _, .atRule _ _ _ => .isFalse (by simp)
  | .rule _ _, .declaration _ => .isFalse (by simp)
  | .rule _ _, .atRule _ _ _ => .isFalse (by simp)
  | .atRule _ _ _, .declaration _ => .isFalse (by simp)
  | .atRule _ _ _, .rule _ _ => .isFalse (by simp)

/-- equality of lists of nodes is decided node by node -/
def decideEqAll : (xs ys : List Node) → Decidable (xs = ys)
  | [], [] => .isTrue rfl
  | [], _ :: _ => .isFalse (by simp)
  | _ :: _, [] => .isFalse (by simp)
  | x :: xs, y :: ys =>
    match decideEq x y, decideEqAll xs ys with
    | .isTrue h, .isTrue hs => .isTrue (by rw [h, hs])
    | .isFalse h, _ => .isFalse (by simp [h])
    | _, .isFalse hs => .isFalse (by simp [hs])

end

instance : DecidableEq Node := decideEq

/-! ## kinds of nodes -/

def isRule : Node → Bool
  | .rule _ _ => true
  | _ => false

def isDeclaration : Node → Bool
  | .declaration _ => true
  | _ => false

def selector? : Node → Option String
  | .rule selector _ => some selector
  | _ => none

/-- an at-rule name without its vendor mark: `-vendor-name` is read as `name` -/
def withoutVendor : List Char → List Char
  | '-' :: rest =>
    match Text.cutAt (· == '-') rest with
    | some (_, _, bare) => bare
    | none => '-' :: rest
  | name => name

/-- `@font-face` and `@keyframes`, with or without a vendor mark and in any case, define
something that is referred to by name and not by a selector -/
def isResource : Node → Bool
  | .atRule name _ _ =>
    let bare := Text.lowerAscii (withoutVendor name.toList)
    bare == "font-face".toList || bare == "keyframes".toList
  | _ => false

end Node

def ruleCount (nodes : List Node) : Nat := nodes.countP Node.isRule

end CssOptimizer
