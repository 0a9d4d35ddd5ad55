import CssOptimizer.Atomic.Naming
import CssOptimizer.Sheet.Node

/-!
# Atomic classes

A declaration that stands under at least three different selectors is worth a class of its own.

* `tally`               the selectors of each declaration key, in order of appearance;
* `frequentKeys`        the keys with enough selectors;
* `factorFrequent`      the atomic rules, which selector they stand for, and the rules without the
                        declarations they took over.

Only rules at the top count: an atomic class cannot carry the condition of an at-rule.
-/

namespace CssOptimizer

/-- the number of different selectors that makes a declaration worth a class -/
def minimumSelectors : Nat := 3

/-! ## the tally -/

/-- a list with one more member, which comes last if it is new -/
def addOnce {α : Type} [DecidableEq α] (xs : List α) (x : α) : List α :=
  if x ∈ xs then xs else xs ++ [x]

/-- the selectors of each declaration key -/
abbrev Tally := InsertionMap DeclarationKey (List String)

/-- note that a rule declares a key -/
def noteDeclaration (selector : String) (tally : Tally) (d : Declaration) : Tally :=
  tally.amend d.key fun selectors => addOnce (selectors.getD []) selector

/-- note all declarations of a rule -/
def noteNode (tally : Tally) : Node → Tally
  | .rule selector body => body.foldl (noteDeclaration selector) tally
  | _ => tally

def tally (nodes : List Node) : Tally := nodes.foldl noteNode []

def frequentKeys (t : Tally) : List DeclarationKey :=
  (t.filter fun entry => minimumSelectors ≤ entry.2.length).map Prod.fst

/-! ## composition -/

/-- the atomic classes that stand for declarations of each selector -/
abbrev Composition := InsertionMap String (List String)

/-- note that a selector has a declaration that an atomic class may stand for -/
def composeDeclaration (named : InsertionMap DeclarationKey String) (selector : String)
    (composed : Composition) (d : Declaration) : Composition :=
  match named.at? d.key with
  | none => composed
  | some name => composed.amend selector fun names => addOnce (names.getD []) name

def composeNode (named : InsertionMap DeclarationKey String) (composed : Composition) :
    Node → Composition
  | .rule selector body => body.foldl (composeDeclaration named selector) composed
  | _ => composed

/-- the atomic classes of each selector, in order of first use -/
def compose (named : InsertionMap DeclarationKey String) (nodes : List Node) : Composition :=
  nodes.foldl (composeNode named) []

/-! ## factoring -/

/-- the rule of an atomic class -/
def atomicRule (entry : DeclarationKey × String) : Node :=
  .rule ("." ++ entry.2) [⟨entry.1.property, entry.1.value⟩]

/-- a node without the declarations that atomic classes stand for; a rule left empty goes -/
def withoutNamed (named : InsertionMap DeclarationKey String) : Node → Option Node
  | .rule selector body =>
    let left := body.filter fun d => (named.at? d.key).isNone
    if left.isEmpty then none else some (.rule selector left)
  | node => some node

/-- a stylesheet with its frequent declarations factored out -/
structure Factored where
  /-- one rule for each atomic class -/
  rules : List Node
  /-- the classes that stand for declarations of each selector -/
  composition : Composition
  /-- the nodes without the declarations taken over, if they were asked for -/
  stripped : Option (List Node)

/-- the whole stylesheet after factoring: the atomic rules come first -/
def Factored.nodes (e : Factored) (before : List Node) : List Node :=
  e.rules ++ e.stripped.getD before

/-- the names of the keys that are worth a class -/
def nameFrequent (hash : String → String) (naming : ClassNaming) (nodes : List Node) :
    InsertionMap DeclarationKey String :=
  NameSupply.drawAll hash naming {} (frequentKeys (tally nodes))

def factorFrequent (hash : String → String) (naming : ClassNaming) (strip : Bool)
    (nodes : List Node) : Factored :=
  let named := nameFrequent hash naming nodes
  { rules := named.map atomicRule
    composition := compose named nodes
    stripped := if strip then some (nodes.filterMap (withoutNamed named)) else none }

end CssOptimizer
