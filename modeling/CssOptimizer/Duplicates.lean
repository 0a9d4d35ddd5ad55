import CssOptimizer.Sheet.Node

/-!
# Rules with the same declarations

Rules whose bodies have the same declaration keys in the same order are merged into the first of
them, which then carries the selectors of all.

* `blockKey`          the keys of a body as one text;
* `selectorsWithKey`  the selectors of the rules with a given block key;
* `mergeDuplicates`   a stylesheet with such rules merged.

Main statement: merging a list that starts with something else than a rule leaves that node in
its place (`mergeFrom_of_not_rule`).
-/

namespace CssOptimizer

def blockKey (body : List Declaration) : String :=
  String.join (body.map fun d => d.key.text ++ ";")

def selectorsWithKey (key : String) : List Node → List String
  | [] => []
  | .rule selector body :: nodes =>
    if blockKey body = key then selector :: selectorsWithKey key nodes
    else selectorsWithKey key nodes
  | _ :: nodes => selectorsWithKey key nodes

/-- selectors as one selector list -/
def joinSelectors (selectors : List String) : String := ", ".intercalate selectors

/-- merge rules with the same block key; rules with a key in `seen` are merged already -/
def mergeFrom (seen : List String) : List Node → List Node
  | [] => []
  | .rule selector body :: nodes =>
    let key := blockKey body
    if key ∈ seen then mergeFrom seen nodes
    else .rule (joinSelectors (selector :: selectorsWithKey key nodes)) body ::
      mergeFrom (key :: seen) nodes
  | node :: nodes => node :: mergeFrom seen nodes

/-- a stylesheet in which the first rule with a block key carries the selectors of all rules with
this key -/
def mergeDuplicates (nodes : List Node) : List Node := mergeFrom [] nodes

theorem mergeFrom_nil (seen : List String) : mergeFrom seen [] = [] := rfl

theorem mergeFrom_rule (seen : List String) (selector : String) (body : List Declaration)
    (nodes : List Node) :
    mergeFrom seen (.rule selector body :: nodes) =
      if blockKey body ∈ seen then mergeFrom seen nodes
      else .rule (joinSelectors (selector :: selectorsWithKey (blockKey body) nodes)) body ::
        mergeFrom (blockKey body :: seen) nodes := rfl

theorem mergeFrom_of_not_rule (seen : List String) (node : Node) (nodes : List Node)
    (h : node.isRule = false) :
    mergeFrom seen (node :: nodes) = node :: mergeFrom seen nodes := by
  cases node with
  | rule s b => simp [Node.isRule] at h
  | declaration d => rfl
  | atRule n p c => rfl

end CssOptimizer
