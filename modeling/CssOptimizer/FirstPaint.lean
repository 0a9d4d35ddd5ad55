import CssOptimizer.Selector
import CssOptimizer.Sheet.Print

/-!
# What the first paint needs

A stylesheet is cut into the nodes that the first paint needs and the nodes that can load later.

* `FirstPaint.isNeeded`   whether a node is needed, given the class names above the fold;
* `FirstPaint.split`      both halves as nodes;
* `FirstPaint.render`     both halves as texts, the theme before the first one.

Main statement: every node is in exactly one half, in order (`split_fst`, `split_snd`).
-/

namespace CssOptimizer.FirstPaint

/-- a class name above the fold: it may be written with dots before it -/
def className (name : String) : String :=
  Text.onString (fun cs => (Text.trim cs).dropWhile (· == '.')) name

/-- a `:root` rule that declares custom properties -/
def declaresTheme (selector : String) (body : List Declaration) : Bool :=
  Text.onString Text.trim selector == ":root" && body.any Declaration.isCustomProperty

/-- whether a component of the selector names a wanted class -/
def namesWanted (wanted : List String) (selector : String) : Bool :=
  (Selector.components selector).any fun component =>
    (Selector.classes component).any (wanted.contains ·)

/-- whether a node is needed: rules of wanted classes, the theme, and resources -/
def isNeeded (wanted : List String) (node : Node) : Bool :=
  match node with
  | .rule selector body => declaresTheme selector body || namesWanted wanted selector
  | .atRule _ _ _ => node.isResource
  | .declaration _ => false

def split (aboveFold : List String) (nodes : List Node) : List Node × List Node :=
  nodes.partition (isNeeded (aboveFold.map className))

theorem split_fst (aboveFold : List String) (nodes : List Node) :
    (split aboveFold nodes).1 = nodes.filter (isNeeded (aboveFold.map className)) := by
  simp [split, List.partition_eq_filter_filter]

theorem split_snd (aboveFold : List String) (nodes : List Node) :
    (split aboveFold nodes).2 = nodes.filter (!isNeeded (aboveFold.map className) ·) := by
  simp [split, List.partition_eq_filter_filter]
  rfl

/-! ## texts -/

/-- both halves of a stylesheet as texts -/
structure Halves where
  critical : String
  deferred : String
  deriving DecidableEq, Inhabited

/-- the theme before the critical nodes; printed over several lines, it ends its own line -/
def behindTheme (theme : Option String) (minify : Bool) (critical : List Node) : String :=
  match theme with
  | none => printSheet minify critical
  | some css =>
    let gap := !minify && !("\n".toList.isSuffixOf css.toList) && !critical.isEmpty
    css ++ (if gap then "\n" else "") ++ printSheet minify critical

def render (aboveFold : List String) (theme : Option String) (minify : Bool)
    (nodes : List Node) : Halves :=
  let (critical, deferred) := split aboveFold nodes
  ⟨behindTheme theme minify critical, printSheet minify deferred⟩

end CssOptimizer.FirstPaint
