import CssOptimizer.Collection.NameSet
import CssOptimizer.Selector
import CssOptimizer.Sheet.Node

/-!
# Usage

What markup uses of a stylesheet: classes, ids, tags in lower case, and data attributes without
`data-`.

* `Usage.merge`, `Usage.mergeAll`   the union of usages;
* `Usage.covers`                    whether a selector may match something in the markup;
* `removeUnused`                    a stylesheet without the rules whose selectors are not covered.

Main statement: removal only drops rules (`removeUnused_sublist`).
-/

namespace CssOptimizer

/-- the names that markup uses -/
structure Usage where
  classes : NameSet := ∅
  ids : NameSet := ∅
  tags : NameSet := ∅
  attributes : NameSet := ∅
  deriving DecidableEq, Inhabited

namespace Usage

def empty : Usage := {}

def isEmpty (u : Usage) : Bool :=
  u.classes.isEmpty && u.ids.isEmpty && u.tags.isEmpty && u.attributes.isEmpty

def merge (u v : Usage) : Usage where
  classes := u.classes ∪ v.classes
  ids := u.ids ∪ v.ids
  tags := u.tags ∪ v.tags
  attributes := u.attributes ∪ v.attributes

def mergeAll (us : List Usage) : Usage := us.foldl merge empty

theorem mem_merge_tags {u v : Usage} {a : String} :
    a ∈ (u.merge v).tags ↔ a ∈ u.tags ∨ a ∈ v.tags := NameSet.mem_union
/-! ## selectors -/

/-- whether a component is global, or one of its classes, its ids, its tag or one of its data
attributes is used -/
def coversComponent (u : Usage) (component : String) : Bool :=
  Selector.isGlobal component ||
  (Selector.classes component).any u.classes.contains ||
  (Selector.ids component).any u.ids.contains ||
  (Selector.tag? component).any u.tags.contains ||
  (Selector.dataAttributes component).any u.attributes.contains

def covers (u : Usage) (selector : String) : Bool :=
  (Selector.components selector).any u.coversComponent

/-- whether a node stays: a rule does if its selector is covered, other nodes always do -/
def keeps (u : Usage) : Node → Bool
  | .rule selector _ => u.covers selector
  | _ => true

end Usage

def removeUnused (u : Usage) (nodes : List Node) : List Node := nodes.filter u.keeps

theorem removeUnused_sublist (u : Usage) (nodes : List Node) :
    (removeUnused u nodes).Sublist nodes := List.filter_sublist

end CssOptimizer
