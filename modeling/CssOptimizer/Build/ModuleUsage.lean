import CssOptimizer.Collection.NameMap
import CssOptimizer.Usage.Basic

/-!
# Usage by module

A build keeps the usage of each module it has seen, and which modules changed since it last
asked.

* `ModuleUsage.insert`, `ModuleUsage.remove`   set or remove the usage of a module; both answer
                                               with the usage before, and mark it as changed;
* `ModuleUsage.takeChange`   whether a module changed; asking takes the mark away;
* `ModuleUsage.merged`       the union of all usages.

Main statements: what a module's usage is after each step (`get?_insert`, `get?_remove`,
`get?_takeChange`).
-/

namespace CssOptimizer

/-- the usage of each module, and the modules that changed since they were last asked about -/
structure ModuleUsage where
  usages : NameMap Usage := ∅
  changed : NameSet := ∅
  deriving Inhabited

namespace ModuleUsage

def get? (c : ModuleUsage) (id : String) : Option Usage := c.usages.get? id

def insert (c : ModuleUsage) (id : String) (usage : Usage) : Option Usage × ModuleUsage :=
  (c.get? id, { usages := c.usages.insert id usage, changed := c.changed.insert id })

def remove (c : ModuleUsage) (id : String) : Option Usage × ModuleUsage :=
  (c.get? id, { usages := c.usages.erase id, changed := c.changed.insert id })

def takeChange (c : ModuleUsage) (id : String) : Bool × ModuleUsage :=
  (c.changed.contains id, { c with changed := c.changed.erase id })

/-- whether any module changed since it was last asked about -/
def anyChanged (c : ModuleUsage) : Bool := !c.changed.isEmpty

def merged (c : ModuleUsage) : Usage := Usage.mergeAll c.usages.values

def size (c : ModuleUsage) : Nat := c.usages.size
def isEmpty (c : ModuleUsage) : Bool := c.usages.isEmpty

theorem get?_insert (c : ModuleUsage) (id id' : String) (usage : Usage) :
    (c.insert id usage).2.get? id' = if id = id' then some usage else c.get? id' :=
  NameMap.get?_insert _ _ _ _

theorem get?_remove (c : ModuleUsage) (id id' : String) :
    (c.remove id).2.get? id' = if id = id' then none else c.get? id' :=
  NameMap.get?_erase _ _ _

theorem get?_takeChange (c : ModuleUsage) (id id' : String) :
    (c.takeChange id).2.get? id' = c.get? id' := rfl

end ModuleUsage
end CssOptimizer
