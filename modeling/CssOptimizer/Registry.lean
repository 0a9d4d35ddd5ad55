import CssOptimizer.Optimize
import CssOptimizer.FirstPaint
import CssOptimizer.Theme
import CssOptimizer.Usage.Html

/-!
# Registered styles

A registry gives out a class for each declaration body that is registered, always the same one
for the same declarations, and keeps global blocks once each.

* `Registry.addStyle`    register a declaration body; answers with its id and class;
* `Registry.addBlock`    register a global block; answers with its id;
* `Registry.classOf?`, `Registry.bodyOf?`   from an id to its class, from a class to its body;
* `Registry.nodes`       everything registered, in order;
* `Registry.optimized`   everything registered, behind a theme, optimized;
* `Registry.critical`    what the first paint of some HTML needs.

Blocks are told apart by a hash of texts, which is a parameter.

Main statement: a body that was registered has the class that was answered
(`find?_addStyle`).
-/

namespace CssOptimizer

/-- what identifies registered content: its kind and the hash of its text -/
inductive StyleKey where
  | style (digest : String)
  | global (digest : String)
  deriving DecidableEq

/-- a registered block; global blocks have no class -/
structure RegisteredBlock where
  key : StyleKey
  id : Nat
  className : Option String
  nodes : List Node
  deriving DecidableEq

/-- the answer to a registration -/
structure IssuedClass where
  id : Nat
  className : String
  deriving DecidableEq

/-- registered blocks in order of their ids, and the id of the next one -/
structure Registry where
  classPrefix : String := "zx-"
  entries : List RegisteredBlock := []
  nextId : Nat := 0

namespace Registry

/-- the declaration keys of a body, joined by semicolons -/
def bodyText (body : List Declaration) : String :=
  ";".intercalate (body.map fun d => d.key.text)

/-- the entry of a key -/
def find? (r : Registry) (key : StyleKey) : Option RegisteredBlock :=
  r.entries.find? (·.key = key)

/-- the registry with one more entry -/
def push (r : Registry) (key : StyleKey) (className : Option String) (nodes : List Node) :
    RegisteredBlock × Registry :=
  let entry := { key, id := r.nextId, className, nodes }
  (entry, { r with entries := r.entries ++ [entry], nextId := r.nextId + 1 })

/-- the entry of a key, which is made if there is none -/
def findOrPush (r : Registry) (key : StyleKey) (className : Option String)
    (nodes : List Node) : RegisteredBlock × Registry :=
  match r.find? key with
  | some entry => (entry, r)
  | none => r.push key className nodes

/-- the key of a body -/
def styleKey (hash : String → String) (body : List Declaration) : StyleKey :=
  .style (hash (bodyText body))

/-- the key of a global block -/
def globalKey (hash : String → String) (nodes : List Node) : StyleKey :=
  .global (hash (minified nodes))

/-- the class that the next body gets -/
def nextClass (r : Registry) : String := r.classPrefix ++ toString r.nextId

def addStyle (hash : String → String) (r : Registry) (text : String) : IssuedClass × Registry :=
  let body := parseDeclarations text
  let (entry, r) := r.findOrPush (styleKey hash body) (some r.nextClass)
    [.rule ("." ++ r.nextClass) body]
  (⟨entry.id, entry.className.getD ""⟩, r)

def addBlock (hash : String → String) (r : Registry) (css : String) : Nat × Registry :=
  let nodes := parse css
  let (entry, r) := r.findOrPush (globalKey hash nodes) none nodes
  (entry.id, r)

def classOf? (r : Registry) (id : Nat) : Option String :=
  (r.entries.find? (·.id = id)).bind (·.className)

def bodyOf? (r : Registry) (className : String) : Option String :=
  (r.entries.find? (·.className = some className)).map fun entry =>
    match entry.nodes with
    | .rule _ body :: _ => bodyText body
    | _ => ""

def nodes (r : Registry) : List Node := r.entries.flatMap (·.nodes)

def css (minify : Bool) (r : Registry) : String := printSheet minify r.nodes

def size (r : Registry) : Nat := r.entries.length

/-- the registry without entries; ids start from zero again -/
def clear (r : Registry) : Registry := { r with entries := [], nextId := 0 }

/-- the entry of a key after it was found or made -/
theorem find?_findOrPush (r : Registry) (key : StyleKey) (className : Option String)
    (nodes : List Node) :
    (r.findOrPush key className nodes).2.find? key =
      some (r.findOrPush key className nodes).1 := by
  unfold findOrPush
  cases h : r.find? key with
  | some entry => simpa using h
  | none =>
    have h' : r.entries.find? (fun e => decide (e.key = key)) = none := h
    simp [push, find?, List.find?_append, h']

theorem find?_addStyle (hash : String → String) (r : Registry) (text : String) :
    ((r.addStyle hash text).2.find? (styleKey hash (parseDeclarations text))).map
        (fun e => (⟨e.id, e.className.getD ""⟩ : IssuedClass)) =
      some (r.addStyle hash text).1 := by
  simp only [addStyle, find?_findOrPush, Option.map_some]

/-! ## stylesheets -/

/-- the theme, then everything registered -/
def sheet (r : Registry) (theme : Option Theme) : String :=
  (theme.map (Theme.css false)).getD "" ++ r.css false

def optimized (r : Registry) (theme : Option Theme) (usage : Option Usage) (options : Options) :
    Outcome := optimize options usage (r.sheet theme)

/-- what the first paint of some HTML needs: the theme, resources and the classes it uses -/
def critical (r : Registry) (theme : Option Theme) (minify : Bool) (html : String) : String :=
  let theme := (theme.map (Theme.css minify)).filter (!·.isEmpty)
  (FirstPaint.render (Usage.ofHtml html).classes.toList theme minify
    (parse (r.css true))).critical

end Registry
end CssOptimizer
