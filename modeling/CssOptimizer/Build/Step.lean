import CssOptimizer.Build.ModuleUsage
import CssOptimizer.Collection.InsertionMap
import CssOptimizer.Files.Emit
import CssOptimizer.Registry
import CssOptimizer.Usage.Jsx

/-!
# The build step

A build shows its modules one by one, and at the end the stylesheet of a registry is put out,
optimized for what the modules use.

* `Bundle.emit`          put a file out, over an older one of that name; `Bundle.get?` its text;
* `MarkupKind.ofId?`     how a module is scanned, by its path;
* `BuildStep.fresh`      a new build;
* `BuildStep.see`        scan a module; its code stays as it is;
* `BuildStep.generate`   put the stylesheet out, and its source map next to it.

Main statement: a file of a bundle reads back what was put out under its name last (`get?_emit`).
-/

namespace CssOptimizer

/-! ## bundles -/

/-- the files of a build, by name, in the order in which they were first put out -/
abbrev Bundle := InsertionMap String String

namespace Bundle

def emit (b : Bundle) (name source : String) : Bundle := InsertionMap.amend b name fun _ => source

def get? (b : Bundle) (name : String) : Option String := InsertionMap.at? b name

theorem get?_emit (b : Bundle) (name name' source : String) :
    (b.emit name source).get? name' = if name = name' then some source else b.get? name' :=
  InsertionMap.at?_amend b name name' _

end Bundle

/-! ## modules -/

/-- how a module is scanned -/
inductive MarkupKind where
  | html
  | jsx
  deriving DecidableEq, Repr

namespace MarkupKind

/-- directories that hold dependencies or output, not sources -/
def skippedDirectories : List String := ["node_modules", ".pnpm", "dist", ".cache"]

/-- how sources with an extension are scanned -/
def ofExtension? (extension : String) : Option MarkupKind :=
  if ["html", "htm"].contains extension then some .html
  else if ["jsx", "tsx", "js", "ts", "mdx", "zen"].contains extension then some .jsx
  else none

def ofId? (id : String) : Option MarkupKind :=
  if (Path.names id).any skippedDirectories.contains then none
  else (Path.extension? id).bind ofExtension?

/-- the usage of a source -/
def scan : MarkupKind → String → Usage
  | html, source => Usage.ofHtml source
  | jsx, source => Usage.ofJsx source

end MarkupKind

/-! ## the step -/

/-- a build that puts out the stylesheet of a registry -/
structure BuildStep where
  registry : Registry := {}
  theme : Option Theme := none
  options : Options := {}
  fileName : String := "styles.css"
  modules : ModuleUsage := {}

namespace BuildStep

/-- the name of the build step -/
def name : String := toolName

def fresh (x : BuildStep) : BuildStep := { x with modules := {} }

def see (x : BuildStep) (id code : String) : BuildStep :=
  match MarkupKind.ofId? id with
  | none => x
  | some kind => { x with modules := (x.modules.insert id (kind.scan code)).2 }

/-- what the modules use, if any was seen -/
def usage (x : BuildStep) : Option Usage :=
  if x.modules.isEmpty then none else some x.modules.merged

/-- the stylesheet of the registry, optimized for what the modules use -/
def outcome (x : BuildStep) : Outcome := x.registry.optimized x.theme x.usage x.options

def generate (x : BuildStep) (b : Bundle) : Except Json.Failure Bundle := do
  let files ← x.outcome.files x.fileName
  let b := b.emit x.fileName files.css
  match files.map with
  | none => return b
  | some map => return b.emit (mapPath x.fileName) map

end BuildStep
end CssOptimizer
