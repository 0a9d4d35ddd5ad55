import CssOptimizer.Atomic.Naming

/-!
# Options

* `Options`             which steps an optimization takes, and how;
* `BuildProfile`        development, production, or a static site;
* `Options.ofProfile`   the options of a build profile.
-/

namespace CssOptimizer

structure Options where
  /-- drop rules that the usage does not cover -/
  purge : Bool := false
  /-- merge rules with the same declarations -/
  deduplicate : Bool := false
  /-- make classes of declarations that several selectors share -/
  atomic : Bool := false
  /-- how these classes are named -/
  atomicNaming : ClassNaming := .byContent
  /-- take the declarations of atomic classes out of the rules -/
  stripAtomic : Bool := false
  /-- print without blanks that can be left out -/
  minify : Bool := false
  /-- make a source map -/
  sourceMap : Bool := false
  /-- the name of the source in the source map -/
  sourceName : String := "styles.css"
  deriving DecidableEq, Inhabited

inductive BuildProfile where
  | development
  | production
  | staticSite
  deriving DecidableEq, Repr

namespace Options

/-- all steps that make a stylesheet smaller without touching its rules -/
def production : Options :=
  { purge := true, deduplicate := true, atomic := true, minify := true }

/-- the options of a build profile: nothing for development, every step for production, and a source
map in addition for a static site -/
def ofProfile : BuildProfile → Options
  | .development => {}
  | .production => production
  | .staticSite => { production with sourceMap := true }

end Options
end CssOptimizer
