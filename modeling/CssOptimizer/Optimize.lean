import CssOptimizer.Atomic.Factor
import CssOptimizer.Digest.Sha256
import CssOptimizer.Duplicates
import CssOptimizer.Options
import CssOptimizer.Report
import CssOptimizer.Sheet.Parse
import CssOptimizer.Sheet.Print
import CssOptimizer.SourceMap
import CssOptimizer.Usage.Basic

/-!
# Optimizing a stylesheet

The steps come in a fixed order: rules without use go, rules with the same declarations are
merged, and shared declarations become atomic classes.

* `Optimized`       the nodes after all steps, with what each step did;
* `optimizeNodes`   the steps on nodes, for any hash of texts;
* `optimize`        a stylesheet from text to text, with a report and diagnostics.
-/

namespace CssOptimizer

structure Optimized where
  nodes : List Node
  unusedRemoved : Nat := 0
  duplicatesRemoved : Nat := 0
  composition : Composition := []
  atomicCreated : Nat := 0

/-! ## steps -/

/-- drop unused rules, if this is asked for and the usage is known -/
def purgeStep (options : Options) (usage : Option Usage) (o : Optimized) : Optimized :=
  match options.purge, usage with
  | true, some u =>
    let nodes := removeUnused u o.nodes
    { o with nodes, unusedRemoved := ruleCount o.nodes - ruleCount nodes }
  | _, _ => o

/-- merge rules with the same declarations, if this is asked for -/
def mergeStep (options : Options) (o : Optimized) : Optimized :=
  if options.deduplicate then
    let nodes := mergeDuplicates o.nodes
    { o with nodes, duplicatesRemoved := ruleCount o.nodes - ruleCount nodes }
  else o

/-- make atomic classes, if this is asked for -/
def atomicStep (hash : String → String) (options : Options) (o : Optimized) : Optimized :=
  if options.atomic then
    let e := factorFrequent hash options.atomicNaming options.stripAtomic o.nodes
    { o with
      nodes := e.nodes o.nodes
      composition := e.composition
      atomicCreated := e.rules.length }
  else o

def optimizeNodes (hash : String → String) (options : Options) (usage : Option Usage)
    (nodes : List Node) : Optimized :=
  atomicStep hash options (mergeStep options (purgeStep options usage { nodes }))

/-! ## texts -/

/-- the outcome of an optimization -/
structure Outcome where
  css : String
  report : Report
  composition : Composition
  sourceMap : Option String
  diagnostics : List Diagnostic

/-- the messages before the report -/
def warnings (options : Options) (usage : Option Usage) : List Diagnostic :=
  if options.purge && usage.isNone then [.purgeSkipped] else []

/-- optimize a stylesheet, for any hash of texts -/
def optimizeWith (hash : String → String) (options : Options) (usage : Option Usage)
    (css : String) : Outcome :=
  let o := optimizeNodes hash options usage (parse css)
  let text := printSheet options.minify o.nodes
  let report := Report.ofCounts css.utf8ByteSize text.utf8ByteSize o.unusedRemoved
    o.duplicatesRemoved o.atomicCreated
  { css := text
    report
    composition := o.composition
    sourceMap :=
      if options.sourceMap then some (SourceMap.generate options.sourceName options.sourceName)
      else none
    diagnostics := warnings options usage ++ [.ofReport report] }

def optimize (options : Options) (usage : Option Usage) (css : String) : Outcome :=
  optimizeWith Digest.hexDigest options usage css

end CssOptimizer
