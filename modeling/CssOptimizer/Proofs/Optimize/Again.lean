import CssOptimizer.Optimize
import CssOptimizer.Proofs.Duplicates.Again
import CssOptimizer.Proofs.Sheet.Parsed

/-!
# Optimizing twice

* `Lasting.purgeStep`, `Lasting.mergeStep`   each step but the atomic one leaves nodes that are
                              read back from what is printed of them;
* `purgeStep_settled`, `mergeStep_settled`   what has gone through both steps stays as it is;
* `optimize_optimize_of_lasting`, `optimize_optimize`   so the optimized text, optimized again,
                              stays as it is, and nothing is counted.
-/

namespace CssOptimizer

section
variable {options : Options} {usage : Option Usage}

theorem Lasting.purgeStep {o : Optimized} (h : Lasting o.nodes) :
    Lasting (purgeStep options usage o).nodes := by
  unfold CssOptimizer.purgeStep
  split
  · exact h.filter _
  · exact h

theorem Lasting.mergeStep {o : Optimized} (h : Lasting o.nodes) :
    Lasting (mergeStep options o).nodes := by
  unfold CssOptimizer.mergeStep
  split
  · exact h.mergeDuplicates
  · exact h

/-! ## settled nodes -/

/-- nodes that no step but the atomic one changes -/
structure Settled (options : Options) (usage : Option Usage) (nodes : List Node) : Prop where
  used : options.purge = true → ∀ u ∈ usage, ∀ node ∈ nodes, u.keeps node = true
  merged : options.deduplicate = true → mergeDuplicates nodes = nodes

theorem Settled.purgeStep {nodes : List Node} (h : Settled options usage nodes) :
    purgeStep options usage { nodes } = { nodes } := by
  unfold CssOptimizer.purgeStep
  split
  · rename_i u hp
    have hsame : removeUnused u nodes = nodes := List.filter_eq_self.mpr (h.used hp u rfl)
    simp only [hsame, Nat.sub_self]
  · rfl

theorem Settled.mergeStep {nodes : List Node} (h : Settled options usage nodes) :
    mergeStep options { nodes } = { nodes } := by
  unfold CssOptimizer.mergeStep
  split
  · rename_i hd
    simp only [h.merged hd, Nat.sub_self]
  · rfl

/-- both steps leave settled nodes: merging keeps rules that are used, and what is merged already
is not merged again -/
theorem settled_mergeStep (options : Options) (usage : Option Usage) (o : Optimized) :
    Settled options usage (mergeStep options (purgeStep options usage o)).nodes := by
  have hused (hp : options.purge = true) (u : Usage) (hu : u ∈ usage) :
      ∀ node ∈ (purgeStep options usage o).nodes, u.keeps node = true := by
    have hnodes : (purgeStep options (some u) o).nodes = removeUnused u o.nodes := by
      unfold CssOptimizer.purgeStep
      rw [hp]
    rw [Option.mem_def.mp hu, hnodes]
    exact fun node hm => (List.mem_filter.mp hm).2
  unfold CssOptimizer.mergeStep
  split
  · exact ⟨fun hp u hu node hm => keeps_of_mem_mergeDuplicates (hused hp u hu) hm,
      fun _ => mergeDuplicates_mergeDuplicates _⟩
  · rename_i hd
    exact ⟨hused, fun hd' => absurd hd' hd⟩

theorem Settled.optimizeNodes {nodes : List Node} (h : Settled options usage nodes)
    (ha : options.atomic = false) (hash : String → String) :
    optimizeNodes hash options usage nodes = { nodes } := by
  rw [CssOptimizer.optimizeNodes, h.purgeStep, h.mergeStep, atomicStep, if_neg (by simp [ha])]

end

/-! ## texts -/

section
variable (options : Options) (usage : Option Usage) (css : String)

theorem optimize_optimize_of_lasting (ha : options.atomic = false) (h : Lasting (parse css)) :
    let first := optimize options usage css
    let again := optimize options usage first.css
    again.css = first.css ∧ again.report.unusedRulesRemoved = 0 ∧
      again.report.duplicatesRemoved = 0 := by
  let nodes := (mergeStep options (purgeStep options usage { nodes := parse css })).nodes
  have hfirst : (optimize options usage css).css = printSheet options.minify nodes := by
    show printSheet options.minify (optimizeNodes _ options usage (parse css)).nodes = _
    rw [optimizeNodes, atomicStep, if_neg (by simp [ha])]
  have hlasting : Lasting nodes := (Lasting.purgeStep h).mergeStep
  have hagain : optimizeNodes Digest.hexDigest options usage
      (parse (printSheet options.minify nodes)) = { nodes } := by
    rw [hlasting.parse]
    exact (settled_mergeStep options usage _).optimizeNodes ha _
  simp only [hfirst]
  rw [optimize, optimizeWith, hagain]
  exact ⟨rfl, rfl, rfl⟩

/-- optimizing again changes nothing if the parsed nodes are canonical -/
theorem optimize_optimize (ha : options.atomic = false) (h : MeetsAll .canonical (parse css)) :
    let first := optimize options usage css
    let again := optimize options usage first.css
    again.css = first.css ∧ again.report.unusedRulesRemoved = 0 ∧
      again.report.duplicatesRemoved = 0 :=
  optimize_optimize_of_lasting options usage css ha
    (lasting_of_canonical ⟨h, noneLoose_parse css⟩)

end

/-- a selector that leaves a bracket open in a string, and rules with the same declarations -/
def bracketSheet : String :=
  ".a, [b=\x22(\x22]\x7bp:1\x7d.gone\x7bp:1\x7d@media x\x7b.c\x7bq:2\x7d\x7d.d\x7bp: 1;\x7d"

def bracketOptions : Options := { purge := true, deduplicate := true }

def bracketUsage : Usage := { classes := NameSet.ofList ["a", "d"] }

theorem optimize_optimize_bracketSheet :
    MeetsAll .canonical (parse bracketSheet) ∧
    let first := optimize bracketOptions (some bracketUsage) bracketSheet
    first.report.unusedRulesRemoved = 1 ∧ first.report.duplicatesRemoved = 1 ∧
    let again := optimize bracketOptions (some bracketUsage) first.css
    again.css = first.css ∧ again.report.unusedRulesRemoved = 0 ∧
      again.report.duplicatesRemoved = 0 := by
  have h : MeetsAll .canonical (parse bracketSheet) := by decide +kernel
  refine ⟨h, by decide +kernel, by decide +kernel, ?_⟩
  exact optimize_optimize bracketOptions (some bracketUsage) bracketSheet rfl h

end CssOptimizer
