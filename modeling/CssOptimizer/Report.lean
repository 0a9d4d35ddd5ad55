import CssOptimizer.Decimal.Binary64
import CssOptimizer.Json.Value

/-!
# Reports

What an optimization did, in numbers.  Sizes are counted in bytes of UTF-8.

* `toolName`         the name under which the optimizer answers;
* `Report`           sizes, savings and the counts of each step;
* `Report.ofCounts`  the report of two sizes and three counts;
* `Report.summary`   the report in one line;
* `Report.toJson`    the report as a value;
* `Diagnostic`       a message about an optimization.
-/

namespace CssOptimizer

def toolName : String := "zenith-css"

structure Report where
  inputSize : Nat
  outputSize : Nat
  /-- what was saved; negative if the output is the larger one -/
  savings : Int
  /-- what was saved in percent of the input, nothing for an empty input -/
  savingsPercent : Float
  unusedRulesRemoved : Nat
  duplicatesRemoved : Nat
  atomicClassesCreated : Nat

namespace Report

/-- a saving in percent of a size, as a double; nothing for an empty input -/
def percent (savings : Int) (size : Nat) : Float :=
  if size = 0 then 0 else Float.ofInt savings / Float.ofNat size * 100

def ofCounts (inputSize outputSize unused duplicates atomic : Nat) : Report :=
  let savings : Int := inputSize - outputSize
  { inputSize, outputSize, savings
    savingsPercent := percent savings inputSize
    unusedRulesRemoved := unused
    duplicatesRemoved := duplicates
    atomicClassesCreated := atomic }

def summary (r : Report) : String :=
  "Optimized " ++ toString r.inputSize ++ " bytes → " ++ toString r.outputSize ++
    " bytes (" ++ Decimal.oneDecimal r.savingsPercent ++ "% saved)"

def toJson (r : Report) : Json.Value :=
  .object [
    ("originalSize", .nat r.inputSize),
    ("optimizedSize", .nat r.outputSize),
    ("savings", .number (.whole r.savings)),
    ("savingsPercent", .number (.double r.savingsPercent)),
    ("unusedRulesRemoved", .nat r.unusedRulesRemoved),
    ("duplicatesRemoved", .nat r.duplicatesRemoved),
    ("atomicClassesCreated", .nat r.atomicClassesCreated)]

end Report

/-! ## diagnostics -/

inductive Severity where
  | warning
  | info
  deriving DecidableEq, Repr

structure Diagnostic where
  severity : Severity
  message : String
  context : Option String := none
  deriving DecidableEq

/-- removal of unused rules was asked for, but nothing is known about the usage -/
def Diagnostic.purgeSkipped : Diagnostic where
  severity := .warning
  message := "Purge skipped: no usage info supplied"
  context := some "Pass HTML or JSX sources so unused rules can be detected"

/-- the report as a message -/
def Diagnostic.ofReport (r : Report) : Diagnostic where
  severity := .info
  message := r.summary

end CssOptimizer
