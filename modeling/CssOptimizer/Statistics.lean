import CssOptimizer.Json.Value
import CssOptimizer.Sheet.Parse
import CssOptimizer.Sheet.Print
import CssOptimizer.Text.Occurrence

/-!
# Statistics of a stylesheet

Counts of patterns in the text of a stylesheet, and its sizes in bytes.

* `Statistics`          the counts;
* `Statistics.ofSheet`  the counts of a stylesheet;
* `Statistics.toJson`   the counts as a value.
-/

namespace CssOptimizer

structure Statistics where
  totalSize : Nat
  minifiedSize : Nat
  /-- an estimate from the minified size -/
  gzipSize : Nat
  /-- different class names -/
  classCount : Nat
  /-- opening braces -/
  ruleCount : Nat
  /-- custom properties with a colon behind them -/
  themeVars : Nat
  deriving DecidableEq

namespace Statistics

/-- the share of the minified size that compression is expected to leave -/
def gzipRatio : Float := 0.3

/-- the expected size after compression, rounded to the nearest number, a half upwards -/
def gzipEstimate (size : Nat) : Nat := (Float.ofNat size * gzipRatio).round.toUInt64.toNat

/-- a letter or an underscore -/
def startsIdentifier (c : Char) : Bool := Text.isAsciiLetter c || c == '_'

/-- a class name: a dot, possibly a hyphen, and a letter or an underscore -/
def classPattern : Text.Pattern (List Char) := fun _ cs =>
  match cs with
  | '.' :: '-' :: c :: cs =>
    if startsIdentifier c then
      let name := '-' :: c :: Text.leadingName cs
      some (name, name.length + 1)
    else none
  | '.' :: c :: cs =>
    if startsIdentifier c then
      let name := c :: Text.leadingName cs
      some (name, name.length + 1)
    else none
  | _ => none

/-- a custom property: two hyphens, a name, and a colon behind it -/
def variablePattern : Text.Pattern Unit := fun _ cs =>
  match cs with
  | '-' :: '-' :: cs =>
    let name := Text.leadingName cs
    let behind := cs.drop name.length
    let blanks := behind.takeWhile Text.isBlank
    match behind.drop blanks.length with
    | ':' :: _ => if name.isEmpty then none else some ((), 2 + name.length + blanks.length + 1)
    | _ => none
  | _ => none

def ofSheet (css : String) : Statistics :=
  let cs := css.toList
  let minifiedSize := (minified (parse css)).utf8ByteSize
  { totalSize := css.utf8ByteSize
    minifiedSize
    gzipSize := gzipEstimate minifiedSize
    classCount := (Text.occurrences classPattern cs).eraseDups.length
    ruleCount := cs.count '{'
    themeVars := (Text.occurrences variablePattern cs).length }

def toJson (s : Statistics) : Json.Value :=
  .object [
    ("totalSize", .nat s.totalSize),
    ("minifiedSize", .nat s.minifiedSize),
    ("gzipSize", .nat s.gzipSize),
    ("classCount", .nat s.classCount),
    ("ruleCount", .nat s.ruleCount),
    ("themeVars", .nat s.themeVars)]

end Statistics
end CssOptimizer
