import CssOptimizer.Text.Blank
import CssOptimizer.Text.Classes

/-!
# The commands and their options

* `OptionSpec`     an option: its names, what values it takes, and what it is for;
* `CommandSpec`    a command: its name, what it does, and its options;
* `CommandSpec.all`   all commands, in the order in which help lists them.
-/

namespace CssOptimizer

/-- what values an option takes -/
inductive ValueKind where
  | none
  | path
  | words
  | choice (names : List String)
  deriving DecidableEq

/-- an option: its names, its values, whether it may be given several times or has to be given,
and what it is for -/
structure OptionSpec where
  long : String
  short : Option Char := none
  kind : ValueKind := .none
  many : Bool := false
  required : Bool := false
  /-- how help calls the value, if not by the name of the option -/
  placeholder : Option String := none
  about : String := ""
  deriving DecidableEq

namespace OptionSpec

/-- whether a value is acceptable; paths are not empty -/
def accepts (spec : OptionSpec) (value : String) : Bool :=
  match spec.kind with
  | .none => false
  | .path => value ≠ ""
  | .words => true
  | .choice names => names.contains value

/-- a name in capital letters, with underscores for hyphens -/
def shout (name : String) : String :=
  String.ofList (name.toList.map fun c => if c = '-' then '_' else c.toUpper)

/-- how help calls the value of an option -/
def valueName (spec : OptionSpec) : String := spec.placeholder.getD (shout spec.long)

end OptionSpec

structure CommandSpec where
  name : String
  about : String
  options : List OptionSpec
  deriving DecidableEq

namespace CommandSpec

/-- the stylesheet to read -/
def input : OptionSpec where
  long := "input"
  short := some 'i'
  kind := .path
  about := "Stylesheet to read; stdin when omitted"

def optimize : CommandSpec where
  name := "optimize"
  about := "Purge, dedupe, atomize and minify a stylesheet"
  options := [
    input,
    { long := "usage", kind := .path, many := true, placeholder := some "FILE",
      about := "HTML or JSX-like sources to scan for used selectors" },
    { long := "config", kind := .path,
      about := "JSON file with optimize options; flags below override it" },
    { long := "mode", kind := .choice ["dev", "prod", "ssg"],
      about := "Start from a build-mode preset instead of the config file" },
    { long := "theme", kind := .path,
      about := "Theme tokens JSON (\x60\x7b\"colors\": \x7b\"primary\": \"#06f\"\x7d\x7d\x60) " ++
        "prepended as \x60:root\x60" },
    { long := "purge" },
    { long := "dedupe" },
    { long := "atomic" },
    { long := "naming", kind := .choice ["content-hash", "sequential"] },
    { long := "rewrite-atomic" },
    { long := "minify" },
    { long := "sourcemap" },
    { long := "out", short := some 'o', kind := .path,
      about := "Output file; stdout when omitted" },
    { long := "report", about := "Print the optimization report as JSON on stderr" }]

def critical : CommandSpec where
  name := "critical"
  about := "Split a stylesheet into critical and deferred halves"
  options := [
    input,
    { long := "html", kind := .path,
      about := "Rendered HTML whose classes form the above-fold set" },
    { long := "above-fold", kind := .words, many := true,
      about := "Extra above-fold class names, comma separated" },
    { long := "theme", kind := .path },
    { long := "minify" },
    { long := "deferred-out", kind := .path,
      about := "Where to write the deferred half; discarded when omitted" }]

def routes : CommandSpec where
  name := "routes"
  about := "Split a stylesheet into a shared chunk and per-route chunks"
  options := [
    input,
    { long := "routes", kind := .path, required := true,
      about := "JSON map of route path → selector names" },
    { long := "out-dir", kind := .path, required := true },
    { long := "minify" }]

def analyze : CommandSpec where
  name := "analyze"
  about := "Print size and pattern statistics as JSON"
  options := [input]

def all : List CommandSpec := [optimize, critical, routes, analyze]

/-- the command of a name -/
def find? (name : String) : Option CommandSpec := all.find? (·.name == name)

end CommandSpec
end CssOptimizer
