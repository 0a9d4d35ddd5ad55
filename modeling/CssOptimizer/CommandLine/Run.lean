import CssOptimizer.Build.Step
import CssOptimizer.CommandLine.Arguments
import CssOptimizer.Json.Writer
import CssOptimizer.OptionsReader
import CssOptimizer.RouteChunk
import CssOptimizer.Statistics

/-!
# Running commands

A command reads its input from a file or from standard input, and answers with an exit code and
texts for standard output and standard error.

* `Environment`    what a command needs of its surroundings;
* `CommandError`   why a command fails, with its text;
* `Procedure`      a procedure of a command, which prints and may fail;
* `runProgram`     a program run from its arguments to its response.
-/

namespace CssOptimizer

structure Environment (m : Type → Type) where
  storage : Storage m
  standardInput : m String

/-- what can be malformed in a file that a command reads -/
inductive Document where
  | config
  | theme
  | routeMap
  deriving DecidableEq

def Document.text : Document → String
  | config => "config"
  | theme => "theme"
  | routeMap => "route map"

inductive CommandError where
  | configAndMode
  | read (path : String) (cause : FileError)
  | invalid (document : Document) (path : String)
  | emit (path : String) (cause : EmitError)
  | createDirectory (path : String) (cause : FileError)
  | write (path : String) (cause : FileError)
  | collision (chunk : String)
  deriving DecidableEq

namespace CommandError

/-- a text in single quotes -/
def quoted (s : String) : String := "'" ++ s ++ "'"

/-- the text of an error; what is wrong inside a malformed file is not told -/
def message : CommandError → String
  | configAndMode => "--config and --mode are mutually exclusive"
  | read path cause => "failed to read " ++ quoted path ++ ": " ++ cause.message
  | invalid document path => "invalid " ++ document.text ++ " " ++ quoted path
  | emit path cause => "failed to emit " ++ quoted path ++ ": " ++ cause.messageWithCause
  | createDirectory path cause =>
    "failed to create output dir " ++ quoted path ++ ": " ++ cause.message
  | write path cause => "failed to write " ++ quoted path ++ ": " ++ cause.message
  | collision chunk =>
    "routes collide on chunk name " ++ quoted chunk ++ "; " ++ quoted (chunk ++ ".css") ++
      " would be written twice"

end CommandError

/-- the texts that a command prints -/
structure Printed where
  output : String := ""
  errors : String := ""
  deriving DecidableEq, Inhabited

abbrev Procedure (m : Type → Type) := ExceptT CommandError (StateT Printed m)

namespace Procedure

variable {m : Type → Type} [Monad m]

def print (text : String) : Procedure m Unit :=
  modify fun p => { p with output := p.output ++ text }

def printError (text : String) : Procedure m Unit :=
  modify fun p => { p with errors := p.errors ++ text }

/-- do something with the surroundings that cannot fail -/
def perform {α : Type} (action : m α) : Procedure m α :=
  ExceptT.mk (StateT.lift (Except.ok <$> action))

/-- do something with the surroundings whose failure is told in other words -/
def attempt {ε α : Type} (tell : ε → CommandError) (action : m (Except ε α)) : Procedure m α := do
  match ← perform action with
  | .ok a => return a
  | .error e => throw (tell e)

/-! ## files -/

def readFile (env : Environment m) (path : String) : Procedure m String :=
  attempt (.read path) (env.storage.read path)

/-- the stylesheet of a command, from standard input if no path is given -/
def readInput (env : Environment m) : Option String → Procedure m String
  | some path => readFile env path
  | none => perform env.standardInput

/-- a file read by a reader of texts -/
def readDocument {ε α : Type} (env : Environment m) (document : Document)
    (parse : String → Except ε α) (path : String) : Procedure m α := do
  match parse (← readFile env path) with
  | .ok a => return a
  | .error _ => throw (.invalid document path)

def readTheme (env : Environment m) : Option String → Procedure m (Option Theme)
  | none => return none
  | some path => return some (← readDocument env .theme Theme.parse path)

/-- write a file, and the directory that it lies in -/
def writeFile (env : Environment m) (path text : String) : Procedure m Unit := do
  match (Path.parent? path).filter (· ≠ "") with
  | none => pure ()
  | some parent => attempt (.createDirectory parent) (env.storage.makeDirectories parent)
  attempt (.write path) (env.storage.write path text)

end Procedure

/-! ## commands -/

namespace Command

variable {m : Type → Type} [Monad m]

open Procedure

/-- the options of a command: those of the configuration or of the mode, and the flags on top -/
def addFlags (arguments : OptimizeArguments) (options : Options) : Options :=
  { options with
    purge := options.purge || arguments.purge
    deduplicate := options.deduplicate || arguments.deduplicate
    atomic := options.atomic || arguments.atomic
    atomicNaming := arguments.naming.getD options.atomicNaming
    stripAtomic := options.stripAtomic || arguments.stripAtomic
    minify := options.minify || arguments.minify
    sourceMap := options.sourceMap || arguments.sourceMap
    sourceName := match arguments.input with
      | none => options.sourceName
      | some path => (Path.fileName? path).getD "styles.css" }

/-- the options that the flags come on top of -/
def baseOptions (env : Environment m) (arguments : OptimizeArguments) : Procedure m Options :=
  match arguments.config, arguments.mode with
  | some _, some _ => throw .configAndMode
  | some path, none => readDocument env .config Options.parse path
  | none, some mode => return Options.ofProfile mode
  | none, none => return {}

/-- the usage of a source file, by its extension -/
def scanFile (env : Environment m) (path : String) : Procedure m Usage := do
  let source ← readFile env path
  if (Path.extension? path).any ["html", "htm"].contains then return Usage.ofHtml source
  else return Usage.ofJsx source

def runOptimize (env : Environment m) (arguments : OptimizeArguments) : Procedure m Unit := do
  let options := addFlags arguments (← baseOptions env arguments)
  let theme ← readTheme env arguments.theme
  let css := (theme.map (Theme.css false)).getD "" ++ (← readInput env arguments.input)
  let usages ← arguments.usage.mapM (scanFile env)
  let usage := if usages.isEmpty then none else some (Usage.mergeAll usages)
  let outcome := CssOptimizer.optimize options usage css
  if arguments.report then printError (Json.pretty outcome.report.toJson ++ "\n")
  match arguments.out with
  | none => print outcome.css
  | some path => attempt (.emit path) (CssOptimizer.emit env.storage path outcome).run

def runCritical (env : Environment m) (arguments : CriticalArguments) : Procedure m Unit := do
  let css ← readInput env arguments.input
  let classes ← match arguments.html with
    | none => pure []
    | some path => pure (Usage.ofHtml (← readFile env path)).classes.toList
  let theme := ((← readTheme env arguments.theme).map (Theme.css arguments.minify)).filter
    (!·.isEmpty)
  let halves := FirstPaint.render (arguments.aboveFold ++ classes) theme arguments.minify
    (parse css)
  match arguments.deferredOut with
  | none => pure ()
  | some path => writeFile env path halves.deferred
  print halves.critical

/-- a route map from an object of lists of texts -/
def routesOfJson? : Json.Value → Option RouteMap :=
  Theme.fieldsToMap? fun v =>
    match v with
    | .array items => items.mapM Theme.text?
    | _ => none

def parseRoutes (text : String) : Except Json.Failure RouteMap := do
  match routesOfJson? (← Json.parse text) with
  | some routeMap => return routeMap
  | none => throw .wrongShape

/-- a chunk as a value -/
def chunkToJson (minify : Bool) (chunk : RouteChunk) : Json.Value :=
  .object [
    ("name", .string chunk.name),
    ("css", .string (chunk.css minify)),
    ("selectors", .array (chunk.names.toList.map .string))]

def runRoutes (env : Environment m) (arguments : RoutesArguments) : Procedure m Unit := do
  let css ← readInput env arguments.input
  let routeMap ← readDocument env .routeMap parseRoutes arguments.routes
  let chunks := RouteChunk.split routeMap css
  match RouteChunk.duplicate? chunks with
  | some name => throw (.collision name)
  | none => pure ()
  for chunk in chunks do
    writeFile env (Path.join arguments.outDirectory (chunk.name ++ ".css"))
      (chunk.css arguments.minify)
  print (Json.pretty (.array (chunks.map (chunkToJson arguments.minify))) ++ "\n")

def runAnalyze (env : Environment m) (input : Option String) : Procedure m Unit := do
  let css ← readInput env input
  print (Json.pretty (Statistics.ofSheet css).toJson ++ "\n")

def run (env : Environment m) : Command → Procedure m Unit
  | .optimize arguments => runOptimize env arguments
  | .critical arguments => runCritical env arguments
  | .routes arguments => runRoutes env arguments
  | .analyze input => runAnalyze env input
  | .tell topic => print topic.text

end Command

/-! ## programs -/

/-- how a program ends -/
inductive Ending where
  | success
  | failure
  | badArguments
  deriving DecidableEq

def Ending.code : Ending → Nat
  | success => 0
  | failure => 1
  | badArguments => 2

/-- what a program answers -/
structure Response where
  ending : Ending
  output : String
  errors : String
  deriving DecidableEq

/-- the text of an error on standard error -/
def errorLine (e : CommandError) : String := "[" ++ toolName ++ "] " ++ e.message ++ "\n"

variable {m : Type → Type} [Monad m]

def runProgram (env : Environment m) (arguments : List String) : m Response := do
  match Command.ofArguments? arguments with
  | none => return ⟨.badArguments, "", Topic.usageLine ++ "\n"⟩
  | some command =>
    let (result, printed) ← (command.run env).run.run {}
    match result with
    | .ok () => return ⟨.success, printed.output, printed.errors⟩
    | .error e => return ⟨.failure, printed.output, printed.errors ++ errorLine e⟩

end CssOptimizer
