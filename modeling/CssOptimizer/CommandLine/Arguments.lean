import CssOptimizer.CommandLine.Help
import CssOptimizer.Options

/-!
# Command line arguments

* `readArguments`         the arguments of a command as options with values;
* `Command`               what a program is asked to do: a command with its arguments, or help;
* `Command.ofArguments?`  a command from the arguments of a program.

A value follows its option as the next argument, behind an equals sign, or directly behind a
short name.  The next argument is no value if it starts with a hyphen, unless it is just that.
Arguments are read one after the other: the first one that is not acceptable, or that asks for
help, decides.
-/

namespace CssOptimizer

/-- an option that was given, with its value; options that take none have an empty one -/
structure GivenOption where
  long : String
  value : String
  deriving DecidableEq

/-- what the arguments of a command amount to -/
inductive Reading where
  | options (given : List GivenOption)
  | help
  | refused
  deriving DecidableEq

/-- whether an argument may be the value of the option before it -/
def isValueArgument (argument : String) : Bool :=
  argument = "-" || argument.toList.head? ≠ some '-'

/-- whether an argument asks for help; behind the short name nothing else counts -/
def asksForHelp (argument : String) : Bool :=
  argument = "--help" || "-h".toList.isPrefixOf argument.toList

/-- the option and the attached value of an argument: a long name, possibly with a value behind an
equals sign, or a short name, possibly with a value right behind it -/
def findOption? (specs : List OptionSpec) (argument : List Char) :
    Option (OptionSpec × Option (List Char)) :=
  match argument with
  | '-' :: '-' :: cs =>
    let (name, value) := match Text.cutAt (· == '=') cs with
      | some (name, _, value) => (name, some value)
      | none => (cs, none)
    (specs.find? fun spec => spec.long.toList = name).map fun spec => (spec, value)
  | '-' :: c :: cs =>
    (specs.find? fun spec => spec.short = some c).map fun spec =>
      match cs with
      | [] => (spec, none)
      | '=' :: value => (spec, some value)
      | value => (spec, some value)
  | _ => none

/-- the given options with one more: it needs an acceptable value and is given once, unless it may
be given several times -/
def addGiven? (given : List GivenOption) (spec : OptionSpec) (value : String) :
    Option (List GivenOption) :=
  if (spec.kind = .none || spec.accepts value) &&
      (spec.many || !given.any (·.long == spec.long)) then
    some (given ++ [⟨spec.long, value⟩])
  else none

/-- the value of an option, which is empty if it takes none, and the arguments behind it -/
def takeValue? (spec : OptionSpec) (attached : Option (List Char)) (arguments : List String) :
    Option (String × List String) :=
  match spec.kind, attached, arguments with
  | .none, none, rest => some ("", rest)
  | .none, some _, _ => none
  | _, some value, rest => some (String.ofList value, rest)
  | _, none, value :: rest => if isValueArgument value then some (value, rest) else none
  | _, none, [] => none

/-- a value takes no arguments from the front but its own -/
theorem length_of_takeValue? {spec : OptionSpec} {attached : Option (List Char)}
    {arguments rest : List String} {value : String}
    (h : takeValue? spec attached arguments = some (value, rest)) :
    rest.length ≤ arguments.length := by
  unfold takeValue? at h
  split at h
  · simp_all
  · simp at h
  · simp_all
  · split at h
    · simp only [Option.some.injEq, Prod.mk.injEq] at h
      rw [List.length_cons, h.2]
      omega
    · simp at h
  · simp at h

/-- arguments as options with values, behind those already given; two hyphens may end them -/
def readFurther (specs : List OptionSpec) (given : List GivenOption) : List String → Reading
  | [] => .options given
  | argument :: arguments =>
    if asksForHelp argument then .help
    else if argument = "--" then
      if arguments.isEmpty then .options given else .refused
    else
      match findOption? specs argument.toList with
      | none => .refused
      | some (spec, attached) =>
        match _h : takeValue? spec attached arguments with
        | none => .refused
        | some (value, rest) =>
          match addGiven? given spec value with
          | none => .refused
          | some given => readFurther specs given rest
termination_by arguments => arguments.length
decreasing_by
  have := length_of_takeValue? _h
  simp only [List.length_cons]
  omega

/-- whether all options are given that have to be -/
def isComplete (specs : List OptionSpec) (given : List GivenOption) : Bool :=
  specs.all fun spec => !spec.required || given.any (·.long == spec.long)

def readArguments (specs : List OptionSpec) (arguments : List String) : Reading :=
  match readFurther specs [] arguments with
  | .options given => if isComplete specs given then .options given else .refused
  | reading => reading

/-- all values of an option, in order -/
def valuesOf (given : List GivenOption) (long : String) : List String :=
  (given.filter (·.long == long)).map (·.value)

/-- the value of an option -/
def valueOf? (given : List GivenOption) (long : String) : Option String :=
  (valuesOf given long).head?

/-- whether an option was given -/
def isGiven (given : List GivenOption) (long : String) : Bool := given.any (·.long == long)

/-! ## commands -/

/-- the arguments of an optimization -/
structure OptimizeArguments where
  input : Option String
  usage : List String
  config : Option String
  mode : Option BuildProfile
  theme : Option String
  purge : Bool
  deduplicate : Bool
  atomic : Bool
  naming : Option ClassNaming
  stripAtomic : Bool
  minify : Bool
  sourceMap : Bool
  out : Option String
  report : Bool

/-- the arguments of a split for the first paint -/
structure CriticalArguments where
  input : Option String
  html : Option String
  aboveFold : List String
  theme : Option String
  minify : Bool
  deferredOut : Option String

/-- the arguments of a split by route -/
structure RoutesArguments where
  input : Option String
  routes : String
  outDirectory : String
  minify : Bool

inductive Command where
  | optimize (arguments : OptimizeArguments)
  | critical (arguments : CriticalArguments)
  | routes (arguments : RoutesArguments)
  | analyze (input : Option String)
  | tell (topic : Topic)

namespace Command

/-- the build mode of a written name -/
def modeOfText? (name : String) : Option BuildProfile :=
  if name = "dev" then some .development
  else if name = "prod" then some .production
  else if name = "ssg" then some .staticSite
  else none

/-- the naming of a written name -/
def namingOfText? (name : String) : Option ClassNaming :=
  if name = "content-hash" then some .byContent
  else if name = "sequential" then some .inSequence
  else none

/-- the texts between the commas of a value -/
def commaSeparated (value : String) : List String :=
  (Text.pieces (· == ',') value.toList).map String.ofList

def ofOptimize (given : List GivenOption) : Command :=
  .optimize {
    input := valueOf? given "input"
    usage := valuesOf given "usage"
    config := valueOf? given "config"
    mode := (valueOf? given "mode").bind modeOfText?
    theme := valueOf? given "theme"
    purge := isGiven given "purge"
    deduplicate := isGiven given "dedupe"
    atomic := isGiven given "atomic"
    naming := (valueOf? given "naming").bind namingOfText?
    stripAtomic := isGiven given "rewrite-atomic"
    minify := isGiven given "minify"
    sourceMap := isGiven given "sourcemap"
    out := valueOf? given "out"
    report := isGiven given "report" }

def ofCritical (given : List GivenOption) : Command :=
  .critical {
    input := valueOf? given "input"
    html := valueOf? given "html"
    aboveFold := (valuesOf given "above-fold").flatMap commaSeparated
    theme := valueOf? given "theme"
    minify := isGiven given "minify"
    deferredOut := valueOf? given "deferred-out" }

/-- a split by route; its route map and its directory have to be given -/
def ofRoutes (given : List GivenOption) : Command :=
  .routes {
    input := valueOf? given "input"
    routes := (valueOf? given "routes").getD ""
    outDirectory := (valueOf? given "out-dir").getD ""
    minify := isGiven given "minify" }

def ofAnalyze (given : List GivenOption) : Command := .analyze (valueOf? given "input")

/-- a command that reads options, from its arguments -/
def ofReading? (spec : CommandSpec) (make : List GivenOption → Command)
    (arguments : List String) : Option Command :=
  match readArguments spec.options arguments with
  | .options given => some (make given)
  | .help => some (.tell (.command spec))
  | .refused => none

/-- the help that is asked for by the arguments of the command for help -/
def helpTopic? : List String → Option Topic
  | [] => some .program
  | [name] => if name = "help" then some .help else (CommandSpec.find? name).map .command
  | _ => none

def ofArguments? : List String → Option Command
  | [] => none
  | name :: arguments =>
    if name = "optimize" then ofReading? .optimize ofOptimize arguments
    else if name = "critical" then ofReading? .critical ofCritical arguments
    else if name = "routes" then ofReading? .routes ofRoutes arguments
    else if name = "analyze" then ofReading? .analyze ofAnalyze arguments
    else if name = "help" then (helpTopic? arguments).map .tell
    else if asksForHelp name then some (.tell .program)
    else if name = "--version" || "-V".toList.isPrefixOf name.toList then some (.tell .version)
    else none

end Command
end CssOptimizer
