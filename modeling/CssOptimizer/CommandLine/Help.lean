import CssOptimizer.CommandLine.Specs
import CssOptimizer.Report

/-!
# Help

What the program tells about itself.  Help lists names in a column as wide as the longest one
needs, and behind each what it is for.

* `columns`      names and what they are for, in two columns;
* `Topic`        what help can be about;
* `Topic.text`   the text on a topic.
-/

namespace CssOptimizer

/-- names and what they are for, a line each; the names fill a column -/
def columns (rows : List (String × String)) : String :=
  let width := (rows.map (·.1.length)).foldl max 0
  String.join (rows.map fun (name, about) =>
    "  " ++ name ++ String.ofList (List.replicate (width + 2 - name.length) ' ') ++ about ++ "\n")

namespace OptionSpec

/-- the long name of an option, with its value -/
def call (spec : OptionSpec) : String :=
  "--" ++ spec.long ++ if spec.kind = .none then "" else " <" ++ spec.valueName ++ ">"

/-- both names of an option; a long name leaves room for a short one -/
def heading (spec : OptionSpec) : String :=
  (match spec.short with
    | some c => String.ofList ['-', c, ',', ' ']
    | none => "    ") ++ spec.call

/-- the values of a choice -/
def choices (spec : OptionSpec) : String :=
  match spec.kind with
  | .choice names => "[possible values: " ++ ", ".intercalate names ++ "]"
  | _ => ""

/-- what an option is for, with the values of a choice -/
def purpose (spec : OptionSpec) : String :=
  let both := [spec.about, spec.choices].filter (· ≠ "")
  " ".intercalate both

/-- the option that asks for help -/
def help : OptionSpec where
  long := "help"
  short := some 'h'
  about := "Print help"

/-- the option that asks for the version -/
def version : OptionSpec where
  long := "version"
  short := some 'V'
  about := "Print version"

end OptionSpec

/-- the options of a command, the one for help last -/
def optionList (specs : List OptionSpec) : String :=
  "Options:\n" ++ columns (specs.map fun spec => (spec.heading, spec.purpose))

namespace CommandSpec

/-- how a command is called; options that have to be given are spelled out -/
def usageLine (spec : CommandSpec) : String :=
  "Usage: " ++ " ".intercalate
    ([toolName, spec.name, "[OPTIONS]"] ++ (spec.options.filter (·.required)).map (·.call))

def text (spec : CommandSpec) : String :=
  spec.about ++ "\n\n" ++ spec.usageLine ++ "\n\n" ++ optionList (spec.options ++ [.help])

end CommandSpec

/-! ## topics -/

/-- what help can be about; the version is told like help -/
inductive Topic where
  | program
  | command (spec : CommandSpec)
  | help
  | version
  deriving DecidableEq

namespace Topic

/-- what the command for help does -/
def aboutHelp : String := "Print this message or the help of the given subcommand(s)"

/-- how to call the program -/
def usageLine : String := "Usage: " ++ toolName ++ " <COMMAND>"

def text : Topic → String
  | program =>
    "Optimize framework-emitted CSS\n\n" ++ usageLine ++ "\n\nCommands:\n" ++
      columns (CommandSpec.all.map (fun spec => (spec.name, spec.about)) ++
        [("help", aboutHelp)]) ++
      "\n" ++ optionList [.help, .version]
  | command spec => spec.text
  | help =>
    aboutHelp ++ "\n\nUsage: " ++ toolName ++ " help [COMMAND]...\n\nArguments:\n" ++
      columns [("[COMMAND]...", "Print help for the subcommand(s)")]
  | version => toolName ++ " 0.1.0\n"

end Topic
end CssOptimizer
