import CssOptimizer.Files.Storage
import CssOptimizer.Optimize

/-!
# Emitting stylesheets

* `Outcome.files`   the texts to write for an outcome: with a source map, the stylesheet ends in a
                    line that names it;
* `emit`            write an outcome to a path, and its source map next to it.

The directory of the path is made first, and the source map is written before the stylesheet.  A
path is a text, so that the name in its stylesheet is the name of the file as it is.
-/

namespace CssOptimizer

def Outcome.files (o : Outcome) (fileName : String) : Except Json.Failure EmittedFiles :=
  linkFiles o.css o.sourceMap fileName

/-- why an outcome cannot be emitted -/
inductive EmitError where
  | createDirectory (path : String) (cause : FileError)
  | write (path : String) (cause : FileError)
  | sourceMap (cause : Json.Failure)
  deriving DecidableEq

namespace EmitError

/-- the text of what an error comes from -/
def cause : EmitError → String
  | createDirectory _ cause => cause.message
  | write _ cause => cause.message
  | sourceMap cause => cause.message

def message (e : EmitError) : String :=
  match e with
  | createDirectory path _ => "Failed to create output directory " ++ path ++ ": " ++ e.cause
  | write path _ => "Failed to write " ++ path ++ ": " ++ e.cause
  | sourceMap _ => "Invalid source map: " ++ e.cause

/-- the text of an error with its cause repeated behind it -/
def messageWithCause (e : EmitError) : String := e.message ++ ": " ++ e.cause

end EmitError

variable {m : Type → Type} [Monad m]

/-- an operation on storage whose failure is told in other words -/
def orThrow {ε ε' α : Type} (tell : ε → ε') (action : m (Except ε α)) : ExceptT ε' m α :=
  ExceptT.mk do return (← action).mapError tell

def emit (s : Storage m) (path : String) (o : Outcome) : ExceptT EmitError m Unit := do
  match (Path.parent? path).filter (· ≠ "") with
  | none => pure ()
  | some parent => orThrow (.createDirectory parent) (s.makeDirectories parent)
  let files ← orThrow .sourceMap (pure (o.files ((Path.fileName? path).getD "")))
  match files.map with
  | none => pure ()
  | some map => orThrow (.write (mapPath path)) (s.write (mapPath path) map)
  orThrow (.write path) (s.write path files.css)

end CssOptimizer
