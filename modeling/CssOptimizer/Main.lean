import CssOptimizer.CommandLine.Run

/-!
# The program

The machine as storage, and the program that runs a command on it.
-/

namespace CssOptimizer

/-- the cause of a failed operation on files -/
def FileError.ofSystem : IO.Error → FileError
  | .noFileOrDirectory .. => .notFound
  | .alreadyExists .. => .alreadyExists
  | .inappropriateType _ 20 _ => .notDirectory
  | .inappropriateType .. => .isDirectory
  | .permissionDenied _ code details
  | .resourceExhausted _ code details
  | .invalidArgument _ code details => .other (details ++ " (os error " ++ toString code ++ ")")
  | e => .other (toString e)

/-- an operation on the machine whose failure is an answer -/
def attemptSystem {α : Type} (action : IO α) : IO (Except FileError α) := do
  try return .ok (← action)
  catch e => return .error (.ofSystem e)

/-- the machine as storage -/
def systemStorage : Storage IO where
  read path := attemptSystem (IO.FS.readFile path)
  write path text := attemptSystem (IO.FS.writeFile path text)
  makeDirectory path := attemptSystem (IO.FS.createDir path)
  isDirectory path := do
    match ← attemptSystem (IO.FS.realPath path) with
    | .ok real => real.isDir
    | .error _ => return false

/-- all of standard input -/
def readStandardInput : IO String := do
  (← IO.getStdin).readToEnd

end CssOptimizer

open CssOptimizer in
def main (arguments : List String) : IO UInt32 := do
  let response ← runProgram ⟨systemStorage, readStandardInput⟩ arguments
  (← IO.getStdout).putStr response.output
  (← IO.getStderr).putStr response.errors
  return response.ending.code.toUInt32
