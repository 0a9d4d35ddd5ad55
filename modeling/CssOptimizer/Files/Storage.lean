import CssOptimizer.Files.Disk

/-!
# Storage

What programs need of a file system, as operations of a monad.  A disk is storage, and so is the
machine that a program runs on.

* `Storage`                    the operations;
* `Disk.storage`               a disk as storage: it does what its tree allows, unless it refuses;
* `Storage.makeDirectories`    a directory with all its parents.
-/

namespace CssOptimizer

structure Storage (m : Type → Type) where
  read : String → m (Except FileError String)
  write : String → String → m (Except FileError Unit)
  makeDirectory : String → m (Except FileError Unit)
  isDirectory : String → m Bool

namespace Disk

/-- the text of a file, unless the disk refuses to read it -/
def readText (d : Disk) (path : String) : Except FileError String :=
  match d.refused? (.read path) with
  | some refusal => .error refusal.cause
  | none => d.read path

/-- an operation that changes a disk, unless it fails or the disk refuses it -/
def change (request : Request) (operation : Disk → Except FileError Disk) :
    StateM Disk (Except FileError Unit) := fun d =>
  match d.refused? request with
  | some refusal => (.error refusal.cause, d.leave request refusal)
  | none =>
    match operation d with
    | .ok d' => (.ok (), d')
    | .error e => (.error e, d)

def storage : Storage (StateM Disk) where
  read path := return (← get).readText path
  write path text := change (.write path text) (·.write path text)
  makeDirectory path := change (.makeDirectory path) (·.makeDirectory path)
  isDirectory path := do
    let d ← get
    return (d.refused? (.isDirectory path)).isNone && d.isDirectory path

end Disk

namespace Storage

variable {m : Type → Type} [Monad m]

/-- a directory, which may be there already -/
def ensureDirectory (s : Storage m) (path : String) : m (Except FileError Unit) := do
  match ← s.makeDirectory path with
  | .ok () => return .ok ()
  | .error e => if ← s.isDirectory path then return .ok () else return .error e

/-- a directory, given with all its parents, the nearest first; if its parent is missing, that is
made first -/
def ensureAll (s : Storage m) : List String → m (Except FileError Unit)
  | [] => return .ok ()
  | path :: parents => do
    match ← s.makeDirectory path with
    | .ok () => return .ok ()
    | .error .notFound =>
      match ← s.ensureAll parents with
      | .ok () => s.ensureDirectory path
      | .error e => return .error e
    | .error e => if ← s.isDirectory path then return .ok () else return .error e

def makeDirectories (s : Storage m) (path : String) : m (Except FileError Unit) :=
  s.ensureAll (Path.ancestors path)

end Storage
end CssOptimizer
