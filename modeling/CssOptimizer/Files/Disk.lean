import CssOptimizer.Collection.InsertionMap
import CssOptimizer.Collection.NameMap
import CssOptimizer.Files.Path

/-!
# Directory trees

A disk is a tree of directories with files in them, and a working directory.  Names and files are
texts.  The tree allows some operations and not others; beyond that, a disk may refuse what it is
asked for: for want of a permission or of space, or because of a name that cannot be.

* `Request`, `Refusal`   what a disk is asked for, and why it refuses it;
* `Disk.locate`          where a path leads;
* `Disk.read`, `Disk.write`, `Disk.makeDirectory`, `Disk.isDirectory`   the operations, as far as
                         the tree allows them;
* `Disk.leave`           the disk after a refusal;
* `Disk.listing`         everything below the working directory;
* `Disk.changes`         what a listing has that an older one has not.

Main statement: what an operation does to the entry at a place (`at?_set`).
-/

namespace CssOptimizer

/-- why an operation on files fails; the first four come from the tree -/
inductive FileError where
  | notFound
  | alreadyExists
  | notDirectory
  | isDirectory
  | other (text : String)
  deriving DecidableEq, Repr

/-- the text of an error, with its number -/
def FileError.message : FileError → String
  | notFound => "No such file or directory (os error 2)"
  | alreadyExists => "File exists (os error 17)"
  | notDirectory => "Not a directory (os error 20)"
  | isDirectory => "Is a directory (os error 21)"
  | other text => text

/-- what stands at a place of a tree -/
inductive DiskEntry where
  | file (text : String)
  | directory
  deriving DecidableEq

/-- a place of a tree: the names from the root down -/
abbrev Place := List String

inductive Request where
  | read (path : String)
  | write (path text : String)
  | makeDirectory (path : String)
  | isDirectory (path : String)

/-- why a disk refuses a request.  The writing of a file may also be broken off: then `kept` is the
number of characters of its text that the file holds. -/
structure Refusal where
  cause : FileError
  kept : Option Nat := none

/-- a tree with a working directory; the root is a directory without an entry.  Over each tree the
disk may refuse requests, whatever the tree allows. -/
structure Disk where
  entries : InsertionMap Place DiskEntry := []
  workingDirectory : Place := []
  refusal? : InsertionMap Place DiskEntry → Request → Option Refusal := fun _ _ => none

namespace Disk

/-- what stands at a place -/
def at? (d : Disk) : Place → Option DiskEntry
  | [] => some .directory
  | place => InsertionMap.at? d.entries place

/-- the disk with an entry at a place -/
def set (d : Disk) (place : Place) (entry : DiskEntry) : Disk :=
  { d with entries := InsertionMap.amend d.entries place fun _ => entry }

theorem at?_set (d : Disk) (place place' : Place) (entry : DiskEntry) (h : place ≠ []) :
    (d.set place entry).at? place' = if place = place' then some entry else d.at? place' := by
  cases place' with
  | nil => simp [at?, h]
  | cons name names => exact InsertionMap.at?_amend d.entries place (name :: names) _

/-! ## paths -/

/-- where a path leads: to a directory that dots or the root stand for, or to a name in a
directory, which may have a slash behind it -/
inductive Target where
  | directory (place : Place)
  | named (place : Place) (name : String) (slash : Bool)
  deriving DecidableEq

/-- one segment further down, or up -/
def descend (d : Disk) (place : Place) (segment : String) : Except FileError Place :=
  if segment = "." then .ok place
  else if segment = ".." then .ok place.dropLast
  else
    match d.at? (place ++ [segment]) with
    | some .directory => .ok (place ++ [segment])
    | some (.file _) => .error .notDirectory
    | none => .error .notFound

/-- where a path leads; all but its last segment have to be directories -/
def locate (d : Disk) (path : String) : Except FileError Target := do
  if path = "" then throw .notFound
  let segments := ((Path.segments path.toList).filter (!·.isEmpty)).map String.ofList
  let start := if path.toList.head? = some '/' then [] else d.workingDirectory
  let place ← segments.dropLast.foldlM d.descend start
  match segments.getLast? with
  | none => return .directory place
  | some last =>
    if last = "." ∨ last = ".." then return .directory (← d.descend place last)
    else return .named place last (path.toList.getLast? == some '/')

/-! ## operations -/

def read (d : Disk) (path : String) : Except FileError String := do
  match ← d.locate path with
  | .directory _ => throw .isDirectory
  | .named place name slash =>
    match d.at? (place ++ [name]) with
    | none => throw .notFound
    | some .directory => throw .isDirectory
    | some (.file text) => if slash then throw .notDirectory else return text

/-- the disk with a text in a file, if the tree allows it; what the disk refuses beyond that counts
in `storage` -/
def write (d : Disk) (path text : String) : Except FileError Disk := do
  match ← d.locate path with
  | .directory _ => throw .isDirectory
  | .named place name slash =>
    if slash then throw .isDirectory
    match d.at? (place ++ [name]) with
    | some .directory => throw .isDirectory
    | _ => return d.set (place ++ [name]) (.file text)

def makeDirectory (d : Disk) (path : String) : Except FileError Disk := do
  match ← d.locate path with
  | .directory _ => throw .alreadyExists
  | .named place name _ =>
    match d.at? (place ++ [name]) with
    | some _ => throw .alreadyExists
    | none => return d.set (place ++ [name]) .directory

def isDirectory (d : Disk) (path : String) : Bool :=
  match d.locate path with
  | .ok (.directory _) => true
  | .ok (.named place name _) => d.at? (place ++ [name]) == some .directory
  | .error _ => false

def refused? (d : Disk) (request : Request) : Option Refusal := d.refusal? d.entries request

/-- the disk after a refusal: a file whose writing is broken off is there in part -/
def leave (d : Disk) : Request → Refusal → Disk
  | .write path text, ⟨_, some kept⟩ =>
    (d.write path (String.ofList (text.toList.take kept))).toOption.getD d
  | _, _ => d

/-! ## listings -/

/-- a place below the working directory as a text, with a slash behind a directory -/
def label (place : Place) (entry : DiskEntry) : String × Option String :=
  match entry with
  | .file text => ("/".intercalate place, some text)
  | .directory => ("/".intercalate place ++ "/", none)

/-- everything below the working directory, sorted; directories have no text -/
def listing (d : Disk) : List (String × Option String) :=
  let here := d.workingDirectory
  let below := d.entries.filter fun (place, _) =>
    here.isPrefixOf place && here.length < place.length
  (NameMap.ofList (below.map fun (place, entry) =>
    label (place.drop here.length) entry)).entries

def changes (before after : List (String × Option String)) : List (String × Option String) :=
  after.filter (!before.contains ·)

end Disk
end CssOptimizer
