import CssOptimizer.Text.Blank

/-!
# Paths

A path is a text of names with slashes between them: names that are not UTF-8 are left out.  Empty
names and dots count for nothing, except that a path may start with a slash or with a dot.

* `Path.names`        the names that count, in order;
* `Path.fileName?`    the last of them, unless it leads upwards;
* `Path.extension?`   what stands behind the last dot of the file name;
* `Path.parent?`      the text before the last name;
* `Path.ancestors`    a path with all its parents, the nearest first;
* `Path.join`         a name below a directory.
-/

namespace CssOptimizer.Path

/-- the texts between the slashes -/
def segments (cs : List Char) : List (List Char) := Text.pieces (· == '/') cs

/-- a segment that counts for nothing -/
def isIdle (segment : List Char) : Bool := segment == [] || segment == ['.']

/-- the names that count, in order -/
def nameChars (path : String) : List (List Char) := (segments path.toList).filter (!isIdle ·)

def names (path : String) : List String := (nameChars path).map String.ofList

def fileName? (path : String) : Option String :=
  (names path).getLast?.filter (· ≠ "..")

/-- what stands behind the last dot of a text, if anything stands before that dot -/
def behindLastDot (cs : List Char) : Option (List Char) :=
  match Text.cutAt (· == '.') cs.reverse with
  | some (behind, _, before) => if before.isEmpty then none else some behind.reverse
  | none => none

def extension? (path : String) : Option String :=
  (fileName? path).bind fun name => (behindLastDot name.toList).map String.ofList

/-! ## parents -/

/-- the slash or the dot that a path starts with, and the rest -/
def lead : List Char → List Char × List Char
  | '/' :: cs => (['/'], cs)
  | ['.'] => (['.'], [])
  | '.' :: '/' :: cs => (['.'], '/' :: cs)
  | cs => ([], cs)

/-- without the segments at the end that count for nothing -/
def dropIdleEnd (segments : List (List Char)) : List (List Char) :=
  (segments.reverse.dropWhile isIdle).reverse

def parent? (path : String) : Option String :=
  let (start, rest) := lead path.toList
  match dropIdleEnd (segments rest) with
  | [] => if start = ['.'] then some "" else none
  | kept => some (String.ofList (start ++ ['/'].intercalate (dropIdleEnd kept.dropLast)))

/-- a path with its parents, the nearest first; `fuel` bounds their number -/
def ancestorsFrom : Nat → String → List String
  | 0, _ => []
  | fuel + 1, path =>
    if path = "" then []
    else path :: match parent? path with
      | none => []
      | some parent => ancestorsFrom fuel parent

def ancestors (path : String) : List String := ancestorsFrom (path.length + 1) path

def join (directory name : String) : String :=
  if name.toList.head? = some '/' then name
  else if directory.toList.getLast?.all (· == '/') then directory ++ name
  else directory ++ "/" ++ name

end CssOptimizer.Path
