import CssOptimizer.Json.Reader
import CssOptimizer.Json.Writer

/-!
# Source maps

A source map here names its one source and maps nothing.

* `SourceMap.generate`   the map of a source for a file;
* `SourceMap.retarget`   a map with another file name;
* `linkFiles`            a stylesheet that ends in a line naming its map, and the map for it.

Maps are written without blanks and with sorted fields.
-/

namespace CssOptimizer

namespace SourceMap

open Json

/-- the fields of a map, in order -/
def value (source file : String) : Value :=
  .object [
    ("file", .string file),
    ("mappings", .string ""),
    ("names", .array []),
    ("sources", .array [.string source]),
    ("version", .nat 3)]

def generate (source file : String) : String := compact (value source file)

/-- a map with another file name; a text that is no object is only written anew -/
def retarget (map file : String) : Except Failure String := do
  let v ← Json.parse map
  return compact (v.sortFields.withField "file" (.string file))

end SourceMap

/-! ## stylesheets with a source map -/

/-- the texts to write for a stylesheet -/
structure EmittedFiles where
  css : String
  map : Option String
  deriving DecidableEq

def mapPath (path : String) : String := path ++ ".map"

/-- the line at the end of a stylesheet that names its source map -/
def mapTrailer (fileName : String) : String :=
  "\n/*# sourceMappingURL=" ++ mapPath fileName ++ " */\n"

def linkFiles (css : String) (sourceMap : Option String) (fileName : String) :
    Except Json.Failure EmittedFiles := do
  match sourceMap with
  | none => return ⟨css, none⟩
  | some map => return ⟨css ++ mapTrailer fileName, some (← SourceMap.retarget map fileName)⟩

end CssOptimizer
