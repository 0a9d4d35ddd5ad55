import CssOptimizer.Json.Reader
import CssOptimizer.Options

/-!
# Options as JSON

Options are an object whose fields may be left out, or an array of their values in a fixed order
whose end may be left out.  A field that is unknown, repeated or of the wrong shape is refused as
soon as it is read.

* `OptionName`         the names of the fields, in the order of the array form;
* `readOption`         the value of one field, written into options;
* `Options.parse`      a text that is options.
-/

namespace CssOptimizer

open Json

inductive OptionName where
  | purge
  | deduplicate
  | atomic
  | atomicNaming
  | stripAtomic
  | minify
  | sourceMap
  | sourceName
  deriving DecidableEq, Repr

namespace OptionName

/-- all fields in the order of the array form -/
def all : List OptionName :=
  [purge, deduplicate, atomic, atomicNaming, stripAtomic, minify, sourceMap, sourceName]

/-- the name of a field as it is written -/
def text : OptionName → String
  | purge => "purge"
  | deduplicate => "deduplicate"
  | atomic => "atomic"
  | atomicNaming => "atomic_naming"
  | stripAtomic => "rewrite_atomic"
  | minify => "minify"
  | sourceMap => "sourcemap"
  | sourceName => "source_name"

/-- the field of a written name -/
def ofText? (name : String) : Option OptionName := all.find? (·.text == name)

end OptionName

/-- the naming of a written name -/
def ClassNaming.ofText? (name : String) : Option ClassNaming :=
  if name = "content-hash" then some .byContent
  else if name = "sequential" then some .inSequence
  else none

def ClassNaming.text : ClassNaming → String
  | .byContent => "content-hash"
  | .inSequence => "sequential"

namespace Options

/-! ## values -/

/-- refuse a value of the wrong shape; a word, a number or a string that is malformed is refused
for that -/
def refuse {α : Type} (c : Char) : Reader α := do
  if c = '[' ∨ c = '{' then throw .wrongShape
  else
    let _ ← readScalar c
    throw .wrongShape

/-- a truth value -/
def readBool : Reader Bool := do
  let c ← nextVisible
  if c = 't' then
    readWord "true".toList
    return true
  else if c = 'f' then
    readWord "false".toList
    return false
  else refuse c

/-- a text -/
def readText : Reader String := do
  let c ← nextVisible
  if c = '\x22' then
    advance
    readString
  else refuse c

/-- nothing -/
def readNull : Reader Unit := do
  let c ← nextVisible
  if c = 'n' then readWord "null".toList else refuse c

/-- a naming by its name -/
def readNamingName : Reader ClassNaming := do
  match ClassNaming.ofText? (← readText) with
  | some naming => return naming
  | none => throw .wrongShape

/-- a naming: its name, or an object that holds nothing under that name -/
def readNaming : Reader ClassNaming := do
  let c ← nextVisible
  if c = '\x22' then readNamingName
  else if c = '{' then
    advance
    if (← nextVisible) ≠ '\x22' then throw .malformed
    let naming ← readNamingName
    readColon
    readNull
    if (← nextVisible) ≠ '}' then throw .malformed
    advance
    return naming
  else throw .malformed

/-! ## fields -/

def readOption (options : Options) : OptionName → Reader Options
  | .purge => return { options with purge := ← readBool }
  | .deduplicate => return { options with deduplicate := ← readBool }
  | .atomic => return { options with atomic := ← readBool }
  | .atomicNaming => return { options with atomicNaming := ← readNaming }
  | .stripAtomic => return { options with stripAtomic := ← readBool }
  | .minify => return { options with minify := ← readBool }
  | .sourceMap => return { options with sourceMap := ← readBool }
  | .sourceName => return { options with sourceName := ← readText }

/-- the fields of an object, whose opening brace was read; `fuel` bounds their number -/
def readFieldsFrom (seen : List OptionName) (options : Options) : Nat → Reader Options
  | 0 => throw .endOfText
  | fuel + 1 => do
    if ← nextKey seen.isEmpty then
      match OptionName.ofText? (← readString) with
      | none => throw .wrongShape
      | some name =>
        if seen.contains name then throw .wrongShape
        readColon
        readFieldsFrom (name :: seen) (← readOption options name) fuel
    else return options

/-- the values of an array, whose opening bracket was read, for the given fields -/
def readItemsFrom (first : Bool) (options : Options) : List OptionName → Reader Options
  | [] => do
    if (← nextVisible) ≠ ']' then throw .malformed
    advance
    return options
  | name :: names => do
    let c ← nextVisible
    if c = ']' then
      advance
      return options
    if !first then
      if c ≠ ',' then throw .malformed
      advance
      if (← nextVisible) = ']' then throw .malformed
    readItemsFrom false (← readOption options name) names

/-- options as an object or as an array -/
def read : Reader Options := do
  let c ← nextVisible
  if c = '{' then
    advance
    readFieldsFrom [] {} (OptionName.all.length + 1)
  else if c = '[' then
    advance
    readItemsFrom true {} OptionName.all
  else refuse c

def parse (text : String) : Except Failure Options := readAll read text

/-! ## writing -/

/-- options as a value with all fields -/
def toJson (options : Options) : Value :=
  .object (OptionName.all.map fun name => (name.text, match name with
    | .purge => .bool options.purge
    | .deduplicate => .bool options.deduplicate
    | .atomic => .bool options.atomic
    | .atomicNaming => .string options.atomicNaming.text
    | .stripAtomic => .bool options.stripAtomic
    | .minify => .bool options.minify
    | .sourceMap => .bool options.sourceMap
    | .sourceName => .string options.sourceName))

end Options
end CssOptimizer
