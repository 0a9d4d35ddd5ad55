import CssOptimizer.Text.Blank
import CssOptimizer.Text.Occurrence
import CssOptimizer.Text.Classes

/-!
# Attributes in markup

The scans of markup look for attributes by name, wherever they stand, and never fail.

* `Attribute.value?`       an attribute with one of some names and a quoted value;
* `Attribute.quotedValues` the values of all such attributes;
* `Attribute.dataNames`    the names of the data attributes, without `data-`.
-/

namespace CssOptimizer.Attribute

/-- a text without the blanks at its start, and their number -/
def skipBlanks (cs : List Char) : List Char × Nat :=
  (cs.dropWhile Text.isBlank, (cs.takeWhile Text.isBlank).length)

/-- a quoted value at the start of a text, up to the next quote of its kind, and its length with
both quotes -/
def quoted : List Char → Option (List Char × Nat)
  | [] => none
  | c :: cs =>
    if c = '\x22' ∨ c = '\x27' then
      let value := cs.takeWhile (· != c)
      if (cs.dropWhile (· != c)).isEmpty then none else some (value, value.length + 2)
    else none

/-- an attribute `name = value` at the start of a text: blanks may stand around the equals sign -/
def value? (name : List Char) (cs : List Char) : Option (List Char × Nat) :=
  match Text.literal name cs with
  | none => none
  | some cs =>
    let (cs, before) := skipBlanks cs
    match cs with
    | '=' :: cs =>
      let (cs, behind) := skipBlanks cs
      (quoted cs).map fun (value, length) =>
        (value, name.length + before + 1 + behind + length)
    | _ => none

/-- an attribute with one of the names, at the start of the markup or behind a character in
`opens` -/
def pattern (opens : Char → Bool) (names : List (List Char)) : Text.Pattern (List Char) :=
  fun before cs =>
    let here (cs : List Char) := names.findSome? (value? · cs)
    match if before.isNone then here cs else none with
    | some found => some found
    | none =>
      match cs with
      | [] => none
      | c :: cs =>
        if opens c then (here cs).map fun (value, length) => (value, length + 1) else none

def quotedValues (opens : Char → Bool) (names : List String) (cs : List Char) :
    List (List Char) :=
  Text.occurrences (pattern opens (names.map String.toList)) cs

/-- a data attribute behind a blank or an opening angle bracket -/
def dataPattern : Text.Pattern (List Char) := fun _ cs =>
  match cs with
  | [] => none
  | c :: cs =>
    if Text.isBlank c || c == '<' then
      match Text.literal "data-".toList cs with
      | none => none
      | some cs =>
        let name := Text.leadingName cs
        if name.isEmpty then none else some (name, 6 + name.length)
    else none

def dataNames (cs : List Char) : List (List Char) := Text.occurrences dataPattern cs

end CssOptimizer.Attribute
