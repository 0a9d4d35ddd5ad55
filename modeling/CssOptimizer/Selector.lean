import CssOptimizer.Text.Blank
import CssOptimizer.Text.Occurrence
import CssOptimizer.Text.Classes

/-!
# Selectors

A selector is a text.  It is a list of components between commas, and a component names classes,
ids, data attributes and possibly the tag it starts with.

* `Selector.components`       the components, without blanks at their ends;
* `Selector.classes`, `Selector.ids`, `Selector.dataAttributes`   the names in order, repeats kept;
* `Selector.tag?`             the tag a component starts with, in lower case;
* `Selector.isGlobal`         components that carry resets and theme variables;
* `Selector.isBase`           selectors of rules that belong on every page.
-/

namespace CssOptimizer.Selector

/-! ## components -/

/-- the nesting depth behind a character: parentheses and brackets count alike, and closing ones
too many are passed over -/
def depthBehind (depth : Nat) (c : Char) : Nat :=
  if c = '(' ∨ c = '[' then depth + 1
  else if c = ')' ∨ c = ']' then depth - 1
  else depth

/-- the texts between the commas outside parentheses and brackets -/
def splitAtCommas : Nat → List Char → List (List Char)
  | _, [] => [[]]
  | depth, c :: cs =>
    if c = ',' ∧ depth = 0 then [] :: splitAtCommas depth cs
    else (splitAtCommas (depthBehind depth c) cs).modifyHead (c :: ·)

/-- the components of a selector, as characters -/
def componentChars (cs : List Char) : List (List Char) :=
  ((splitAtCommas 0 cs).map Text.trim).filter (!·.isEmpty)

def components (selector : String) : List String :=
  (componentChars selector.toList).map String.ofList

/-! ## names -/

/-- a mark with a name behind it, such as `.name` -/
def marked (mark : Char) : Text.Pattern (List Char) := fun _ cs =>
  match cs with
  | [] => none
  | c :: cs =>
    let name := Text.leadingName cs
    if c = mark ∧ name ≠ [] then some (name, name.length + 1) else none

/-- an attribute `data-name` behind an opening bracket -/
def bracketedData : Text.Pattern (List Char) := fun _ cs =>
  match cs with
  | '[' :: cs =>
    let blanks := cs.takeWhile Text.isBlank
    match Text.literal "data-".toList (cs.dropWhile Text.isBlank) with
    | none => none
    | some cs =>
      let name := Text.leadingName cs
      if name.isEmpty then none else some (name, 1 + blanks.length + 5 + name.length)
  | _ => none

def classes (selector : String) : List String :=
  (Text.occurrences (marked '.') selector.toList).map String.ofList

def ids (selector : String) : List String :=
  (Text.occurrences (marked '#') selector.toList).map String.ofList

def dataAttributes (selector : String) : List String :=
  (Text.occurrences bracketedData selector.toList).map String.ofList

/-- the tag name at the start of a text, as written: a letter and the name behind it -/
def leadingTag : List Char → Option (List Char)
  | [] => none
  | c :: cs => if Text.isAsciiLetter c then some (c :: Text.leadingName cs) else none

def tag? (component : String) : Option String :=
  (leadingTag (Text.trimStart component.toList)).map fun name =>
    String.ofList (Text.lowerAscii name)

/-! ## kinds of selectors -/

/-- components that carry resets and theme variables: `:root`, `*`, `html` and `body` -/
def isGlobal (component : String) : Bool :=
  let cs := Text.trimStart component.toList
  ":root".toList.isPrefixOf cs || "*".toList.isPrefixOf cs ||
    tag? component == some "html" || tag? component == some "body"

/-- whether a component names a class or an id -/
def isNamed (component : String) : Bool :=
  !(classes component).isEmpty || !(ids component).isEmpty

/-- the selector of a rule that belongs on every page: a component is global, or none names a
class or an id -/
def isBase (selector : String) : Bool :=
  (components selector).any isGlobal || (components selector).all (!isNamed ·)

end CssOptimizer.Selector
