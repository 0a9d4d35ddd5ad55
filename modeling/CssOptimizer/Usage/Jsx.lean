import CssOptimizer.Usage.Html

/-!
# Usage of component sources

`Usage.ofJsx` scans sources with markup in them, as JSX has it.  Classes come from quoted
`class` and `className` values and from template literals; tags that start with a capital letter
are components and no elements.

* `maskTemplate`     a template with a placeholder for each interpolation;
* `templateValues`   the template literals that are values of `className`;
* `jsxTags`          the tags of elements.
-/

namespace CssOptimizer

namespace Usage

/-! ## template literals -/

/-- what stands for an interpolation; it never appears in markup -/
def placeholder : Char := '\x00'

/-- mask what follows: `depth` counts the braces of an interpolation that are still open, and
none are outside interpolations -/
def maskFrom : Nat → List Char → List Char
  | _, [] => []
  | 0, '$' :: '{' :: cs => placeholder :: maskFrom 1 cs
  | 0, c :: cs => c :: maskFrom 0 cs
  | depth + 1, '{' :: cs => maskFrom (depth + 2) cs
  | depth + 1, '}' :: cs => maskFrom depth cs
  | depth + 1, _ :: cs => maskFrom (depth + 1) cs

/-- a template with a placeholder for each interpolation, whose braces are balanced -/
def maskTemplate (cs : List Char) : List Char := maskFrom 0 cs

/-- the text of a template literal behind its opening quote, and the rest behind its closing one;
a backslash takes the next character with it, but never a line feed -/
def template : List Char → Option (List Char × List Char)
  | [] => none
  | '\\' :: c :: cs =>
    if c = '\n' then none else (template cs).map fun (text, rest) => ('\\' :: c :: text, rest)
  | c :: cs =>
    if c = '\x60' then some ([], cs)
    else if c = '\\' then none
    else (template cs).map fun (text, rest) => (c :: text, rest)

/-- the value of a `className` that is a template literal between braces -/
def templatePattern : Text.Pattern (List Char) := fun _ cs => do
  let blanksBehind (cs : List Char) : List Char := cs.dropWhile Text.isBlank
  let cs₁ ← Text.literal "className".toList cs
  let cs₂ ← Text.literal ['='] (blanksBehind cs₁)
  let cs₃ ← Text.literal ['{'] (blanksBehind cs₂)
  let cs₄ ← Text.literal ['\x60'] (blanksBehind cs₃)
  let (text, cs₅) ← template cs₄
  let cs₆ ← Text.literal ['}'] (blanksBehind cs₅)
  return (text, cs.length - cs₆.length)

def templateValues (cs : List Char) : List (List Char) := Text.occurrences templatePattern cs

/-- the words of templates that touch no interpolation -/
def staticWords (templates : List (List Char)) : List String :=
  ((templates.flatMap fun t => Text.words (maskTemplate t)).filter
    (!·.contains placeholder)).map String.ofList

/-! ## tags -/

/-- the characters that may stand before a class attribute of a component source -/
def opensJsxAttribute (c : Char) : Bool :=
  Text.isBlank c || c == '<' || c == '{' || c == '(' || c == ','

/-- the characters that identifiers end with -/
def endsIdentifier (c : Char) : Bool := Text.isAlphanumeric c || c == '_' || c == '$'

/-- whether `part` occurs in a text -/
def occursIn (part : List Char) : List Char → Bool
  | [] => part.isEmpty
  | c :: cs => part.isPrefixOf (c :: cs) || occursIn part cs

/-- whether the tag that ends where `rest` starts closes itself: the next angle bracket is a
closing one, with a slash before it -/
def closesItself (rest : List Char) : Bool :=
  match Text.cutAt (fun c => c == '<' || c == '>') rest with
  | some (inner, '>', _) => "/".toList.isSuffixOf (Text.trimEnd inner)
  | _ => false

/-- a tag of a component source: behind an identifier, where a comparison or a type argument may
stand, it counts only if it is closed somewhere in the source -/
def jsxTag (source : List Char) : Text.Pattern (Option (List Char)) := fun before cs =>
  match cs with
  | '<' :: c :: cs =>
    if Text.isAsciiLetter c then
      let isTagName (c : Char) : Bool := Text.isName c || c == '.'
      let name := c :: cs.takeWhile isTagName
      let isElement := !before.any endsIdentifier ||
        occursIn ('<' :: '/' :: name) source || closesItself (cs.dropWhile isTagName)
      let isPlain := c.isLower && !name.contains '.'
      some (if isElement && isPlain then some name else none, name.length + 1)
    else none
  | _ => none

def jsxTags (cs : List Char) : List String :=
  ((Text.occurrences (jsxTag cs) cs).filterMap id).map String.ofList

def ofJsx (source : String) : Usage :=
  let cs := source.toList
  { classes := .ofList
      (classNames (Attribute.quotedValues opensJsxAttribute ["className", "class"] cs) ++
        staticWords (templateValues cs))
    ids := .ofList (markupIds cs)
    tags := .ofList (jsxTags cs)
    attributes := .ofList (markupAttributes cs) }

end Usage
end CssOptimizer
