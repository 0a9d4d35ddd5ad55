import CssOptimizer.Usage.Attribute
import CssOptimizer.Usage.Basic

/-!
# Usage of HTML

`Usage.ofHtml` scans rendered HTML.  Every quoted `class` value adds its words, every quoted `id`
value itself, every `<` with a name behind it a tag, and every data attribute its name.
-/

namespace CssOptimizer

namespace Usage

/-- the characters that may stand before an attribute of HTML -/
def opensHtmlAttribute (c : Char) : Bool :=
  Text.isBlank c || c == '<' || c == '\x22' || c == '\x27'

/-- the class names in quoted values -/
def classNames (values : List (List Char)) : List String :=
  (values.flatMap Text.words).map String.ofList

/-- the ids in quoted values: blanks at the ends do not count, and an empty id is none -/
def idNames (values : List (List Char)) : List String :=
  ((values.map Text.trim).filter (!·.isEmpty)).map String.ofList

/-- the ids in markup; HTML and components write them alike -/
def markupIds (cs : List Char) : List String :=
  idNames (Attribute.quotedValues opensHtmlAttribute ["id"] cs)

/-- the names of the data attributes in markup -/
def markupAttributes (cs : List Char) : List String :=
  (Attribute.dataNames cs).map String.ofList

/-- a tag of HTML: an opening angle bracket with a letter behind it -/
def htmlTag : Text.Pattern (List Char) := fun _ cs =>
  match cs with
  | '<' :: cs => (Selector.leadingTag cs).map fun name => (name, name.length + 1)
  | _ => none

/-- the tags in HTML, in lower case -/
def htmlTags (cs : List Char) : List String :=
  (Text.occurrences htmlTag cs).map fun name => String.ofList (Text.lowerAscii name)

def ofHtml (html : String) : Usage :=
  let cs := html.toList
  { classes := .ofList (classNames (Attribute.quotedValues opensHtmlAttribute ["class"] cs))
    ids := .ofList (markupIds cs)
    tags := .ofList (htmlTags cs)
    attributes := .ofList (markupAttributes cs) }

end Usage
end CssOptimizer
