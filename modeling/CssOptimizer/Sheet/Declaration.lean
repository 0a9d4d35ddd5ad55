import CssOptimizer.Text.Blank

/-!
# Declarations

* `Declaration`            a property with its value, both verbatim;
* `Declaration.key`        what two spellings of one declaration have in common;
* `DeclarationKey.text`    the key as `property:value`.

Main statement: a normal form has no blanks at its ends (`trim_normalize`).
-/

namespace CssOptimizer

structure Declaration where
  property : String
  value : String
  deriving DecidableEq, Inhabited

/-- a declaration after normalization of both sides -/
structure DeclarationKey where
  property : String
  value : String
  deriving DecidableEq, Inhabited

/-! ## normal forms -/

/-- without blanks at the ends, then without the semicolons at the end, then without the blanks
that stood before these -/
def normalize (cs : List Char) : List Char :=
  Text.trimEnd (Text.dropEndWhile (· == ';') (Text.trim cs))

theorem trim_normalize (cs : List Char) : Text.trim (normalize cs) = normalize cs := by
  have hs : Text.trimStart (normalize cs) = normalize cs :=
    Text.dropWhile_dropEndWhile _ _ _
      (Text.dropWhile_dropEndWhile _ _ _ (Text.trimStart_trim cs))
  rw [Text.trim, hs]
  exact Text.dropEndWhile_idem _ _

namespace DeclarationKey

/-- the key of the spellings `property` and `value` -/
def ofTexts (property value : String) : DeclarationKey :=
  ⟨Text.onString normalize property, Text.onString normalize value⟩

def text (k : DeclarationKey) : String := k.property ++ ":" ++ k.value

end DeclarationKey

namespace Declaration

def key (d : Declaration) : DeclarationKey := .ofTexts d.property d.value

/-- a custom property is one whose name starts with two hyphens -/
def isCustomProperty (d : Declaration) : Bool := "--".toList.isPrefixOf d.property.toList

end Declaration
end CssOptimizer
