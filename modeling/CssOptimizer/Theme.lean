import CssOptimizer.Collection.NameMap
import CssOptimizer.Json.Reader
import CssOptimizer.Sheet.Print

/-!
# Themes

A theme is a set of design tokens, grouped by category.  Each token becomes a custom property of
the root: `--category-key: value`.

* `Theme.withToken`   a theme with one token set;
* `Theme.node`        the rule that declares all tokens;
* `Theme.css`         that rule as text, nothing if there are no tokens;
* `Theme.ofJson?`     a theme from an object of objects of texts;
* `Theme.parse`       a theme from JSON text.

Main statement: a token has the value that was set for it last (`token?_withToken`).
-/

namespace CssOptimizer

/-- design tokens by category and key -/
structure Theme where
  tokens : NameMap (NameMap String) := ∅
  deriving Inhabited

namespace Theme

def withToken (t : Theme) (category key value : String) : Theme :=
  ⟨t.tokens.insert category (((t.tokens.get? category).getD ∅).insert key value)⟩

/-- the value of a token -/
def token? (t : Theme) (category key : String) : Option String :=
  (t.tokens.get? category).bind (·.get? key)

def isEmpty (t : Theme) : Bool := t.tokens.values.all (·.isEmpty)

/-- the custom property of a token -/
def property (category key : String) : String := "--" ++ category ++ "-" ++ key

/-- the declarations of all tokens, by category and key -/
def declarations (t : Theme) : List Declaration :=
  t.tokens.entries.flatMap fun (category, entries) =>
    entries.entries.map fun (key, value) => ⟨property category key, value⟩

def node (t : Theme) : Node := .rule ":root" t.declarations

def css (minify : Bool) (t : Theme) : String :=
  if t.isEmpty then "" else printSheet minify [t.node]

theorem token?_withToken (t : Theme) (category key value category' key' : String) :
    (t.withToken category key value).token? category' key' =
      if (category, key) = (category', key') then some value else t.token? category' key' := by
  rw [token?, withToken, NameMap.get?_insert]
  by_cases hcategory : category = category'
  · subst hcategory
    rw [if_pos rfl, Option.bind_some, NameMap.get?_insert, token?]
    by_cases hkey : key = key'
    · rw [if_pos hkey, if_pos (by rw [hkey])]
    · rw [if_neg hkey, if_neg fun he => hkey (Prod.mk.inj he).2]
      cases t.tokens.get? category <;> rfl
  · rw [if_neg hcategory, if_neg fun he => hcategory (Prod.mk.inj he).1, token?]

/-! ## JSON -/

/-- a map of names from the fields of an object, of a repeated field the last one -/
def fieldsToMap? {α : Type} (f : Json.Value → Option α) : Json.Value → Option (NameMap α)
  | .object fields => do
    let entries ← fields.mapM fun (name, v) => do return (name, ← f v)
    return NameMap.ofList entries
  | _ => none

def text? : Json.Value → Option String
  | .string s => some s
  | _ => none

def ofJson? (v : Json.Value) : Option Theme :=
  (fieldsToMap? (fieldsToMap? text?) v).map fun tokens => ⟨tokens⟩

def parse (text : String) : Except Json.Failure Theme := do
  match ofJson? (← Json.parse text) with
  | some t => return t
  | none => throw .wrongShape

end Theme
end CssOptimizer
