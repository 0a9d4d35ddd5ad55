import CssOptimizer.Decimal.Shortest
import CssOptimizer.Json.Value

/-!
# Writing JSON

* `Json.quote`     a string with its quotes;
* `Json.compact`   a value without any blank;
* `Json.pretty`    a value with one item a line, inner ones indented by two spaces.

Quotes, backslashes and the controls below U+0020 are escaped; all other characters stand as they
are.
-/

namespace CssOptimizer.Json

/-! ## strings -/

/-- a character within quotes -/
def escape (c : Char) : List Char :=
  if c = '\x22' then ['\\', '\x22']
  else if c = '\\' then ['\\', '\\']
  else if c = '\x08' then ['\\', 'b']
  else if c = '\t' then ['\\', 't']
  else if c = '\n' then ['\\', 'n']
  else if c = '\x0c' then ['\\', 'f']
  else if c = '\r' then ['\\', 'r']
  else if c.val < 0x20 then
    ['\\', 'u', '0', '0', Nat.digitChar (c.toNat / 16), Nat.digitChar (c.toNat % 16)]
  else [c]

def quote (s : String) : String :=
  String.ofList ('\x22' :: (s.toList.flatMap escape ++ ['\x22']))

/-! ## values -/

def Number.text : Number → String
  | .whole value => toString value
  | .double value => Decimal.shortestText value

/-- a value that has no parts -/
def scalar : Value → String
  | .null => "null"
  | .bool value => if value then "true" else "false"
  | .number value => value.text
  | .string value => quote value
  | .array _ => "[]"
  | .object _ => "\x7b\x7d"

mutual

def compact : Value → String
  | .array items => "[" ++ compactItems items ++ "]"
  | .object fields => "\x7b" ++ compactFields fields ++ "\x7d"
  | v => scalar v

def compactItems : List Value → String
  | [] => ""
  | [v] => compact v
  | v :: w :: items => compact v ++ "," ++ compactItems (w :: items)

def compactFields : List (String × Value) → String
  | [] => ""
  | [(name, v)] => quote name ++ ":" ++ compact v
  | (name, v) :: field :: fields =>
    quote name ++ ":" ++ compact v ++ "," ++ compactFields (field :: fields)

end

/-- a new line with its indentation -/
def newLine (depth : Nat) : String := String.ofList ('\n' :: List.replicate (2 * depth) ' ')

mutual

/-- a value with one item a line -/
def prettyAt (depth : Nat) : Value → String
  | .array (v :: items) =>
    "[" ++ prettyItems (depth + 1) (v :: items) ++ newLine depth ++ "]"
  | .object (field :: fields) =>
    "\x7b" ++ prettyFields (depth + 1) (field :: fields) ++ newLine depth ++ "\x7d"
  | v => scalar v

def prettyItems (depth : Nat) : List Value → String
  | [] => ""
  | [v] => newLine depth ++ prettyAt depth v
  | v :: w :: items => newLine depth ++ prettyAt depth v ++ "," ++ prettyItems depth (w :: items)

def prettyFields (depth : Nat) : List (String × Value) → String
  | [] => ""
  | [(name, v)] => newLine depth ++ quote name ++ ": " ++ prettyAt depth v
  | (name, v) :: field :: fields =>
    newLine depth ++ quote name ++ ": " ++ prettyAt depth v ++ "," ++
      prettyFields depth (field :: fields)

end

def pretty (v : Value) : String := prettyAt 0 v

end CssOptimizer.Json
