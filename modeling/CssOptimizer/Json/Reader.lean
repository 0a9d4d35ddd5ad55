import CssOptimizer.Json.Value

/-!
# Reading JSON

A reader takes characters off the start of a text.  When it fails it says whether the text ended
too early, is malformed, or is well formed but of another shape than the reader wants.

* `Json.Failure`      the three ways in which reading fails;
* `Json.Reader`       a reader;
* `Json.readString`, `Json.readNumber`, `Json.readWord`   the parts of values;
* `Json.readItems`, `Json.readFields`   arrays and objects, given a reader for what is in them;
* `Json.readValue`    a value whose arrays and objects nest less deep than a bound;
* `Json.parse`        a text that is one value.
-/

namespace CssOptimizer.Json

/-- why a text cannot be read: it ends too early, it is malformed, or it is of the wrong shape -/
inductive Failure where
  | endOfText
  | malformed
  | wrongShape
  deriving DecidableEq, Repr, Inhabited

/-- the kind of a failure in words; where it is, and what was expected there, is not told -/
def Failure.message : Failure → String
  | endOfText => "the text ends too early"
  | malformed => "the text is malformed"
  | wrongShape => "the text is of another shape"

abbrev Reader (α : Type) := StateT (List Char) (Except Failure) α

/-- the blanks between the parts of a value -/
def isSpace (c : Char) : Bool := c == ' ' || c == '\n' || c == '\t' || c == '\r'

/-- pass over blanks -/
def skipSpace : Reader Unit := modify (·.dropWhile isSpace)

/-- the next character, which stays in place -/
def peek : Reader (Option Char) := return (← get).head?

/-- take the next character off -/
def advance : Reader Unit := modify List.tail

/-- the next character behind blanks; the text must go on -/
def nextVisible : Reader Char := do
  skipSpace
  match ← peek with
  | some c => return c
  | none => throw .endOfText

def readWord : List Char → Reader Unit
  | [] => return
  | w :: ws => do
    match ← peek with
    | none => throw .endOfText
    | some c =>
      advance
      if c = w then readWord ws else throw .malformed

/-! ## strings -/

/-- the value of a hexadecimal digit -/
def hexValue? (c : Char) : Option Nat :=
  if '0' ≤ c ∧ c ≤ '9' then some (c.toNat - '0'.toNat)
  else if 'a' ≤ c ∧ c ≤ 'f' then some (c.toNat - 'a'.toNat + 10)
  else if 'A' ≤ c ∧ c ≤ 'F' then some (c.toNat - 'A'.toNat + 10)
  else none

/-- the number that four hexadecimal digits stand for -/
def hexCode? (cs : List Char) : Option Nat :=
  if cs.length = 4 then
    cs.foldl (fun code c => do return 16 * (← code) + (← hexValue? c)) (some 0)
  else none

/-- the four digits of an escaped code; the text ends too early if fewer than four bytes are
left -/
def readHexCode : Reader Nat := do
  let cs ← get
  match hexCode? (cs.take 4) with
  | some code =>
    set (cs.drop 4)
    return code
  | none =>
    if (cs.take 4).foldl (fun n c => n + c.utf8Size) 0 < 4 then throw .endOfText
    else throw .malformed

/-- one given character; anything else is malformed -/
def expectChar (c : Char) : Reader Unit := do
  match ← peek with
  | none => throw .endOfText
  | some d =>
    advance
    if d = c then return else throw .malformed

/-- the character of an escaped code; a code above U+FFFF takes two codes, high half first -/
def readUnicode : Reader Char := do
  let high ← readHexCode
  if 0xDC00 ≤ high ∧ high ≤ 0xDFFF then throw .malformed
  else if 0xD800 ≤ high ∧ high ≤ 0xDBFF then
    expectChar '\\'
    expectChar 'u'
    let low ← readHexCode
    if 0xDC00 ≤ low ∧ low ≤ 0xDFFF then
      return Char.ofNat ((high - 0xD800) * 0x400 + (low - 0xDC00) + 0x10000)
    else throw .malformed
  else return Char.ofNat high

/-- the character behind a backslash -/
def readEscape : Reader Char := do
  match ← peek with
  | none => throw .endOfText
  | some c =>
    advance
    if c = '\x22' ∨ c = '\\' ∨ c = '/' then return c
    else if c = 'b' then return '\x08'
    else if c = 'f' then return '\x0c'
    else if c = 'n' then return '\n'
    else if c = 'r' then return '\r'
    else if c = 't' then return '\t'
    else if c = 'u' then readUnicode
    else throw .malformed

/-- the characters that stand for themselves within quotes -/
def isPlain (c : Char) : Bool := c != '\x22' && c != '\\' && 0x20 ≤ c.val

/-- the characters of a string up to its closing quote; `fuel` bounds the number of escapes -/
def readChars : Nat → Reader (List Char)
  | 0 => throw .endOfText
  | fuel + 1 => do
    let cs ← get
    let plain := cs.takeWhile isPlain
    set (cs.dropWhile isPlain)
    match ← peek with
    | none => throw .endOfText
    | some c =>
      advance
      if c = '\x22' then return plain
      else if c = '\\' then
        let c ← readEscape
        return plain ++ c :: (← readChars fuel)
      else throw .malformed

def readString : Reader String := do
  let cs ← get
  return String.ofList (← readChars (cs.length + 1))

/-! ## numbers -/

/-- the largest whole number kept as it is -/
def maxWhole : Nat := 0xFFFFFFFFFFFFFFFF

/-- the value of a decimal digit -/
def digit? (c : Char) : Option Nat :=
  if '0' ≤ c ∧ c ≤ '9' then some (c.toNat - '0'.toNat) else none

/-- take digits off for as long as the number stays at most `limit`; answers with the number and
how many digits were taken -/
def takeDigits (limit : Nat) : Nat → Nat → List Char → Nat × Nat × List Char
  | value, count, [] => (value, count, [])
  | value, count, c :: cs =>
    match digit? c with
    | none => (value, count, c :: cs)
    | some d =>
      if 10 * value + d ≤ limit then takeDigits limit (10 * value + d) (count + 1) cs
      else (value, count, c :: cs)

/-- take all digits off and count them -/
def skipDigits : Reader Nat := do
  let cs ← get
  set (cs.dropWhile (digit? · |>.isSome))
  return (cs.takeWhile (digit? · |>.isSome)).length

/-- whether the next character is a digit -/
def atDigit : Reader Bool := return (← peek).any (digit? · |>.isSome)

/-- `10^n` as a double -/
def powerOfTen (n : Nat) : Float := Float.ofScientific 1 false n

/-- divide by `10^n` in steps of at most 308; `fuel` bounds the number of steps -/
def divideByPower : Nat → Float → Nat → Float
  | 0, x, _ => x
  | fuel + 1, x, n =>
    if n ≤ 308 then x / powerOfTen n
    else if x == 0 then x
    else divideByPower fuel (x / powerOfTen 308) (n - 308)

/-- `significand · 10^exponent` as a double, worked out by one product or by quotients; a number
that is too large for a double is malformed -/
def toDouble (negative : Bool) (significand : Nat) (exponent : Int) : Except Failure Float :=
  let x := significand.toUInt64.toFloat
  let sign (x : Float) : Float := if negative then -x else x
  if exponent < 0 then
    let n := (-exponent).toNat
    .ok (sign (divideByPower (n / 308 + 1) x n))
  else if exponent ≤ 308 then
    let y := x * powerOfTen exponent.toNat
    if y.isInf then .error .malformed else .ok (sign y)
  else if x == 0 then .ok (sign x)
  else .error .malformed

/-- the largest exponent that is read digit by digit -/
def maxExponent : Nat := 0x7FFFFFFF

/-- an exponent kept within 32 bits -/
def clampExponent (e : Int) : Int := max (-0x80000000) (min 0x7FFFFFFF e)

/-- the exponent part of a number, whose mark was read -/
def readExponent (negative : Bool) (significand : Nat) (exponent : Int) : Reader Float := do
  let down ← match ← peek with
    | some '+' => advance; pure false
    | some '-' => advance; pure true
    | _ => pure false
  match ← peek with
  | none => throw .endOfText
  | some _ =>
    if !(← atDigit) then throw .malformed
    let (value, _, rest) := takeDigits maxExponent 0 0 (← get)
    set rest
    if ← atDigit then
      if significand ≠ 0 ∧ !down then throw .malformed
      let _ ← skipDigits
      return if negative then -0.0 else 0.0
    let shift : Int := if down then -value else value
    toDouble negative significand (clampExponent (exponent + shift))

/-- what may follow the digits of a number that is no whole number of 64 bits -/
def readScale (negative : Bool) (significand : Nat) (exponent : Int) : Reader Float := do
  match ← peek with
  | some 'e' | some 'E' =>
    advance
    readExponent negative significand exponent
  | _ => toDouble negative significand exponent

/-- the digits behind a decimal point, which was read; those that do not fit are passed over -/
def readFraction (negative : Bool) (significand : Nat) (exponent : Int) : Reader Float := do
  let (value, count, rest) := takeDigits maxWhole significand 0 (← get)
  set rest
  let more ← skipDigits
  if count = 0 ∧ more = 0 then
    match ← peek with
    | none => throw .endOfText
    | some _ => throw .malformed
  readScale negative value (exponent - count)

def readNumber (negative : Bool) : Reader Number := do
  match ← peek with
  | none => throw .endOfText
  | some '0' =>
    advance
    if ← atDigit then throw .malformed
    finish 0
  | some _ =>
    if !(← atDigit) then throw .malformed
    let (value, _, rest) := takeDigits maxWhole 0 0 (← get)
    set rest
    if ← atDigit then
      let more ← skipDigits
      match ← peek with
      | some '.' =>
        advance
        return .double (← readFraction negative value more)
      | _ => return .double (← readScale negative value more)
    finish value
where
  /-- a number whose whole part fits into 64 bits -/
  finish (value : Nat) : Reader Number := do
    match ← peek with
    | some '.' =>
      advance
      return .double (← readFraction negative value 0)
    | some 'e' | some 'E' =>
      advance
      return .double (← readExponent negative value 0)
    | _ =>
      if !negative then return .whole value
      else if value = 0 ∨ 0x8000000000000000 < value then return .double (-value.toUInt64.toFloat)
      else return .whole (-value)

/-! ## arrays and objects -/

/-- the items of an array, whose opening bracket was read; `fuel` bounds their number -/
def readItemsFrom {α : Type} (item : Reader α) (first : Bool) : Nat → Reader (List α)
  | 0 => throw .endOfText
  | fuel + 1 => do
    let c ← nextVisible
    if c = ']' then
      advance
      return []
    if !first then
      if c ≠ ',' then throw .malformed
      advance
      if (← nextVisible) = ']' then throw .malformed
    let a ← item
    return a :: (← readItemsFrom item false fuel)

def readItems {α : Type} (item : Reader α) : Reader (List α) := do
  readItemsFrom item true ((← get).length + 1)

/-- the colon between a field and its value -/
def readColon : Reader Unit := do
  if (← nextVisible) ≠ ':' then throw .malformed
  advance

/-- move on to the next key of an object and past its opening quote, or past the closing brace -/
def nextKey (first : Bool) : Reader Bool := do
  let c ← nextVisible
  if c = '}' then
    advance
    return false
  if !first then
    if c ≠ ',' then throw .malformed
    advance
  if (← nextVisible) ≠ '\x22' then throw .malformed
  advance
  return true

/-- the fields of an object, whose opening brace was read; `fuel` bounds their number -/
def readFieldsFrom {α : Type} (field : String → Reader α) (first : Bool) :
    Nat → Reader (List (String × α))
  | 0 => throw .endOfText
  | fuel + 1 => do
    if ← nextKey first then
      let name ← readString
      let a ← field name
      return (name, a) :: (← readFieldsFrom field false fuel)
    else return []

def readFields {α : Type} (field : String → Reader α) : Reader (List (String × α)) := do
  readFieldsFrom field true ((← get).length + 1)

/-! ## values -/

/-- a word, a number or a string whose first character is `c`; other characters start none -/
def readScalar (c : Char) : Reader Value := do
  if c = '\x22' then
    advance
    return .string (← readString)
  else if c = 'n' then
    readWord "null".toList
    return .null
  else if c = 't' then
    readWord "true".toList
    return .bool true
  else if c = 'f' then
    readWord "false".toList
    return .bool false
  else if c = '-' then
    advance
    return .number (← readNumber true)
  else if (digit? c).isSome then return .number (← readNumber false)
  else throw .malformed

def readValue : Nat → Reader Value
  | 0 => do
    let c ← nextVisible
    if c = '[' ∨ c = '{' then throw .malformed else readScalar c
  | depth + 1 => do
    let c ← nextVisible
    if c = '[' then
      advance
      return .array (← readItems (readValue depth))
    else if c = '{' then
      advance
      return .object (← readFields fun _ => do
        readColon
        readValue depth)
    else readScalar c

/-- how deep arrays and objects may nest -/
def maxDepth : Nat := 127

/-- all of a text: only blanks may follow -/
def readAll {α : Type} (reader : Reader α) (text : String) : Except Failure α := do
  let (a, rest) ← reader.run text.toList
  if rest.all isSpace then return a else throw .malformed

def parse (text : String) : Except Failure Value := readAll (readValue maxDepth) text

end CssOptimizer.Json
