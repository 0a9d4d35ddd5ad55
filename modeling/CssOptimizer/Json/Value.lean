import CssOptimizer.Collection.NameMap

/-!
# JSON values

* `Json.Number`           a whole number, or a double for all other numbers;
* `Json.Value`            a value; the fields of an object stand in written order, repeats kept;
* `Value.field?`          the field of a name, the last one if it is repeated;
* `Value.sortFields`      the fields of every object in increasing order, without repeats;
* `Value.withField`       an object with one field set.
-/

namespace CssOptimizer.Json

/-- whole numbers of 64 bits are kept as they are, all other numbers are doubles -/
inductive Number where
  | whole (value : Int)
  | double (value : Float)
  deriving Inhabited

inductive Value where
  | null
  | bool (value : Bool)
  | number (value : Number)
  | string (value : String)
  | array (items : List Value)
  | object (fields : List (String × Value))
  deriving Inhabited

namespace Value

/-- a whole number as a value -/
def nat (n : Nat) : Value := .number (.whole n)

/-- the last field of a name -/
def lastField? (name : String) : List (String × Value) → Option Value
  | [] => none
  | (k, v) :: fields => (lastField? name fields).or (if k = name then some v else none)

def field? (v : Value) (name : String) : Option Value :=
  match v with
  | object fields => lastField? name fields
  | _ => none

/-- write a field into a list of fields in increasing order -/
def setField (fields : List (String × Value)) (name : String) (v : Value) :
    List (String × Value) := NameMap.insertList name v fields

mutual

/-- the fields of every object in increasing order; of a repeated field the last one counts -/
def sortFields : Value → Value
  | array items => array (sortItems items)
  | object fields => object (sortEntries [] fields)
  | v => v

def sortItems : List Value → List Value
  | [] => []
  | v :: items => sortFields v :: sortItems items

/-- write fields one after the other into a list in increasing order -/
def sortEntries (sorted : List (String × Value)) : List (String × Value) → List (String × Value)
  | [] => sorted
  | (name, v) :: fields => sortEntries (setField sorted name (sortFields v)) fields

end

/-- an object with sorted fields with one field set; other values stay as they are -/
def withField (v : Value) (name : String) (x : Value) : Value :=
  match v with
  | object fields => object (setField fields name x)
  | other => other

end Value
end CssOptimizer.Json
