import CssOptimizer.Collection.InsertionMap
import CssOptimizer.Sheet.Declaration

/-!
# Names of atomic classes

* `ClassNaming`       by content or in sequence;
* `NameSupply`        what is known of the names given out so far;
* `NameSupply.draw`   the name of a declaration key, and the supply behind it.

The hash of a text is a parameter: names by content start with an underscore, followed by as much
of the hash of the key as no other key has taken.

Main statement: the digits of a name are a start of the hash (`freePrefix_prefix`).
-/

namespace CssOptimizer

/-- how atomic classes are named: by the hash of their declaration, or by counting -/
inductive ClassNaming where
  | byContent
  | inSequence
  deriving DecidableEq, Repr, Inhabited

structure NameSupply where
  next : Nat := 0
  taken : InsertionMap String DeclarationKey := []

namespace NameSupply

/-- the digits of the hash in a name, if no other key has them -/
def shortLength : Nat := 8

/-- the start of a hash, two digits longer for as long as it is taken -/
def freePrefix (isTaken : List Char → Bool) (hash : List Char) (length : Nat) : List Char :=
  if isTaken (hash.take length) ∧ length < hash.length then
    freePrefix isTaken hash (length + 2)
  else hash.take length
termination_by hash.length - length

theorem freePrefix_prefix (isTaken : List Char → Bool) (hash : List Char) (length : Nat) :
    freePrefix isTaken hash length <+: hash := by
  fun_induction freePrefix isTaken hash length with
  | case1 length h ih => exact ih
  | case2 length h => exact List.take_prefix _ _

/-- a name by content -/
def contentName (digits : List Char) : String := String.ofList ('_' :: digits)

/-- whether another key than `key` has the name with these digits -/
def isTaken (n : NameSupply) (key : DeclarationKey) (digits : List Char) : Bool :=
  (InsertionMap.at? n.taken (contentName digits)).any (· ≠ key)

def draw (hash : String → String) (naming : ClassNaming) (n : NameSupply) (key : DeclarationKey) :
    String × NameSupply :=
  match naming with
  | .inSequence => ("_" ++ toString n.next, { n with next := n.next + 1 })
  | .byContent =>
    let name := contentName (freePrefix (n.isTaken key) (hash key.text).toList shortLength)
    (name, { n with taken := InsertionMap.amend n.taken name fun _ => key })

/-- the names of keys, drawn one after the other -/
def drawAll (hash : String → String) (naming : ClassNaming) :
    NameSupply → List DeclarationKey → InsertionMap DeclarationKey String
  | _, [] => []
  | n, key :: keys =>
    let (name, n) := n.draw hash naming key
    (key, name) :: drawAll hash naming n keys

theorem keys_drawAll (hash : String → String) (naming : ClassNaming) (n : NameSupply)
    (keys : List DeclarationKey) : (drawAll hash naming n keys).keys = keys := by
  induction keys generalizing n with
  | nil => rfl
  | cons key keys ih =>
    simp only [InsertionMap.keys] at ih
    simp [drawAll, InsertionMap.keys, ih]

end NameSupply
end CssOptimizer
