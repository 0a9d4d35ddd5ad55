/-!
# Occurrences of a pattern

A pattern is a function that looks at the start of a text, knowing the character before it, and
answers with the value it reads there and the number of characters it takes up.

* `occurrences m cs`   the values of the leftmost occurrences that do not overlap;
* `literal w cs`       what follows the word `w` at the start of `cs`.

Main statement: after an occurrence the search goes on behind it (`occurrencesFrom_skip`).
-/

namespace CssOptimizer.Text

/-- a pattern: the character before, the text from here on; the value read and its length -/
abbrev Pattern (α : Type) := Option Char → List Char → Option (α × Nat)

/-- the occurrences in a text of which the first `skip` characters are taken already -/
def occurrencesFrom {α : Type} (m : Pattern α) : Nat → Option Char → List Char → List α
  | _, _, [] => []
  | skip + 1, _, c :: cs => occurrencesFrom m skip (some c) cs
  | 0, before, c :: cs =>
    match m before (c :: cs) with
    | some (a, length) => a :: occurrencesFrom m (length - 1) (some c) cs
    | none => occurrencesFrom m 0 (some c) cs

def occurrences {α : Type} (m : Pattern α) (cs : List Char) : List α := occurrencesFrom m 0 none cs

theorem occurrencesFrom_nil {α : Type} (m : Pattern α) (skip : Nat) (before : Option Char) :
    occurrencesFrom m skip before [] = [] := by cases skip <;> rfl

theorem occurrencesFrom_none {α : Type} (m : Pattern α) (before : Option Char) (c : Char)
    (cs : List Char)
    (h : m before (c :: cs) = none) :
    occurrencesFrom m 0 before (c :: cs) = occurrencesFrom m 0 (some c) cs := by
  simp [occurrencesFrom, h]

theorem occurrencesFrom_some {α : Type} (m : Pattern α) (before : Option Char) (c : Char)
    (cs : List Char)
    (a : α) (length : Nat) (h : m before (c :: cs) = some (a, length)) :
    occurrencesFrom m 0 before (c :: cs) =
      a :: occurrencesFrom m (length - 1) (some c) cs := by
  simp [occurrencesFrom, h]

theorem occurrencesFrom_skip {α : Type} (m : Pattern α) (before : Option Char)
    (gone cs : List Char) :
    occurrencesFrom m gone.length before (gone ++ cs) =
      occurrencesFrom m 0 (gone.getLast?.or before) cs := by
  induction gone generalizing before with
  | nil => rfl
  | cons c gone ih =>
    rw [List.length_cons, List.cons_append, occurrencesFrom, ih]
    cases gone with
    | nil => rfl
    | cons d gone => simp [List.getLast?_cons]

def literal : List Char → List Char → Option (List Char)
  | [], cs => some cs
  | _ :: _, [] => none
  | w :: ws, c :: cs => if w = c then literal ws cs else none

theorem literal_eq_some {w cs rest : List Char} (h : literal w cs = some rest) :
    cs = w ++ rest := by
  induction w generalizing cs with
  | nil => simp [literal] at h; simp [h]
  | cons x w ih =>
    cases cs with
    | nil => simp [literal] at h
    | cons c cs =>
      by_cases hx : x = c
      · simp only [literal, hx, if_true] at h
        rw [ih h, hx]
        rfl
      · simp [literal, hx] at h

theorem literal_append (w rest : List Char) : literal w (w ++ rest) = some rest := by
  induction w with
  | nil => rfl
  | cons x w ih => simp [literal, ih]

end CssOptimizer.Text
