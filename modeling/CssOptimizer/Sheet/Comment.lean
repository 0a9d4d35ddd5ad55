import CssOptimizer.Sheet.Scan

/-!
# Comments

Comments run from `/*` to the next `*/`, or to the end of the text, and stand outside strings.

* `Comment.Mode`     where the reader of comments stands;
* `Comment.step`     one character further; `Comment.output` what it lets through;
* `Comment.strip`    a text without its comments.

Main statement: reading two texts one after the other is reading their concatenation
(`stripFrom_append`).
-/

namespace CssOptimizer.Comment

/-- where the reader stands: in code, behind a slash that may open a comment, in a string, behind
a backslash in a string, in a comment, behind a star that may close it -/
inductive Mode where
  | code
  | slash
  | quoted (quote : Char)
  | escaped (quote : Char)
  | comment
  | star
  deriving DecidableEq, Repr

/-- the mode behind a character read in code -/
def fromCode (c : Char) : Mode :=
  if c = '/' then .slash else if Scan.isQuote c then .quoted c else .code

def step : Mode → Char → Mode
  | .code, c => fromCode c
  | .slash, c => if c = '*' then .comment else fromCode c
  | .quoted quote, c =>
    if c = '\\' then .escaped quote else if c = quote then .code else .quoted quote
  | .escaped quote, _ => .quoted quote
  | .comment, c => if c = '*' then .star else .comment
  | .star, c => if c = '/' then .code else if c = '*' then .star else .comment

/-- the characters let through when a character is read: a slash waits for the next one -/
def output : Mode → Char → List Char
  | .code, c => if c = '/' then [] else [c]
  | .slash, c => if c = '*' then [] else if c = '/' then ['/'] else ['/', c]
  | .quoted _, c => [c]
  | .escaped _, c => [c]
  | .comment, _ => []
  | .star, _ => []

/-- what is let through at the end of the text -/
def final : Mode → List Char
  | .slash => ['/']
  | _ => []

/-- the mode behind a text -/
def run (m : Mode) (cs : List Char) : Mode := cs.foldl step m

/-- what is let through of a text, its end not counted -/
def passed : Mode → List Char → List Char
  | _, [] => []
  | m, c :: cs => output m c ++ passed (step m c) cs

/-- a text without its comments, read from a given mode on -/
def stripFrom (m : Mode) (cs : List Char) : List Char := passed m cs ++ final (run m cs)

def strip (cs : List Char) : List Char := stripFrom .code cs

@[simp] theorem run_nil (m : Mode) : run m [] = m := rfl
@[simp] theorem run_cons (m : Mode) (c : Char) (cs : List Char) :
    run m (c :: cs) = run (step m c) cs := rfl
theorem run_append (m : Mode) (a b : List Char) : run m (a ++ b) = run (run m a) b :=
  List.foldl_append

theorem passed_append (m : Mode) (a b : List Char) :
    passed m (a ++ b) = passed m a ++ passed (run m a) b := by
  induction a generalizing m with
  | nil => rfl
  | cons c a ih => simp [passed, ih]

theorem stripFrom_append (m : Mode) (a b : List Char) :
    stripFrom m (a ++ b) = passed m a ++ stripFrom (run m a) b := by
  rw [stripFrom, passed_append, run_append, stripFrom, List.append_assoc]

/-- the modes that a text without a slash can reach from code -/
def isPlain : Mode → Bool
  | .code | .quoted _ | .escaped _ => true
  | _ => false

end CssOptimizer.Comment
