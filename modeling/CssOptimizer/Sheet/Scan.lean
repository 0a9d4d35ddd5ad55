/-!
# Scanning outside strings and parentheses

A stylesheet is cut at delimiters that stand outside quoted strings and outside parentheses.  A
scan reads a text character by character and remembers where it stands.

* `Scan`            a state: outside strings, or inside one; both with the open parentheses;
* `Scan.step`       one character further;
* `Scan.isBare`     whether the next character counts as structure;
* `Scan.cut`        the text before the first bare character of a kind, and the text behind it;
* `Scan.split`      the texts between the bare occurrences of a character;
* `Scan.close`      the body of a block whose opening brace was just read.

Main statements: scanning two texts one after the other is scanning their concatenation
(`run_append`), a text that closes its strings and parentheses leaves the scan as it was before
(`run_closed`), and no cut loses a character (`cut_eq_some`, `close_eq_some`).
-/

namespace CssOptimizer

/-- where a scan stands: outside strings or inside one, with the number of open parentheses -/
inductive Scan where
  | outside (parens : Nat)
  | inside (quote : Char) (escaped : Bool) (parens : Nat)
  deriving DecidableEq, Repr

namespace Scan

/-- the two characters that open and close strings -/
def isQuote (c : Char) : Bool := c == '\x22' || c == '\x27'

/-- the state at the start of a text -/
def start : Scan := outside 0

/-- one character further: quotes open a string, which ends at the same quote unless a backslash
stands before it; a closing parenthesis too many is passed over -/
def step : Scan → Char → Scan
  | outside parens, c =>
    if isQuote c then inside c false parens
    else if c = '(' then outside (parens + 1)
    else if c = ')' then outside (parens - 1)
    else outside parens
  | inside quote true parens, _ => inside quote false parens
  | inside quote false parens, c =>
    if c = '\\' then inside quote true parens
    else if c = quote then outside parens
    else inside quote false parens

/-- whether a character counts as structure: it stands outside strings and parentheses and is
neither a quote nor a parenthesis -/
def isBare : Scan → Char → Bool
  | outside 0, c => !(isQuote c || c == '(' || c == ')')
  | _, _ => false

/-- the state behind a text -/
def run (s : Scan) (cs : List Char) : Scan := cs.foldl step s

@[simp] theorem run_nil (s : Scan) : s.run [] = s := rfl
@[simp] theorem run_cons (s : Scan) (c : Char) (cs : List Char) :
    s.run (c :: cs) = (s.step c).run cs := rfl
theorem run_append (s : Scan) (a b : List Char) : s.run (a ++ b) = (s.run a).run b :=
  List.foldl_append

/-- a bare character leaves the scan where it is -/
theorem step_of_isBare {s : Scan} {c : Char} (h : s.isBare c = true) :
    s = start ∧ s.step c = s := by
  unfold isBare at h
  split at h
  · simp only [Bool.not_eq_true', Bool.or_eq_false_iff, beq_eq_false_iff_ne, ne_eq] at h
    simp [start, step, h.1.1, h.1.2, h.2]
  · simp at h

/-- a text closes its strings and parentheses if a scan that starts outside ends outside -/
def Closed (cs : List Char) : Prop := start.run cs = start

instance (cs : List Char) : Decidable (Closed cs) := inferInstanceAs (Decidable (_ = _))

theorem closed_nil : Closed [] := rfl

theorem Closed.append {a b : List Char} (ha : Closed a) (hb : Closed b) : Closed (a ++ b) := by
  rw [Closed, run_append, ha, hb]

theorem run_closed {a : List Char} (h : Closed a) (b : List Char) :
    start.run (a ++ b) = start.run b := by rw [run_append, h]

/-! ## cutting at delimiters -/

/-- the text before the first bare character in `stop`, this character, and the rest -/
def cut (stop : Char → Bool) : Scan → List Char → Option (List Char × Char × List Char)
  | _, [] => none
  | s, c :: cs =>
    if s.isBare c && stop c then some ([], c, cs)
    else (cut stop (s.step c) cs).map fun (before, d, rest) => (c :: before, d, rest)

/-- whether a text has a bare character in `stop` -/
def hasBare (stop : Char → Bool) : Scan → List Char → Bool
  | _, [] => false
  | s, c :: cs => (s.isBare c && stop c) || hasBare stop (s.step c) cs

def split (d : Char) : Scan → List Char → List (List Char)
  | _, [] => [[]]
  | s, c :: cs =>
    if s.isBare c && c == d then [] :: split d (s.step c) cs
    else (split d (s.step c) cs).modifyHead (c :: ·)

/-- the number of open inner blocks behind one more character -/
def innerBlocks (inner : Nat) (s : Scan) (c : Char) : Nat :=
  if !s.isBare c then inner
  else if c = '{' then inner + 1
  else if c = '}' then inner - 1
  else inner

/-- the body of a block whose opening brace was just read, and the text behind its closing brace;
`inner` counts the blocks inside it that are still open -/
def close : Nat → Scan → List Char → Option (List Char × List Char)
  | _, _, [] => none
  | inner, s, c :: cs =>
    if s.isBare c && c == '}' && inner == 0 then some ([], cs)
    else
      (close (innerBlocks inner s c) (s.step c) cs).map fun (body, rest) => (c :: body, rest)

theorem cut_eq_some {stop : Char → Bool} {s : Scan} {cs before rest : List Char} {d : Char}
    (h : cut stop s cs = some (before, d, rest)) :
    cs = before ++ d :: rest ∧ stop d = true := by
  induction cs generalizing s before with
  | nil => simp [cut] at h
  | cons c cs ih =>
    rw [cut] at h
    split at h
    · rename_i hc
      simp only [Option.some.injEq, Prod.mk.injEq] at h
      obtain ⟨rfl, rfl, rfl⟩ := h
      simp only [Bool.and_eq_true] at hc
      exact ⟨rfl, hc.2⟩
    · obtain ⟨⟨b, e, r⟩, hr, hm⟩ := Option.map_eq_some_iff.mp h
      simp only [Prod.mk.injEq] at hm
      obtain ⟨rfl, rfl, rfl⟩ := hm
      obtain ⟨h₁, h₂⟩ := ih hr
      exact ⟨by rw [h₁]; rfl, h₂⟩

theorem close_eq_some {inner : Nat} {s : Scan} {cs body rest : List Char}
    (h : close inner s cs = some (body, rest)) : cs = body ++ '}' :: rest := by
  induction cs generalizing inner s body with
  | nil => simp [close] at h
  | cons c cs ih =>
    rw [close] at h
    split at h
    · rename_i hc
      simp only [Bool.and_eq_true, beq_iff_eq] at hc
      simp only [Option.some.injEq, Prod.mk.injEq] at h
      obtain ⟨rfl, rfl⟩ := h
      rw [hc.1.2]
      rfl
    · obtain ⟨⟨b, r⟩, hr, hm⟩ := Option.map_eq_some_iff.mp h
      simp only [Prod.mk.injEq] at hm
      obtain ⟨rfl, rfl⟩ := hm
      rw [ih hr]
      rfl

end Scan
end CssOptimizer
