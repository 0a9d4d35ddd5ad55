/-!
# Blank characters

Texts are scanned as lists of characters.  This file says which characters are blank and
cuts texts along them.

* `isBlank`              the characters with the property White_Space;
* `dropEndWhile p`       a text without its longest end of characters in `p`;
* `trimStart`, `trimEnd`, `trim`   a text without the blanks at its start, its end, both ends;
* `pieces p`             the texts between the characters in `p`, empty ones included;
* `words`                the longest runs without a blank.

Main statements: a trimmed text stays as it is when trimmed again (`trim_trim`), and the pieces
of a text are at least one (`pieces_ne_nil`).
-/

namespace CssOptimizer.Text

def isBlank (c : Char) : Bool :=
  c == ' ' || (0x9 ≤ c.val && c.val ≤ 0xD) || c.val == 0x85 || c.val == 0xA0 ||
  c.val == 0x1680 || (0x2000 ≤ c.val && c.val ≤ 0x200A) || c.val == 0x2028 || c.val == 0x2029 ||
  c.val == 0x202F || c.val == 0x205F || c.val == 0x3000

/-- apply an operation on characters to a string -/
def onString (f : List Char → List Char) (s : String) : String := String.ofList (f s.toList)

@[simp] theorem toList_onString (f : List Char → List Char) (s : String) :
    (onString f s).toList = f s.toList := by simp [onString]

/-! ## the ends of a text -/

def dropEndWhile (p : Char → Bool) (cs : List Char) : List Char :=
  (cs.reverse.dropWhile p).reverse

def trimStart (cs : List Char) : List Char := cs.dropWhile isBlank
def trimEnd (cs : List Char) : List Char := dropEndWhile isBlank cs

def trim (cs : List Char) : List Char := trimEnd (trimStart cs)

theorem dropWhile_idem (p : Char → Bool) (cs : List Char) :
    (cs.dropWhile p).dropWhile p = cs.dropWhile p := by
  induction cs with
  | nil => rfl
  | cons c cs ih => by_cases h : p c <;> simp [h, ih]

theorem dropEndWhile_idem (p : Char → Bool) (cs : List Char) :
    dropEndWhile p (dropEndWhile p cs) = dropEndWhile p cs := by
  simp [dropEndWhile, dropWhile_idem]

/-- the end that is dropped holds characters in `p` only -/
theorem exists_dropEndWhile_append (p : Char → Bool) (cs : List Char) :
    ∃ gone, (∀ c ∈ gone, p c = true) ∧ dropEndWhile p cs ++ gone = cs := by
  refine ⟨(cs.reverse.takeWhile p).reverse, ?_, ?_⟩
  · intro c hc
    have := List.all_takeWhile (p := p) (l := cs.reverse)
    simp only [List.all_eq_true] at this
    exact this c (by simpa using hc)
  · rw [dropEndWhile, ← List.reverse_append, List.takeWhile_append_dropWhile, List.reverse_reverse]

theorem dropEndWhile_append_singleton (p : Char → Bool) (cs : List Char) (c : Char) :
    dropEndWhile p (cs ++ [c]) = if p c then dropEndWhile p cs else cs ++ [c] := by
  by_cases h : p c <;> simp [dropEndWhile, h]

/-- a text that does not start in `p` still does not when its end is dropped -/
theorem dropWhile_dropEndWhile (p q : Char → Bool) (cs : List Char) (h : cs.dropWhile p = cs) :
    (dropEndWhile q cs).dropWhile p = dropEndWhile q cs := by
  obtain ⟨gone, _, he⟩ := exists_dropEndWhile_append q cs
  cases hd : dropEndWhile q cs with
  | nil => rfl
  | cons c r =>
    rw [hd] at he
    rw [← he] at h
    by_cases hc : p c
    · have hl : (List.dropWhile p (r ++ gone)).length ≤ (r ++ gone).length :=
        (List.dropWhile_sublist p).length_le
      rw [List.cons_append, List.dropWhile_cons, if_pos hc] at h
      rw [h, List.length_cons] at hl
      omega
    · simp [hc]

theorem trimEnd_trim (cs : List Char) : trimEnd (trim cs) = trim cs :=
  dropEndWhile_idem _ _

theorem trimStart_trim (cs : List Char) : trimStart (trim cs) = trim cs :=
  dropWhile_dropEndWhile _ _ _ (dropWhile_idem _ _)

theorem trim_trim (cs : List Char) : trim (trim cs) = trim cs := by
  rw [trim, trimStart_trim, trimEnd_trim]

/-! ## cutting a text -/

def pieces (p : Char → Bool) : List Char → List (List Char)
  | [] => [[]]
  | c :: cs => if p c then [] :: pieces p cs else (pieces p cs).modifyHead (c :: ·)

theorem pieces_nil (p : Char → Bool) : pieces p [] = [[]] := rfl

theorem pieces_ne_nil (p : Char → Bool) (cs : List Char) : pieces p cs ≠ [] := by
  induction cs with
  | nil => simp [pieces]
  | cons c cs ih =>
    rw [pieces]
    split
    · simp
    · cases h : pieces p cs with
      | nil => exact absurd h ih
      | cons x xs => simp

def words (cs : List Char) : List (List Char) := (pieces isBlank cs).filter (!·.isEmpty)

/-- cut a text at its first character in `p`: what stands before it, the character, the rest -/
def cutAt (p : Char → Bool) : List Char → Option (List Char × Char × List Char)
  | [] => none
  | c :: cs =>
    if p c then some ([], c, cs)
    else (cutAt p cs).map fun (before, d, rest) => (c :: before, d, rest)

/-- a cut loses nothing -/
theorem cutAt_eq_some {p : Char → Bool} {cs before rest : List Char} {d : Char}
    (h : cutAt p cs = some (before, d, rest)) : cs = before ++ d :: rest := by
  induction cs generalizing before with
  | nil => simp [cutAt] at h
  | cons c cs ih =>
    by_cases hc : p c
    · simp [cutAt, hc] at h
      obtain ⟨rfl, rfl, rfl⟩ := h
      rfl
    · simp only [cutAt, hc, Bool.false_eq_true, if_false, Option.map_eq_some_iff] at h
      obtain ⟨⟨b, e, r⟩, hr, hm⟩ := h
      simp only [Prod.mk.injEq] at hm
      obtain ⟨rfl, rfl, rfl⟩ := hm
      rw [ih hr]
      rfl

end CssOptimizer.Text
