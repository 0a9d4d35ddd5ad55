import CssOptimizer.Proofs.Sheet.Behind

/-!
# Comments between two texts

* `Comment.EndsInCode cs`     reading `cs` ends outside strings and comments;
* `Comment.MarksApart a b`    no slash and star meet where `a` ends and `b` starts;
* `Comment.Follows`           a scan of what is let through stands where the reader stands.

Where both hold the comments of `a` and of `b` are dropped one after the other (`strip_join`), and
a comment between the two texts makes no difference: it ends at its first closing mark, whatever
else it holds (`stripFrom_closeMark`), so the stylesheet is read as if it were not there
(`parse_comment_between`).  A text whose comments are closed ends outside strings if it does so
without its comments (`endsInCode_of_closed`).
-/

namespace CssOptimizer
open Scan Text

namespace Comment

/-- outside strings and comments; a slash may have been read -/
def Mode.inCode : Mode → Bool
  | .code => true
  | .slash => true
  | _ => false

def EndsInCode (cs : List Char) : Prop := (run .code cs).inCode = true

instance (cs : List Char) : Decidable (EndsInCode cs) := inferInstanceAs (Decidable (_ = _))

/-- a text that ends with a slash does not stand in front of one that starts with a star -/
def MarksApart (a b : List Char) : Prop := a.getLast? = some '/' → b.head? ≠ some '*'

instance (a b : List Char) : Decidable (MarksApart a b) := inferInstanceAs (Decidable (_ → _))

theorem marksApart_of_ne {b : List Char} (h : b.head? ≠ some '*') (a : List Char) :
    MarksApart a b := fun _ => h

/-! ## joined texts -/

/-- a slash that opens no comment is let through -/
theorem stripFrom_slash {b : List Char} (h : b.head? ≠ some '*') :
    stripFrom .slash b = '/' :: strip b := by
  cases b with
  | nil => rfl
  | cons c b =>
    have hc : c ≠ '*' := fun he => h (congrArg some he)
    rw [stripFrom_cons, strip, stripFrom_cons, output, output, step, step, if_neg hc,
      if_neg hc]
    split <;> rfl

theorem strip_join {a b : List Char} (ha : EndsInCode a) (h : MarksApart a b) :
    strip (a ++ b) = strip a ++ strip b := by
  have hjoin : strip (a ++ b) = passed .code a ++ stripFrom (run .code a) b :=
    stripFrom_append .code a b
  have hone : strip a = passed .code a ++ final (run .code a) := rfl
  rw [hjoin, hone, List.append_assoc]
  cases hm : run .code a with
  | code => rfl
  | slash =>
    rw [stripFrom_slash (h (getLast?_of_run_slash hm))]
    rfl
  | _ =>
    rw [EndsInCode, hm] at ha
    exact absurd ha Bool.false_ne_true

/-! ## a comment -/

def closeMark : List Char := ['*', '/']

theorem stripFrom_closeMark {c : List Char} (hc : ¬ closeMark <:+: c) {m : Mode}
    (hm : m = .comment ∨ m = .star ∧ c.head? ≠ some '/') (b : List Char) :
    stripFrom m (c ++ (closeMark ++ b)) = strip b := by
  induction c generalizing m with
  | nil =>
    rcases hm with rfl | ⟨rfl, -⟩
    · rfl
    · rfl
  | cons d c ih =>
    have hinner : ¬ closeMark <:+: c := fun h => hc (h.trans (List.suffix_cons d c).isInfix)
    have hstar : d = '*' → c.head? ≠ some '/' := by
      rintro rfl hslash
      obtain ⟨rest, rfl⟩ := List.head?_eq_some_iff.mp hslash
      exact hc ⟨[], rest, rfl⟩
    have hout : output m d = [] := by
      rcases hm with rfl | ⟨rfl, -⟩
      · rfl
      · rfl
    have hstep : step m d = .comment ∨ step m d = .star ∧ c.head? ≠ some '/' := by
      by_cases hd : d = '*'
      · refine Or.inr ⟨?_, hstar hd⟩
        rcases hm with rfl | ⟨rfl, -⟩
        · rw [step, if_pos hd]
        · rw [step, if_neg (by rw [hd]; decide), if_pos hd]
      · refine Or.inl ?_
        rcases hm with rfl | ⟨rfl, hslash⟩
        · rw [step, if_neg hd]
        · have hne : d ≠ '/' := fun he => hslash (congrArg some he)
          rw [step, if_neg hne, if_neg hd]
    rw [List.cons_append, stripFrom_cons, hout, List.nil_append]
    exact ih hinner hstep

/-- a text with a comment in front of it -/
theorem strip_comment {c : List Char} (hc : ¬ closeMark <:+: c) (b : List Char) :
    strip ('/' :: '*' :: (c ++ (closeMark ++ b))) = strip b :=
  stripFrom_closeMark hc (Or.inl rfl) b

/-! ## texts without their comments -/

def Follows (s : Scan) : Mode → Prop
  | .quoted q => ∃ p, s = .inside q false p
  | .escaped q => ∃ p, s = .inside q true p
  | _ => s.isOutside = true

theorem follows_of_together {s : Scan} {m : Mode} (h : Together s m) : Follows s m := by
  cases s with
  | outside p =>
    cases m with
    | code => rfl
    | slash => rfl
    | _ => exact absurd h id
  | inside q e p =>
    cases e with
    | false =>
      cases m with
      | quoted r => exact ⟨p, congrArg (Scan.inside · false p) h⟩
      | _ => exact absurd h id
    | true =>
      cases m with
      | escaped r => exact ⟨p, congrArg (Scan.inside · true p) h⟩
      | _ => exact absurd h id

theorem follows_step {s : Scan} {m : Mode} (h : Follows s m) (c : Char) :
    Follows (s.run (output m c)) (step m c) := by
  cases m with
  | quoted q =>
    obtain ⟨p, rfl⟩ := h
    have htogether : Together (.inside q false p) (.quoted q) := rfl
    exact follows_of_together (htogether.step fun hm => absurd hm Mode.noConfusion)
  | escaped q =>
    obtain ⟨p, rfl⟩ := h
    have htogether : Together (.inside q true p) (.escaped q) := rfl
    exact follows_of_together (htogether.step fun hm => absurd hm Mode.noConfusion)
  | code =>
    rw [output, Comment.step]
    split
    · rename_i hc
      rw [hc]
      exact h
    · exact follows_of_together (together_fromCode s h c)
  | slash =>
    rw [output, Comment.step]
    split
    · exact h
    · have hslash : s.step '/' = s := by
        cases s with
        | outside p => rfl
        | inside q e p => exact absurd h Bool.false_ne_true
      split
      · rename_i hc
        rw [hc]
        show Follows (s.step '/') .slash
        rw [hslash]
        exact h
      · show Follows ((s.step '/').step c) (fromCode c)
        rw [hslash]
        exact follows_of_together (together_fromCode s h c)
  | comment =>
    rw [output, Comment.step]
    split <;> exact h
  | star =>
    rw [output, Comment.step]
    split
    · exact h
    · split <;> exact h

theorem follows_passed {s : Scan} {m : Mode} (h : Follows s m) (cs : List Char) :
    Follows (s.run (passed m cs)) (Comment.run m cs) := by
  induction cs generalizing s m with
  | nil => exact h
  | cons c cs ih =>
    rw [passed, Scan.run_append, Comment.run_cons]
    exact ih (follows_step h c)

theorem endsInCode_of_closed {cs : List Char} (hcomment : endsInComment cs = false)
    (hclosed : Closed (strip cs)) : EndsInCode cs := by
  have hfollows : Follows (start.run (passed .code cs)) (Comment.run .code cs) :=
    follows_passed (s := start) (m := .code) rfl cs
  have hstrip : start.run (passed .code cs ++ final (Comment.run .code cs)) = start := hclosed
  rw [EndsInCode]
  cases hm : Comment.run .code cs with
  | code => rfl
  | slash => rfl
  | quoted q =>
    rw [hm] at hfollows hstrip
    obtain ⟨p, hp⟩ := hfollows
    rw [show final _ = [] from rfl, List.append_nil, hp] at hstrip
    exact absurd hstrip Scan.noConfusion
  | escaped q =>
    rw [hm] at hfollows hstrip
    obtain ⟨p, hp⟩ := hfollows
    rw [show final _ = [] from rfl, List.append_nil, hp] at hstrip
    exact absurd hstrip Scan.noConfusion
  | comment => exact absurd (hcomment.symm.trans (congrArg inComment hm)) Bool.false_ne_true
  | star => exact absurd (hcomment.symm.trans (congrArg inComment hm)) Bool.false_ne_true

end Comment

open Comment

/-- a comment outside strings and comments makes no difference, whatever it holds -/
theorem parse_comment_between (a b c : String) (hc : ¬ closeMark <:+: c.toList)
    (ha : EndsInCode a.toList) (h : MarksApart a.toList b.toList) :
    parse (a ++ "/*" ++ c ++ "*/" ++ b) = parse (a ++ b) := by
  have htext : (a ++ "/*" ++ c ++ "*/" ++ b).toList =
      a.toList ++ ('/' :: '*' :: (c.toList ++ (closeMark ++ b.toList))) := by
    simp [String.toList_append, closeMark]
  have hopen : MarksApart a.toList ('/' :: '*' :: (c.toList ++ (closeMark ++ b.toList))) :=
    marksApart_of_ne (by simp) _
  have hstrip : strip (a ++ "/*" ++ c ++ "*/" ++ b).toList = strip (a ++ b).toList := by
    rw [htext, strip_join ha hopen, strip_comment hc, ← strip_join ha h, String.toList_append]
  rw [parse, parseChars, hstrip]
  rfl

/-- a comment mark and an escaped quote in a string, and a slash at the end -/
def beforeComment : String := ".a\x7bp:\x22/*\\\x22\x22;q:1/"

/-- a slash, a quote and an open block in front of a star -/
def commentText : String := "/ \x22\x7b*"

theorem parse_comment_between_slash :
    ¬ closeMark <:+: commentText.toList ∧ EndsInCode beforeComment.toList ∧
      MarksApart beforeComment.toList "2\x7d".toList ∧
      parse (beforeComment ++ "/*" ++ commentText ++ "*/" ++ "2\x7d") =
        [.rule ".a" [⟨"p", "\x22/*\\\x22\x22"⟩, ⟨"q", "1/2"⟩]] := by
  have hc : ¬ closeMark <:+: commentText.toList := by decide
  have ha : EndsInCode beforeComment.toList := by decide
  have h : MarksApart beforeComment.toList "2\x7d".toList := by decide
  refine ⟨hc, ha, h, ?_⟩
  rw [parse_comment_between beforeComment "2\x7d" commentText hc ha h]
  decide +kernel

end CssOptimizer
