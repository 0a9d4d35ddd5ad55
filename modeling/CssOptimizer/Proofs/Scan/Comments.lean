import CssOptimizer.Proofs.Scan.Plain
import CssOptimizer.Sheet.Comment

/-!
# Texts that open comments

* `Scan.opensComment`    a slash and a star stand next to each other outside strings;
* `Scan.endsInComment`   the last comment is left open.

A text that opens no comment has none to drop (`strip_of_not_opensComment`).  One that does loses
a star when its comments are dropped (`count_strip_lt`).  What follows a text and opens no comment
stays as it is unless the text ends in a comment (`strip_append_of_no_slash`).
-/

namespace CssOptimizer.Scan
open Text

def isOutside : Scan → Bool
  | outside _ => true
  | inside _ _ _ => false

def opensComment : Scan → List Char → Bool
  | _, [] => false
  | s, c :: cs => (s.isOutside && c == '/' && cs.head? == some '*') || opensComment (s.step c) cs

/-- a slash at the end of one text and a star at the start of the next stand side by side -/
theorem opensComment_append (s : Scan) (a : List Char) {b : List Char}
    (hb : b.head? ≠ some '*') :
    opensComment s (a ++ b) = (opensComment s a || opensComment (s.run a) b) := by
  induction a generalizing s with
  | nil => rfl
  | cons c a ih =>
    have hhead : ((a ++ b).head? == some '*') = (a.head? == some '*') := by
      cases a with
      | nil =>
        rw [List.nil_append, List.head?_nil, beq_eq_false_iff_ne.mpr hb]
        rfl
      | cons d a => rfl
    rw [List.cons_append, opensComment, opensComment, hhead, ih, run_cons, Bool.or_assoc]

theorem opensComment_cons_of_ne (s : Scan) {c : Char} (hc : c ≠ '/') (cs : List Char) :
    opensComment s (c :: cs) = opensComment (s.step c) cs := by
  rw [opensComment, beq_eq_false_iff_ne.mpr hc, Bool.and_false, Bool.false_and, Bool.false_or]

/-- a character that is no part of a comment mark keeps two texts apart -/
theorem opensComment_append_cons (s : Scan) (a b : List Char) {c : Char} (h₁ : c ≠ '*')
    (h₂ : c ≠ '/') :
    opensComment s (a ++ c :: b) =
      (opensComment s a || opensComment ((s.run a).step c) b) := by
  rw [opensComment_append s a (by simpa using h₁), opensComment_cons_of_ne _ h₂]

theorem opensComment_blanks (s : Scan) {ws : List Char} (h : Blank ws) (b : List Char) :
    opensComment s (ws ++ b) = opensComment (s.run ws) b := by
  induction ws generalizing s with
  | nil => rfl
  | cons c ws ih =>
    obtain ⟨hc, hws⟩ := blank_cons.mp h
    rw [List.cons_append, opensComment_cons_of_ne s (ne_of_isBlank hc rfl), ih _ hws, run_cons]

theorem opensComment_of_not_mem {cs : List Char} (h : '/' ∉ cs) (s : Scan) :
    opensComment s cs = false := by
  induction cs generalizing s with
  | nil => rfl
  | cons c cs ih =>
    rw [List.mem_cons, not_or] at h
    rw [opensComment_cons_of_ne s (Ne.symm h.1), ih h.2]

/-! ## dropping comments -/

/-- a scan and a reader of comments that have read the same text -/
def Together : Scan → Comment.Mode → Prop
  | outside _, .code => True
  | outside _, .slash => True
  | inside q false _, .quoted r => q = r
  | inside q true _, .escaped r => q = r
  | _, _ => False

/-- whether the next characters open a comment, for a reader that may stand behind a slash -/
def opensNext (s : Scan) (m : Comment.Mode) (cs : List Char) : Bool :=
  opensComment s cs || (m == .slash && cs.head? == some '*')

theorem together_fromCode (s : Scan) (hs : s.isOutside = true) (c : Char) :
    Together (s.step c) (Comment.fromCode c) := by
  cases s with
  | inside q e p => cases hs
  | outside p =>
    unfold Comment.fromCode
    split
    · rename_i hc
      subst hc
      trivial
    · rw [Scan.step]
      split
      · rfl
      · split
        · trivial
        · split <;> trivial

/-- a step that opens no comment keeps both together -/
theorem Together.step {s : Scan} {m : Comment.Mode} (h : Together s m) {c : Char}
    (hc : m = .slash → c ≠ '*') : Together (s.step c) (Comment.step m c) := by
  cases s with
  | outside p =>
    cases m with
    | code => exact together_fromCode _ rfl c
    | slash =>
      rw [Comment.step, if_neg (hc rfl)]
      exact together_fromCode _ rfl c
    | _ => exact absurd h id
  | inside q e p =>
    cases e with
    | true =>
      cases m with
      | escaped r => exact h
      | _ => exact absurd h id
    | false =>
      cases m with
      | quoted r =>
        have hr : q = r := h
        subst hr
        rw [Scan.step, Comment.step]
        split
        · rfl
        · split
          · trivial
          · rfl
      | _ => exact absurd h id

/-- behind a step the next comment is the one that was next before -/
theorem Together.opensNext_step {s : Scan} {m : Comment.Mode} (h : Together s m) (c : Char)
    (cs : List Char) (hc : m = .slash → c ≠ '*') :
    opensNext s m (c :: cs) = opensNext (s.step c) (Comment.step m c) cs := by
  have hm : (Comment.step m c == .slash) = (s.isOutside && c == '/') := by
    cases s with
    | outside p =>
      cases m with
      | code =>
        rw [Comment.step, Comment.fromCode]
        by_cases hs : c = '/'
        · subst hs
          rfl
        · rw [if_neg hs, beq_eq_false_iff_ne.mpr hs, Bool.and_false]
          split <;> rfl
      | slash =>
        rw [Comment.step, if_neg (hc rfl), Comment.fromCode]
        by_cases hs : c = '/'
        · subst hs
          rfl
        · rw [if_neg hs, beq_eq_false_iff_ne.mpr hs, Bool.and_false]
          split <;> rfl
      | _ => exact absurd h id
    | inside q e p =>
      cases m with
      | quoted r =>
        rw [Comment.step]
        split
        · rfl
        · split <;> rfl
      | escaped r => rfl
      | _ => cases e <;> exact absurd h id
  have hs : (m == .slash && (c :: cs).head? == some '*') = false := by
    cases hm : m == Comment.Mode.slash with
    | false => rfl
    | true => simpa using hc (by simpa using hm)
  rw [opensNext, hs, Bool.or_false, opensComment, opensNext, hm, Bool.or_comm]

/-- what waits behind a mode and what a step lets through is what waited before, and the
character -/
theorem Together.output {s : Scan} {m : Comment.Mode} (h : Together s m) {c : Char}
    (hc : m = .slash → c ≠ '*') :
    Comment.output m c ++ Comment.final (Comment.step m c) = Comment.final m ++ [c] := by
  cases m with
  | code =>
    rw [Comment.output, Comment.step, Comment.fromCode]
    by_cases hs : c = '/'
    · subst hs
      rfl
    · rw [if_neg hs, if_neg hs]
      split <;> rfl
  | slash =>
    rw [Comment.output, Comment.step, if_neg (hc rfl), if_neg (hc rfl), Comment.fromCode]
    by_cases hs : c = '/'
    · subst hs
      rfl
    · rw [if_neg hs, if_neg hs]
      split <;> rfl
  | quoted r =>
    rw [Comment.output, Comment.step]
    split
    · rfl
    · split <;> rfl
  | escaped r => rfl
  | comment => cases s with
    | outside p => exact absurd h id
    | inside q e p => cases e <;> exact absurd h id
  | star => cases s with
    | outside p => exact absurd h id
    | inside q e p => cases e <;> exact absurd h id

theorem stripFrom_cons (m : Comment.Mode) (c : Char) (cs : List Char) :
    Comment.stripFrom m (c :: cs) =
      Comment.output m c ++ Comment.stripFrom (Comment.step m c) cs := by
  rw [Comment.stripFrom, Comment.passed, Comment.run_cons, Comment.stripFrom, List.append_assoc]

theorem ne_star_of_opensNext {s : Scan} {m : Comment.Mode} {c : Char} {cs : List Char}
    (h : opensNext s m (c :: cs) = false) (hm : m = .slash) : c ≠ '*' := by
  intro hc
  rw [opensNext, hm, hc] at h
  simp at h

theorem stripFrom_of_not_opensNext {s : Scan} {m : Comment.Mode} (h : Together s m)
    {cs : List Char} (hn : opensNext s m cs = false) :
    Comment.stripFrom m cs = Comment.final m ++ cs := by
  induction cs generalizing s m with
  | nil =>
    rw [List.append_nil]
    rfl
  | cons c cs ih =>
    have hc := ne_star_of_opensNext hn
    have hn' := hn
    rw [h.opensNext_step c cs hc] at hn'
    calc Comment.stripFrom m (c :: cs)
        = Comment.output m c ++ (Comment.final (Comment.step m c) ++ cs) := by
          rw [stripFrom_cons, ih (h.step hc) hn']
      _ = Comment.final m ++ c :: cs := by
          rw [← List.append_assoc, h.output hc, List.append_assoc]
          rfl

theorem strip_of_not_opensComment {cs : List Char} (h : opensComment start cs = false) :
    Comment.strip cs = cs :=
  stripFrom_of_not_opensNext (s := start) (m := .code) trivial (by rw [opensNext, h]; rfl)

/-! ## what follows a text -/

def inComment : Comment.Mode → Bool
  | .comment => true
  | .star => true
  | _ => false

def endsInComment (cs : List Char) : Bool := inComment (Comment.run .code cs)

theorem Together.run {s : Scan} {m : Comment.Mode} (h : Together s m) {cs : List Char}
    (hn : opensNext s m cs = false) : Together (s.run cs) (Comment.run m cs) := by
  induction cs generalizing s m with
  | nil => exact h
  | cons c cs ih =>
    have hc := ne_star_of_opensNext hn
    rw [h.opensNext_step c cs hc] at hn
    exact ih (h.step hc) hn

theorem Together.not_inComment {s : Scan} {m : Comment.Mode} (h : Together s m) :
    inComment m = false := by
  cases m with
  | comment => cases s with
    | outside p => exact absurd h id
    | inside q e p => cases e <;> exact absurd h id
  | star => cases s with
    | outside p => exact absurd h id
    | inside q e p => cases e <;> exact absurd h id
  | _ => rfl

theorem not_endsInComment {cs : List Char} (h : opensComment start cs = false) :
    endsInComment cs = false := by
  have hstart : Together start .code := trivial
  exact (hstart.run (by rw [opensNext, h]; rfl)).not_inComment

theorem exists_together {m : Comment.Mode} (h : inComment m = false) : ∃ s, Together s m := by
  cases m with
  | code => exact ⟨start, trivial⟩
  | slash => exact ⟨start, trivial⟩
  | quoted q => exact ⟨inside q false 0, rfl⟩
  | escaped q => exact ⟨inside q true 0, rfl⟩
  | comment => exact absurd h.symm Bool.false_ne_true
  | star => exact absurd h.symm Bool.false_ne_true

theorem strip_append_of_no_slash {a b : List Char} (ha : endsInComment a = false) (hb : '/' ∉ b)
    (hstar : b.head? ≠ some '*') : Comment.strip (a ++ b) = Comment.strip a ++ b := by
  obtain ⟨s, hs⟩ := exists_together ha
  have hnone : opensNext s (Comment.run .code a) b = false := by
    rw [opensNext, opensComment_of_not_mem hb s, beq_eq_false_iff_ne.mpr hstar, Bool.and_false]
    rfl
  rw [Comment.strip, Comment.stripFrom_append, stripFrom_of_not_opensNext hs hnone,
    ← List.append_assoc]
  rfl

/-! ## the characters that are lost -/

theorem count_output_le (m : Comment.Mode) (c : Char) {x : Char} (hx : x ≠ '/') :
    (Comment.output m c).count x ≤ [c].count x := by
  have h : ('/' == x) = false := beq_eq_false_iff_ne.mpr (Ne.symm hx)
  cases m with
  | code =>
    rw [Comment.output]
    split <;> simp
  | slash =>
    rw [Comment.output]
    split
    · simp
    · split <;> simp [List.count_cons, h]
  | quoted q => exact Nat.le_refl _
  | escaped q => exact Nat.le_refl _
  | comment => exact Nat.zero_le _
  | star => exact Nat.zero_le _

theorem count_stripFrom_le (m : Comment.Mode) (cs : List Char) {x : Char} (hx : x ≠ '/') :
    (Comment.stripFrom m cs).count x ≤ cs.count x := by
  induction cs generalizing m with
  | nil =>
    have h : ('/' == x) = false := beq_eq_false_iff_ne.mpr (Ne.symm hx)
    cases m <;> simp [Comment.stripFrom, Comment.passed, Comment.final, List.count_cons, h]
  | cons c cs ih =>
    rw [stripFrom_cons, List.count_append, List.count_cons (l := cs)]
    have h₁ := count_output_le m c hx
    have h₂ := ih (Comment.step m c)
    rw [List.count_singleton] at h₁
    omega

theorem count_stripFrom_lt {s : Scan} {m : Comment.Mode} (h : Together s m) {cs : List Char}
    (ho : opensNext s m cs = true) :
    (Comment.stripFrom m cs).count '*' < cs.count '*' := by
  induction cs generalizing s m with
  | nil =>
    rw [opensNext, opensComment, List.head?_nil] at ho
    simp at ho
  | cons c cs ih =>
    have hle := count_output_le m c (x := '*') (by decide)
    rw [List.count_singleton] at hle
    rw [stripFrom_cons, List.count_append, List.count_cons (l := cs)]
    by_cases hc : m = .slash ∧ c = '*'
    · obtain ⟨rfl, rfl⟩ := hc
      have h₁ := count_stripFrom_le .comment cs (x := '*') (by decide)
      have h₂ : Comment.output .slash '*' = [] := rfl
      have h₃ : Comment.step .slash '*' = .comment := rfl
      rw [h₂, h₃]
      simp only [List.count_nil, beq_self_eq_true, if_true]
      omega
    · have hc' : m = .slash → c ≠ '*' := fun hm he => hc ⟨hm, he⟩
      rw [h.opensNext_step c cs hc'] at ho
      have h₂ := ih (h.step hc') ho
      omega

theorem count_strip_lt {cs : List Char} (h : opensComment start cs = true) :
    (Comment.strip cs).count '*' < cs.count '*' :=
  count_stripFrom_lt (s := start) (m := .code) trivial (by rw [opensNext, h]; rfl)

end CssOptimizer.Scan
