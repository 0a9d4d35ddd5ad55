import CssOptimizer.Proofs.Utf8.Text
import CssOptimizer.Proofs.Scan.Plain

/-!
# Scanning bytes

* `ByteScan`          a scan that reads bytes: the open quote, a pending backslash, the parentheses;
* `ByteScan.consume`  one byte further, and whether the byte is a part of a string or parentheses;
* `bareFrom s i bs`   the bytes that are neither, each with its offset;
* `bare cs`           those of a text;
* `marks p s i cs`    the bare characters of the kind `p` in a text, with their byte offsets.

A scan of bytes stands behind the bytes of a text where a scan of characters stands behind the text
(`run_bytes`), and what it recognises among characters of one byte is what counts as structure
there (`filter_bareFrom`): the bytes of other characters are neither quotes nor parentheses nor
backslashes, and a pending backslash is forgotten at the first of them.
-/

namespace CssOptimizer.Utf8

structure ByteScan where
  quote : Option UInt8 := none
  escaped : Bool := false
  parens : Nat := 0
  deriving DecidableEq

namespace ByteScan

/-- one byte further; the answer says whether the byte is a part of a string or of parentheses, and
so no delimiter -/
def consume (s : ByteScan) (b : UInt8) : Bool × ByteScan :=
  match s.quote with
  | some q =>
    if s.escaped then (true, { s with escaped := false })
    else if b = '\\'.toUInt8 then (true, { s with escaped := true })
    else if b = q then (true, { s with quote := none })
    else (true, s)
  | none =>
    if b = '\x22'.toUInt8 ∨ b = '\x27'.toUInt8 then (true, { s with quote := some b })
    else if b = '('.toUInt8 then (true, { s with parens := s.parens + 1 })
    else if b = ')'.toUInt8 then (true, { s with parens := s.parens - 1 })
    else (s.parens != 0, s)

/-- the scan behind some bytes -/
def run (s : ByteScan) (bs : List UInt8) : ByteScan := bs.foldl (fun s b => (s.consume b).2) s

@[simp] theorem run_nil (s : ByteScan) : s.run [] = s := rfl
@[simp] theorem run_cons (s : ByteScan) (b : UInt8) (bs : List UInt8) :
    s.run (b :: bs) = (s.consume b).2.run bs := rfl
theorem run_append (s : ByteScan) (a b : List UInt8) : s.run (a ++ b) = (s.run a).run b :=
  List.foldl_append

/-- a backslash is pending only in a string -/
def Tidy (s : ByteScan) : Prop := s.escaped = true → s.quote.isSome = true

theorem tidy_fresh : Tidy {} := nofun

theorem Tidy.consume {s : ByteScan} (h : s.Tidy) (b : UInt8) : (s.consume b).2.Tidy := by
  unfold ByteScan.consume
  split
  · rename_i q hq
    split
    · exact nofun
    · rename_i he
      split
      · exact fun _ => by simp [hq]
      · split
        · exact fun hs => absurd hs he
        · exact h
  · split
    · exact fun _ => rfl
    · split
      · exact h
      · split
        · exact h
        · exact h

theorem Tidy.run {s : ByteScan} (h : s.Tidy) (bs : List UInt8) : (s.run bs).Tidy := by
  induction bs generalizing s with
  | nil => exact h
  | cons b bs ih => exact ih (h.consume b)

theorem Tidy.not_escaped {s : ByteScan} (h : s.Tidy) (hq : s.quote = none) :
    s.escaped = false := by
  cases he : s.escaped with
  | false => rfl
  | true =>
    have hsome := h he
    rw [hq] at hsome
    cases hsome

/-- a scan outside strings and parentheses is a fresh one -/
theorem Tidy.eq_fresh {s : ByteScan} (h : s.Tidy) (hq : s.quote = none) (hp : s.parens = 0) :
    s = {} := by
  have he := h.not_escaped hq
  obtain ⟨_, _, _⟩ := s
  obtain rfl : _ = none := hq
  obtain rfl : _ = 0 := hp
  obtain rfl : _ = false := he
  rfl

/-- a byte that is not consumed stands outside and leaves the scan where it is -/
theorem of_not_consumed {s : ByteScan} {b : UInt8} (h : (s.consume b).1 = false) :
    s.quote = none ∧ s.parens = 0 ∧ (s.consume b).2 = s := by
  unfold consume at h ⊢
  split
  · rename_i hq
    rw [hq] at h
    simp only at h
    split at h
    · cases h
    · split at h
      · cases h
      · split at h <;> cases h
  · rename_i hq
    rw [hq] at h
    simp only at h
    split at h
    · cases h
    · rename_i h₁
      split at h
      · cases h
      · rename_i h₂
        split at h
        · cases h
        · rename_i h₃
          rw [bne_eq_false_iff_eq] at h
          rw [if_neg h₁, if_neg h₂, if_neg h₃]
          exact ⟨hq, h, rfl⟩

end ByteScan

/-! ## recognised bytes -/

def bareFrom : ByteScan → Nat → List UInt8 → List (Nat × UInt8)
  | _, _, [] => []
  | s, i, b :: bs =>
    if (s.consume b).1 then bareFrom (s.consume b).2 (i + 1) bs
    else (i, b) :: bareFrom (s.consume b).2 (i + 1) bs

def bare (cs : List Char) : List (Nat × UInt8) := bareFrom {} 0 (bytes cs)

theorem bareFrom_append (s : ByteScan) (i : Nat) (a b : List UInt8) :
    bareFrom s i (a ++ b) = bareFrom s i a ++ bareFrom (s.run a) (i + a.length) b := by
  induction a generalizing s i with
  | nil => rfl
  | cons c a ih =>
    have hlen : i + (c :: a).length = i + 1 + a.length := by rw [List.length_cons]; omega
    rw [List.cons_append, bareFrom, bareFrom, ih, hlen, ByteScan.run_cons]
    split
    · rfl
    · rfl

/-- the recognised bytes of a text that stands further behind -/
def later (n : Nat) (l : List (Nat × UInt8)) : List (Nat × UInt8) := l.map fun x => (n + x.1, x.2)

theorem bareFrom_later (s : ByteScan) (n i : Nat) (bs : List UInt8) :
    bareFrom s (n + i) bs = later n (bareFrom s i bs) := by
  induction bs generalizing s i with
  | nil => rfl
  | cons b bs ih =>
    rw [bareFrom, bareFrom, Nat.add_assoc, ih]
    split
    · rfl
    · rfl

/-! ## bytes and characters -/

namespace ByteScan

/-- the scan of bytes at the place of a scan of characters -/
def of : Scan → ByteScan
  | .outside parens => { parens }
  | .inside quote escaped parens => { quote := some quote.toUInt8, escaped, parens }

theorem of_start : of Scan.start = {} := rfl

theorem utf8Size_of_isQuote {c : Char} (h : Scan.isQuote c = true) : c.utf8Size = 1 := by
  simp only [Scan.isQuote, Bool.or_eq_true, beq_iff_eq] at h
  rcases h with rfl | rfl <;> rfl

/-- a character of one byte -/
theorem consume_of {s : Scan} (hs : s.Sound) {c : Char} (hc : c.utf8Size = 1) :
    (of s).consume c.toUInt8 = (!s.isBare c, of (s.step c)) := by
  have hsame : ∀ d : Char, d.utf8Size = 1 → (c.toUInt8 = d.toUInt8 ↔ c = d) :=
    fun d hd => toUInt8_inj hc hd
  cases s with
  | outside p =>
    by_cases hmark : c = '\x22' ∨ c = '\x27' ∨ c = '(' ∨ c = ')'
    · rcases hmark with rfl | rfl | rfl | rfl <;> cases p <;> rfl
    · simp only [not_or] at hmark
      obtain ⟨h₁, h₂, h₃, h₄⟩ := hmark
      have hq : Scan.isQuote c = false := by simp [Scan.isQuote, h₁, h₂]
      have hstep : (Scan.outside p).step c = .outside p := by simp [Scan.step, hq, h₃, h₄]
      simp only [consume, of, hsame '\x22' rfl, hsame '\x27' rfl, hsame '(' rfl, hsame ')' rfl,
        h₁, h₂, h₃, h₄, or_self, if_false, hstep]
      cases p with
      | zero => simp [Scan.isBare, hq, h₃, h₄]
      | succ p => rfl
  | inside q e p =>
    have hq : q.utf8Size = 1 := utf8Size_of_isQuote hs
    simp only [consume, of, hsame '\\' rfl, hsame q hq]
    cases e with
    | true => rfl
    | false =>
      rw [if_neg Bool.false_ne_true, Scan.step]
      split
      · rfl
      · split
        · rfl
        · rfl

/-- a byte of another character only makes a scan forget a pending backslash -/
theorem consume_high {s : Scan} (hs : s.Sound) {b : UInt8} (hb : 128 ≤ b.toNat) :
    ((of s).consume b).2 = of s.unescape := by
  cases s with
  | outside p =>
    simp only [consume, of, ne_of_high hb (show '\x22'.utf8Size = 1 from rfl),
      ne_of_high hb (show '\x27'.utf8Size = 1 from rfl),
      ne_of_high hb (show '('.utf8Size = 1 from rfl),
      ne_of_high hb (show ')'.utf8Size = 1 from rfl), or_self, if_false]
    rfl
  | inside q e p =>
    have hq : q.utf8Size = 1 := utf8Size_of_isQuote hs
    cases e with
    | true => rfl
    | false =>
      simp only [consume, of, ne_of_high hb (show '\\'.utf8Size = 1 from rfl), ne_of_high hb hq,
        if_false, Bool.false_eq_true]
      rfl

theorem run_high {s : Scan} (hs : s.Sound) {bs : List UInt8} (h : ∀ b ∈ bs, 128 ≤ b.toNat)
    (hne : bs ≠ []) : (of s).run bs = of s.unescape := by
  induction bs generalizing s with
  | nil => exact absurd rfl hne
  | cons b bs ih =>
    obtain ⟨hb, hbs⟩ := List.forall_mem_cons.mp h
    rw [run_cons, consume_high hs hb]
    by_cases he : bs = []
    · rw [he, run_nil]
    · rw [ih hs.unescape hbs he, Scan.unescape_unescape]

/-- a character of more than one byte only makes a scan forget a pending backslash -/
theorem step_of_not_ascii {s : Scan} (hs : s.Sound) {c : Char} (hc : c.utf8Size ≠ 1) :
    s.step c = s.unescape := by
  refine hs.step_quiet ?_
  intro d hd
  rw [List.mem_singleton] at hd
  rw [hd]
  refine ⟨?_, fun h => hc (by rw [h]; rfl), fun h => hc (by rw [h]; rfl),
    fun h => hc (by rw [h]; rfl)⟩
  cases hq : Scan.isQuote c with
  | false => rfl
  | true => exact absurd (utf8Size_of_isQuote hq) hc

theorem run_char {s : Scan} (hs : s.Sound) (c : Char) :
    (of s).run (String.utf8EncodeChar c) = of (s.step c) := by
  by_cases hc : c.utf8Size = 1
  · rw [bytes_of_ascii hc, run_cons, run_nil, consume_of hs hc]
  · rw [run_high hs (high_of_not_ascii hc) String.utf8EncodeChar_ne_nil, step_of_not_ascii hs hc]

theorem run_bytes {s : Scan} (hs : s.Sound) (cs : List Char) :
    (of s).run (bytes cs) = of (s.run cs) := by
  induction cs generalizing s with
  | nil => rfl
  | cons c cs ih => rw [bytes_cons, run_append, run_char hs, ih (hs.step c), Scan.run_cons]

theorem run_fresh (cs : List Char) : run {} (bytes cs) = of (Scan.start.run cs) :=
  run_bytes Scan.sound_start cs

end ByteScan

/-! ## delimiters -/

/-- a kind of characters of one byte, and the same kind of bytes -/
structure Spelled (p : Char → Bool) (stop : UInt8 → Bool) : Prop where
  oneByte : ∀ c, p c = true → c.utf8Size = 1
  low : ∀ c, c.utf8Size = 1 → stop c.toUInt8 = p c
  high : ∀ b, 128 ≤ b.toNat → stop b = false

theorem spelled_beq {d : Char} (hd : d.utf8Size = 1) : Spelled (· == d) (· == d.toUInt8) := by
  refine ⟨?_, ?_, ?_⟩
  · intro c hc
    rw [eq_of_beq hc]
    exact hd
  · intro c hc
    rw [Bool.eq_iff_iff, beq_iff_eq, beq_iff_eq]
    exact toUInt8_inj hc hd
  · intro b hb
    exact beq_eq_false_iff_ne.mpr (ne_of_high hb hd)

theorem Spelled.or {p q : Char → Bool} {stop halt : UInt8 → Bool} (hp : Spelled p stop)
    (hq : Spelled q halt) : Spelled (fun c => p c || q c) (fun b => stop b || halt b) := by
  refine ⟨?_, ?_, ?_⟩
  · intro c hc
    rcases Bool.or_eq_true_iff.mp hc with h | h
    · exact hp.oneByte c h
    · exact hq.oneByte c h
  · intro c hc
    rw [hp.low c hc, hq.low c hc]
  · intro b hb
    rw [hp.high b hb, hq.high b hb]
    rfl

def marks (p : Char → Bool) : Scan → Nat → List Char → List (Nat × UInt8)
  | _, _, [] => []
  | s, i, c :: cs =>
    if s.isBare c && p c then (i, c.toUInt8) :: marks p (s.step c) (i + c.utf8Size) cs
    else marks p (s.step c) (i + c.utf8Size) cs

section
variable {p : Char → Bool} {stop : UInt8 → Bool} {s : Scan}

theorem filter_bareFrom_high (h : Spelled p stop) (s : ByteScan) (i : Nat) {bs : List UInt8}
    (hbs : ∀ b ∈ bs, 128 ≤ b.toNat) : (bareFrom s i bs).filter (stop ·.2) = [] := by
  induction bs generalizing s i with
  | nil => rfl
  | cons b bs ih =>
    obtain ⟨hb, hbs⟩ := List.forall_mem_cons.mp hbs
    rw [bareFrom]
    split
    · exact ih _ _ hbs
    · rw [List.filter_cons_of_neg (by rw [h.high b hb]; exact Bool.false_ne_true)]
      exact ih _ _ hbs

theorem filter_bareFrom (h : Spelled p stop) (hs : s.Sound) (i : Nat) (cs : List Char) :
    (bareFrom (.of s) i (bytes cs)).filter (stop ·.2) = marks p s i cs := by
  induction cs generalizing s i with
  | nil => rfl
  | cons c cs ih =>
    rw [bytes_cons, bareFrom_append, List.filter_append, ByteScan.run_char hs,
      String.length_utf8EncodeChar, ih (hs.step c), marks]
    by_cases hc : c.utf8Size = 1
    · rw [bytes_of_ascii hc, bareFrom, bareFrom, ByteScan.consume_of hs hc]
      cases hbare : s.isBare c with
      | false => rfl
      | true =>
        rw [Bool.true_and, ← h.low c hc, Bool.not_true, if_neg Bool.false_ne_true]
        cases hstop : stop c.toUInt8 with
        | false => rw [List.filter_cons_of_neg (by simp [hstop])]; rfl
        | true => rw [List.filter_cons_of_pos (by simp [hstop])]; rfl
    · have hpc : p c = false := Bool.eq_false_iff.mpr fun hpc => hc (h.oneByte c hpc)
      rw [filter_bareFrom_high h _ _ (high_of_not_ascii hc), hpc, Bool.and_false]
      rfl

end
end CssOptimizer.Utf8
