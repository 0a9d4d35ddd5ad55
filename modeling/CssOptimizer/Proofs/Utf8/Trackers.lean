import CssOptimizer.Proofs.Utf8.Comments
import Mathlib.Logic.Relation
import Mathlib.Data.Nat.Find

/-!
# Two readers of strings

* `Utf8.scanAt cs p`     the scan of the bytes of a text in front of an offset;
* `Utf8.OpensAt cs p`    a comment mark stands at an offset and, for the scan, outside strings;
* `Stripper.Reached cs`  the states that the reader of comments of a text passes through.

A scan remembers a backslash in a string and forgets it at the next byte, where the reader of
comments goes on by two bytes.  From one turn to the next both have the same quote open, whatever
the parentheses, up to the first comment mark outside strings (`Agrees.turn`); there both stand
outside strings, and without one the text is its own without comments
(`stripper_agrees_with_scan`).
-/

namespace CssOptimizer.Utf8
open String (utf8Len)

def scanAt (cs : List Char) (p : Nat) : ByteScan := ByteScan.run {} ((bytes cs).take p)

/-- a slash and a star stand at an offset -/
def CommentAt (cs : List Char) (p : Nat) : Prop :=
  (bytes cs)[p]? = some '/'.toUInt8 ∧ (bytes cs)[p + 1]? = some '*'.toUInt8

def OpensAt (cs : List Char) (p : Nat) : Prop := (scanAt cs p).quote = none ∧ CommentAt cs p

instance (cs : List Char) (p : Nat) : Decidable (CommentAt cs p) :=
  inferInstanceAs (Decidable (_ ∧ _))

instance (cs : List Char) (p : Nat) : Decidable (OpensAt cs p) :=
  inferInstanceAs (Decidable (_ ∧ _))

/-- an offset follows a backslash in a string -/
def BehindBackslash (cs : List Char) (p : Nat) : Prop :=
  ∃ q, p = q + 1 ∧ (bytes cs)[q]? = some '\\'.toUInt8 ∧ (scanAt cs q).quote.isSome = true

section
variable {cs : List Char} {p : Nat} {b : UInt8}

theorem scanAt_succ (h : (bytes cs)[p]? = some b) :
    scanAt cs (p + 1) = ((scanAt cs p).consume b).2 := by
  rw [scanAt, List.take_add_one, h, ByteScan.run_append]
  rfl

theorem tidy_scanAt (cs : List Char) (p : Nat) : (scanAt cs p).Tidy := ByteScan.tidy_fresh.run _

theorem exists_byte (h : p < utf8Len cs) : ∃ b, (bytes cs)[p]? = some b :=
  ⟨_, List.getElem?_eq_getElem (by rwa [length_bytes])⟩

end

namespace ByteScan

/-- only a backslash in a string makes the next byte an escaped one -/
theorem Tidy.of_escaped_consume {s : ByteScan} (hs : s.Tidy) {b : UInt8}
    (h : (s.consume b).2.escaped = true) :
    s.escaped = false ∧ s.quote.isSome = true ∧ b = '\\'.toUInt8 := by
  unfold ByteScan.consume at h
  cases hq : s.quote with
  | none =>
    have he : s.escaped = true := by
      rw [hq] at h
      simp only at h
      split at h
      · exact h
      · split at h
        · exact h
        · split at h <;> exact h
    rw [hs.not_escaped hq] at he
    cases he
  | some q =>
    rw [hq] at h
    simp only at h
    split at h
    · cases h
    · rename_i he
      split at h
      · rename_i hb
        exact ⟨Bool.eq_false_iff.mpr he, rfl, hb⟩
      · split at h <;> exact absurd h he

/-- an escaped byte leaves the string open -/
theorem consume_escaped {s : ByteScan} (h : s.escaped = true) (hq : s.quote.isSome = true)
    (b : UInt8) : (s.consume b).2 = { s with escaped := false } := by
  obtain ⟨q, hq⟩ := Option.isSome_iff_exists.mp hq
  simp [consume, hq, h]

end ByteScan

namespace Stripper
variable {cs : List Char} {s s' : Stripper} {b : UInt8}

/-- one turn of the reader of comments on a text -/
def Turns (cs : List Char) (s s' : Stripper) : Prop :=
  ∃ b, (bytes cs)[s.place]? = some b ∧ s.turn cs b = pure s'

def Reached (cs : List Char) : Stripper → Prop := Relation.ReflTransGen (Turns cs) {}

/-- the reader stands where a scan is that is not escaped and has the same quote open -/
def Agrees (s : Stripper) (t : ByteScan) : Prop := t.escaped = false ∧ s.quote = t.quote

theorem Agrees.turn {t : ByteScan} (h : s.Agrees t) (cs : List Char) (b : UInt8) :
    (s.turn cs b = pure { s with place := s.place + 2 } ∧ (t.consume b).2.escaped = true ∧
      s.quote = (t.consume b).2.quote) ∨
    (t.quote = none ∧ b = '/'.toUInt8 ∧ (bytes cs)[s.place + 1]? = some '*'.toUInt8) ∨
    (s.turn cs b = pure { s with place := s.place + 1, quote := (t.consume b).2.quote } ∧
      (t.consume b).2.escaped = false) := by
  obtain ⟨place, quote, segment, out⟩ := s
  obtain ⟨_, _, parens⟩ := t
  obtain ⟨rfl, rfl⟩ := h
  cases quote with
  | some q =>
    simp only [Stripper.turn, ByteScan.consume, Bool.false_eq_true, if_false]
    by_cases hback : b = '\\'.toUInt8
    · rw [if_pos hback, if_pos hback]
      exact .inl ⟨rfl, rfl, rfl⟩
    · rw [if_neg hback, if_neg hback]
      by_cases hclose : b = q
      · rw [if_pos hclose, if_pos hclose]
        exact .inr (.inr ⟨rfl, rfl⟩)
      · rw [if_neg hclose, if_neg hclose]
        exact .inr (.inr ⟨rfl, rfl⟩)
  | none =>
    simp only [Stripper.turn, ByteScan.consume]
    by_cases hquote : b = '\x22'.toUInt8 ∨ b = '\x27'.toUInt8
    · rw [if_pos hquote, if_pos hquote]
      exact .inr (.inr ⟨rfl, rfl⟩)
    · rw [if_neg hquote, if_neg hquote]
      by_cases hcomment : b = '/'.toUInt8 ∧ (bytes cs)[place + 1]? = some '*'.toUInt8
      · exact .inr (.inl ⟨trivial, hcomment⟩)
      · rw [if_neg hcomment]
        refine .inr (.inr ⟨?_, ?_⟩)
        · split
          · rfl
          · split <;> rfl
        · split
          · rfl
          · split <;> rfl

/-- before the first comment both have the same quote open where the reader stands -/
theorem Reached.agrees (h : Reached cs s) (hle : s.place ≤ utf8Len cs)
    (hbefore : ∀ q < s.place, ¬ OpensAt cs q) : s.Agrees (scanAt cs s.place) := by
  induction h with
  | refl => exact ⟨rfl, rfl⟩
  | @tail s s' _ hturn ih =>
    obtain ⟨b, hb, hturn⟩ := hturn
    have hlt : s.place < s'.place := turn_lt hb hturn
    have hs : s.Agrees (scanAt cs s.place) :=
      ih (by omega) fun q hq => hbefore q (Nat.lt_trans hq hlt)
    rcases hs.turn cs b with ⟨hskip, he, hquote⟩ | ⟨hq, rfl, hstar⟩ | ⟨hpass, he⟩
    · obtain rfl := pure_inj.mp (hturn.symm.trans hskip)
      obtain ⟨d, hd⟩ : ∃ d, (bytes cs)[s.place + 1]? = some d := exists_byte hle
      rw [← scanAt_succ hb] at he hquote
      have hskipped := ByteScan.consume_escaped he (tidy_scanAt cs (s.place + 1) he) d
      rw [← scanAt_succ hd] at hskipped
      exact ⟨by rw [hskipped], by rw [hskipped]; exact hquote⟩
    · exact absurd ⟨hq, hb, hstar⟩ (hbefore s.place hlt)
    · obtain rfl := pure_inj.mp (hturn.symm.trans hpass)
      have hsucc := scanAt_succ hb
      exact ⟨by rw [hsucc]; exact he, by rw [hsucc]⟩

/-- before the first comment the reader stands at every byte that is not escaped -/
theorem exists_reached {p : Nat} (hle : p ≤ utf8Len cs) (hbefore : ∀ q < p, ¬ OpensAt cs q)
    (he : (scanAt cs p).escaped = false) : ∃ s, Reached cs s ∧ s.place = p := by
  induction p using Nat.strongRecOn with
  | ind p ih =>
    cases p with
    | zero => exact ⟨{}, .refl, rfl⟩
    | succ p =>
      obtain ⟨b, hb⟩ := exists_byte hle
      rw [scanAt_succ hb] at he
      cases hp : (scanAt cs p).escaped with
      | false =>
        obtain ⟨s, hs, rfl⟩ := ih p (Nat.lt_succ_self p) (Nat.le_of_lt hle)
          (fun q hq => hbefore q (Nat.lt_succ_of_lt hq)) hp
        have hagrees := hs.agrees (Nat.le_of_lt hle) fun q hq => hbefore q (Nat.lt_succ_of_lt hq)
        rcases hagrees.turn cs b with ⟨-, hskip, -⟩ | ⟨hq, rfl, hstar⟩ | ⟨hpass, -⟩
        · rw [he] at hskip
          cases hskip
        · exact absurd ⟨hq, hb, hstar⟩ (hbefore s.place (Nat.lt_succ_self _))
        · exact ⟨_, hs.tail ⟨b, hb, hpass⟩, rfl⟩
      | true =>
        cases p with
        | zero => cases hp
        | succ p =>
          have hlt : p < utf8Len cs := Nat.lt_of_succ_lt hle
          obtain ⟨d, hd⟩ := exists_byte hlt
          rw [scanAt_succ hd] at hp
          obtain ⟨hfree, hopen, -⟩ := (tidy_scanAt cs p).of_escaped_consume hp
          have hin : ∀ q < p, ¬ OpensAt cs q := fun q hq => hbefore q (by omega)
          obtain ⟨s, hs, rfl⟩ := ih p (by omega) (Nat.le_of_lt hlt) hin hfree
          have hagrees := hs.agrees (Nat.le_of_lt hlt) hin
          rcases hagrees.turn cs d with ⟨hskip, -⟩ | ⟨hnone, -⟩ | ⟨-, hpass⟩
          · exact ⟨_, hs.tail ⟨d, hd, hskip⟩, rfl⟩
          · rw [hnone] at hopen
            cases hopen
          · rw [hp] at hpass
            cases hpass

end Stripper

theorem behindBackslash_of_escaped {cs : List Char} {p : Nat} (hle : p ≤ utf8Len cs)
    (he : (scanAt cs p).escaped = true) : BehindBackslash cs p := by
  cases p with
  | zero => cases he
  | succ p =>
    obtain ⟨b, hb⟩ := exists_byte hle
    rw [scanAt_succ hb] at he
    obtain ⟨-, hopen, rfl⟩ := (tidy_scanAt cs p).of_escaped_consume he
    exact ⟨p, rfl, hb, hopen⟩

/-- a comment that opens for a scan of characters opens for one of bytes -/
theorem exists_opensAt_of_opensComment {s : Scan} (hs : s.Sound) {cs : List Char}
    (h : Scan.opensComment s cs = true) :
    ∃ p, ((ByteScan.of s).run ((bytes cs).take p)).quote = none ∧ CommentAt cs p := by
  induction cs generalizing s with
  | nil => cases h
  | cons c cs ih =>
    rw [Scan.opensComment, Bool.or_eq_true] at h
    rcases h with h | h
    · simp only [Bool.and_eq_true, beq_iff_eq] at h
      obtain ⟨⟨hout, rfl⟩, hstar⟩ := h
      obtain ⟨rest, rfl⟩ := List.head?_eq_some_iff.mp hstar
      refine ⟨0, ?_, rfl, rfl⟩
      cases s with
      | outside p => rfl
      | inside q e p => cases hout
    · obtain ⟨p, hquote, hslash, hstar⟩ := ih (hs.step c) h
      have hlen : (String.utf8EncodeChar c).length = c.utf8Size := String.length_utf8EncodeChar c
      refine ⟨c.utf8Size + p, ?_, ?_, ?_⟩
      · rw [bytes_cons, List.take_append, hlen, Nat.add_sub_cancel_left,
          List.take_of_length_le (by omega), ByteScan.run_append, ByteScan.run_char hs]
        exact hquote
      · rw [bytes_cons, List.getElem?_append_right (by omega), hlen, Nat.add_sub_cancel_left]
        exact hslash
      · rw [bytes_cons, List.getElem?_append_right (by omega), hlen, Nat.add_assoc,
          Nat.add_sub_cancel_left]
        exact hstar

/-- up to the first comment mark outside strings the reader of comments and the scan have the same
quote open wherever the reader stands, which is everywhere but at escaped bytes; there the reader
opens a comment, and a text without such a mark is its own without comments -/
theorem stripper_agrees_with_scan (cs : List Char) :
    (∀ p ≤ utf8Len cs, (∀ q < p, ¬ OpensAt cs q) →
      ((∃ s, Stripper.Reached cs s ∧ s.place = p) ↔ (scanAt cs p).escaped = false) ∧
      ((scanAt cs p).escaped = true → BehindBackslash cs p) ∧
      ∀ s, Stripper.Reached cs s → s.place = p → s.quote = (scanAt cs p).quote) ∧
    ((∃ p, OpensAt cs p) ↔
      ∃ s, Stripper.Reached cs s ∧ s.quote = none ∧ CommentAt cs s.place) ∧
    ((∀ p, ¬ OpensAt cs p) → strip cs = pure cs ∧ Comment.strip cs = cs) := by
  refine ⟨?_, ⟨?_, ?_⟩, ?_⟩
  · intro p hle hbefore
    refine ⟨⟨?_, Stripper.exists_reached hle hbefore⟩, behindBackslash_of_escaped hle, ?_⟩
    · rintro ⟨s, hs, rfl⟩
      exact (hs.agrees hle hbefore).1
    · rintro s hs rfl
      exact (hs.agrees hle hbefore).2
  · intro hopens
    have hbefore : ∀ q < Nat.find hopens, ¬ OpensAt cs q := fun q hq => Nat.find_min hopens hq
    obtain ⟨hquote, hmark⟩ := Nat.find_spec hopens
    have hle : Nat.find hopens ≤ utf8Len cs := Nat.le_of_lt (lt_utf8Len_of_byte hmark.1)
    have hfree : (scanAt cs (Nat.find hopens)).escaped = false :=
      (tidy_scanAt cs _).not_escaped hquote
    obtain ⟨s, hs, hplace⟩ := Stripper.exists_reached hle hbefore hfree
    rw [← hplace] at hle hbefore hquote hmark
    exact ⟨s, hs, (hs.agrees hle hbefore).2.trans hquote, hmark⟩
  · rintro ⟨s, hs, hquote, hmark⟩
    by_cases hbefore : ∀ q < s.place, ¬ OpensAt cs q
    · have hle := Nat.le_of_lt (lt_utf8Len_of_byte hmark.1)
      exact ⟨s.place, (hs.agrees hle hbefore).2.symm.trans hquote, hmark⟩
    · simp only [not_forall, not_not] at hbefore
      obtain ⟨q, -, hq⟩ := hbefore
      exact ⟨q, hq⟩
  · intro hnone
    have hclean : Scan.opensComment Scan.start cs = false := by
      refine Bool.eq_false_iff.mpr fun h => ?_
      obtain ⟨p, hp⟩ := exists_opensAt_of_opensComment Scan.sound_start h
      exact hnone p hp
    rw [strip_eq, Scan.strip_of_not_opensComment hclean]
    exact ⟨rfl, rfl⟩

/-- a string in parentheses that holds a parenthesis, a backslash in front of a character of two
bytes, a comment mark and the other quote, and a string that is left open -/
def quotedMark : List Char := "a(\x22)\\é/*\x27\x22 \x27x".toList

theorem stripper_agrees_with_scan_quotedMark :
    (∀ p, ¬ OpensAt quotedMark p) ∧ strip quotedMark = pure quotedMark ∧
      (∃ s, Stripper.Reached quotedMark s ∧ s.place = 6 ∧ s.quote = some '\x22'.toUInt8) ∧
      ¬ ∃ s, Stripper.Reached quotedMark s ∧ s.place = 5 := by
  have hnone : ∀ p, ¬ OpensAt quotedMark p := by
    have hinside : ∀ p < utf8Len quotedMark, ¬ OpensAt quotedMark p := by decide
    intro p hp
    exact hinside p (lt_utf8Len_of_byte hp.2.1) hp
  obtain ⟨hagree, -, hstrip⟩ := stripper_agrees_with_scan quotedMark
  obtain ⟨hreached, -, hquote⟩ := hagree 6 (by decide) fun q _ => hnone q
  obtain ⟨s, hs, hplace⟩ := hreached.mpr (by decide)
  refine ⟨hnone, (hstrip hnone).1, ⟨s, hs, hplace, (hquote s hs hplace).trans (by decide)⟩, ?_⟩
  rw [(hagree 5 (by decide) fun q _ => hnone q).1]
  decide

end CssOptimizer.Utf8
