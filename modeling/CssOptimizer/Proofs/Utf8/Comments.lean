import CssOptimizer.Proofs.Utf8.Scan
import CssOptimizer.Proofs.Sheet.Seams

/-!
# Dropping comments from bytes

* `Stripper`            where a reader of comments stands: its offset, the open quote, where the
                        part that is not yet written starts, and what is written;
* `Stripper.turn`       one turn: a byte further, two behind a backslash in a string, or behind a
                        comment;
* `Stripper.run`        turns until the text is read;
* `Utf8.strip`          a text without its comments;
* `Midway`              this reader and a reader of characters at the same place of a text.

The reader skips the byte behind a backslash, which may be the first of several of a character;
those that follow are neither quotes nor backslashes, so that it passes them (`run_high`) and stands
between two characters again.  From each place between two characters it goes on to the next at
which both readers write the same (`Midway.Goes`).  Hence no slice is a fault, the reading ends, and
it drops the comments that a reader of characters drops (`strip_eq`).
-/

set_option linter.unusedVariables false

namespace CssOptimizer.Utf8
open String (utf8Len utf8Len_nil utf8Len_cons utf8Len_append utf8Len_eq_zero)
open Comment Text

/-! ## marks in a text -/

/-- the offset of the first place where a text that is not empty stands -/
def offset? (mark : List Char) : List Char → Option Nat
  | [] => none
  | c :: cs =>
    if mark.isPrefixOf (c :: cs) then some 0 else (offset? mark cs).map (· + c.utf8Size)

theorem not_infix_of_offset? {mark cs : List Char} (hne : mark ≠ []) (h : offset? mark cs = none) :
    ¬ mark <:+: cs := by
  induction cs with
  | nil => exact fun hm => hne (List.infix_nil.mp hm)
  | cons c cs ih =>
    rw [offset?] at h
    split at h
    · cases h
    · rename_i hp
      rw [List.infix_cons_iff, not_or]
      exact ⟨fun hm => hp (List.isPrefixOf_iff_prefix.mpr hm), ih (Option.map_eq_none_iff.mp h)⟩

/-- a mark is found where it stands first -/
theorem exists_of_offset? {mark cs : List Char} {i : Nat} (hne : mark ≠ [])
    (h : offset? mark cs = some i) :
    ∃ a b, cs = a ++ (mark ++ b) ∧ utf8Len a = i ∧ ¬ mark <:+: a := by
  induction cs generalizing i with
  | nil => cases h
  | cons c cs ih =>
    rw [offset?] at h
    split at h
    · rename_i hp
      obtain ⟨b, hb⟩ := List.isPrefixOf_iff_prefix.mp hp
      exact ⟨[], b, hb.symm, Option.some.inj h, fun hm => hne (List.infix_nil.mp hm)⟩
    · rename_i hp
      obtain ⟨j, hj, hi⟩ := Option.map_eq_some_iff.mp h
      obtain ⟨a, b, hcs, ha, hnot⟩ := ih hj
      refine ⟨c :: a, b, by rw [hcs]; rfl, by rw [utf8Len_cons, ha, hi], ?_⟩
      rw [List.infix_cons_iff, not_or]
      refine ⟨fun hm => hp (List.isPrefixOf_iff_prefix.mpr ?_), hnot⟩
      rw [hcs, ← List.cons_append]
      exact hm.trans (List.prefix_append _ _)

/-! ## turns -/

structure Stripper where
  place : Nat := 0
  quote : Option UInt8 := none
  segment : Nat := 0
  out : List Char := []

namespace Stripper

def turn (cs : List Char) (s : Stripper) (b : UInt8) : Reading Stripper :=
  match s.quote with
  | some q =>
    if b = '\\'.toUInt8 then pure { s with place := s.place + 2 }
    else if b = q then pure { s with place := s.place + 1, quote := none }
    else pure { s with place := s.place + 1 }
  | none =>
    if b = '\x22'.toUInt8 ∨ b = '\x27'.toUInt8 then
      pure { s with place := s.place + 1, quote := some b }
    else if b = '/'.toUInt8 ∧ (bytes cs)[s.place + 1]? = some '*'.toUInt8 then do
      let kept ← slice cs s.segment s.place
      let behind ← slice cs (s.place + 2) (utf8Len cs)
      let stop := (offset? closeMark behind).elim (utf8Len cs) fun e => s.place + 2 + e + 2
      pure { s with place := stop, segment := stop, out := s.out ++ kept }
    else pure { s with place := s.place + 1 }

/-- a turn goes on in the text -/
theorem turn_lt {cs : List Char} {s s' : Stripper} {b : UInt8}
    (hb : (bytes cs)[s.place]? = some b) (h : s.turn cs b = pure s') : s.place < s'.place := by
  have hlt := lt_utf8Len_of_byte hb
  unfold Stripper.turn at h
  split at h
  · split at h
    · rw [← pure_inj.mp h]
      exact Nat.lt_add_of_pos_right (by decide)
    · split at h
      · rw [← pure_inj.mp h]
        exact Nat.lt_succ_self _
      · rw [← pure_inj.mp h]
        exact Nat.lt_succ_self _
  · split at h
    · rw [← pure_inj.mp h]
      exact Nat.lt_succ_self _
    · split at h
      · obtain ⟨kept, -, h⟩ := of_bind_eq_pure h
        obtain ⟨behind, -, h⟩ := of_bind_eq_pure h
        rw [← pure_inj.mp h]
        cases offset? Comment.closeMark behind with
        | none => exact hlt
        | some e => simp only [Option.elim_some]; omega
      · rw [← pure_inj.mp h]
        exact Nat.lt_succ_self _

def run (cs : List Char) (s : Stripper) : Reading Stripper :=
  match hb : (bytes cs)[s.place]? with
  | none => pure s
  | some b =>
    match hturn : s.turn cs b with
    | .error f => throw f
    | .ok s' => run cs s'
termination_by utf8Len cs - s.place
decreasing_by
  have hlt := lt_utf8Len_of_byte hb
  have hon := turn_lt hb hturn
  omega

/-- what is written, with the part that is left -/
def finish (cs : List Char) (s : Stripper) : Reading (List Char) := do
  if s.segment < utf8Len cs then return s.out ++ (← slice cs s.segment (utf8Len cs))
  else return s.out

end Stripper

def strip (cs : List Char) : Reading (List Char) :=
  if (offset? ['/', '*'] cs).isSome then do Stripper.finish cs (← Stripper.run cs {}) else pure cs

namespace Stripper
variable {cs : List Char} {s : Stripper}

theorem run_of_byte {b : UInt8} (h : (bytes cs)[s.place]? = some b) :
    s.run cs = s.turn cs b >>= run cs := by
  rw [run]
  split
  · rename_i hb
    rw [h] at hb
    cases hb
  · rename_i b' hb
    obtain rfl := Option.some.inj (h.symm.trans hb)
    split
    · rename_i hturn
      rw [hturn]
      rfl
    · rename_i hturn
      rw [hturn]
      rfl

theorem run_of_end (h : utf8Len cs ≤ s.place) : s.run cs = pure s := by
  have hend : (bytes cs)[s.place]? = none :=
    List.getElem?_eq_none_iff.mpr (by rwa [length_bytes])
  rw [run]
  split
  · rfl
  · rename_i hb
    rw [hend] at hb
    cases hb

/-- a byte of a character that takes more than one of them is passed over -/
theorem turn_high {b : UInt8} (hb : 128 ≤ b.toNat) (hq : ∀ q, s.quote = some q → q.toNat < 128) :
    s.turn cs b = pure { s with place := s.place + 1 } := by
  have hne : ∀ d : Char, d.utf8Size = 1 → b ≠ d.toUInt8 := fun d hd => ne_of_high hb hd
  unfold turn
  split
  · rename_i q hs
    have hbq : b ≠ q := by
      rintro rfl
      have := hq b hs
      omega
    rw [if_neg (hne '\\' rfl), if_neg hbq]
  · rw [if_neg (by simp [hne '\x22' rfl, hne '\x27' rfl]), if_neg (by simp [hne '/' rfl])]

theorem run_high {front bs rest : List UInt8} (hcs : bytes cs = front ++ (bs ++ rest))
    (hbs : ∀ b ∈ bs, 128 ≤ b.toNat) (hp : s.place = front.length)
    (hq : ∀ q, s.quote = some q → q.toNat < 128) :
    s.run cs = run cs { s with place := s.place + bs.length } := by
  induction bs generalizing s front with
  | nil => rfl
  | cons b bs ih =>
    obtain ⟨hb, hbs⟩ := List.forall_mem_cons.mp hbs
    have hbyte : (bytes cs)[s.place]? = some b := by
      rw [hcs, hp, List.getElem?_append_right (Nat.le_refl _), Nat.sub_self]
      rfl
    have hnext : bytes cs = front ++ [b] ++ (bs ++ rest) := by
      rw [hcs]
      simp
    have hrest := ih (s := { s with place := s.place + 1 }) hnext hbs (by simp [hp]) hq
    rw [run_of_byte hbyte, turn_high hb hq, pure_bind, hrest, List.length_cons]
    simp only [Nat.add_assoc, Nat.add_comm 1]

/-! ## between two characters -/

/-- a reader behind `before` and `part`, of which `part` is not written yet -/
def standing (before part : List Char) (q : Option UInt8) (out : List Char) : Stripper :=
  ⟨utf8Len before + utf8Len part, q, utf8Len before, out⟩

section
variable (before part : List Char) (q : Option UInt8) (out : List Char)

theorem place_standing :
    (standing before part q out).place = (bytes (before ++ part)).length := by
  rw [length_bytes, utf8Len_append]
  rfl

theorem getElem?_standing (rest : List Char) (k : Nat) :
    (bytes (before ++ (part ++ rest)))[(standing before part q out).place + k]? =
      (bytes rest)[k]? := by
  rw [← List.append_assoc, bytes_append, place_standing,
    List.getElem?_append_right (Nat.le_add_right _ _), Nat.add_sub_cancel_left]

theorem byte_standing {c : Char} (hc : c.utf8Size = 1) (rest : List Char) :
    (bytes (before ++ (part ++ c :: rest)))[(standing before part q out).place]? =
      some c.toUInt8 := by
  have h := getElem?_standing before part q out (c :: rest) 0
  rwa [Nat.add_zero, bytes_cons, bytes_of_ascii hc] at h

/-- at the end of the text the rest of it is written -/
theorem finish_end {k : Nat} :
    (run (before ++ part)
        { standing before part q out with place := utf8Len before + utf8Len part + k } >>=
      finish (before ++ part)) = pure (out ++ part) := by
  rw [run_of_end (by rw [utf8Len_append]; exact Nat.le_add_right _ _), pure_bind, finish]
  by_cases hpart : part = []
  · simp only [standing, hpart, List.append_nil, Nat.lt_irrefl, if_false]
  · have hlt : utf8Len before < utf8Len (before ++ part) := by
      have hne : utf8Len part ≠ 0 := fun h => hpart (utf8Len_eq_zero.mp h)
      rw [utf8Len_append]
      omega
    simp only [standing, if_pos hlt, slice_rest, pure_bind]

/-- a reader that goes on by a character, of which the first byte may be the only one it reads -/
theorem run_pass {c : Char} {rest : List Char} {q' : Option UInt8}
    (hlow : c.utf8Size = 1 →
      (standing before part q out).turn (before ++ (part ++ c :: rest)) c.toUInt8 =
        pure { standing before part q out with
          place := utf8Len before + utf8Len part + 1, quote := q' })
    (hhigh : c.utf8Size ≠ 1 → q' = q ∧ ∀ b, q = some b → b.toNat < 128) :
    run (before ++ (part ++ c :: rest)) (standing before part q out) =
      run (before ++ (part ++ c :: rest)) (standing before (part ++ [c]) q' out) := by
  have hplace : utf8Len before + utf8Len (part ++ [c]) =
      utf8Len before + utf8Len part + c.utf8Size := by rw [utf8Len_concat, Nat.add_assoc]
  by_cases hc : c.utf8Size = 1
  · rw [run_of_byte (byte_standing before part q out hc rest), hlow hc, pure_bind, standing,
      standing, hplace, hc]
  · obtain ⟨rfl, hq⟩ := hhigh hc
    have hcs : bytes (before ++ (part ++ c :: rest)) =
        bytes (before ++ part) ++ (String.utf8EncodeChar c ++ bytes rest) := by
      rw [← List.append_assoc, bytes_append, bytes_cons]
    rw [run_high hcs (high_of_not_ascii hc) (place_standing before part q' out) hq,
      String.length_utf8EncodeChar, standing, standing, hplace]

/-- behind a backslash in a string the first byte of a character is skipped, and the others are
passed over -/
theorem run_escaped (d : Char) (rest : List Char) (hq : ∀ b, q = some b → b.toNat < 128) :
    run (before ++ (part ++ '\\' :: d :: rest))
        { standing before part q out with place := utf8Len before + utf8Len part + 2 } =
      run (before ++ (part ++ '\\' :: d :: rest)) (standing before (part ++ ['\\', d]) q out) := by
  obtain ⟨b, bs, hd⟩ := List.exists_cons_of_ne_nil (String.utf8EncodeChar_ne_nil (c := d))
  have hlen : bs.length + 1 = d.utf8Size := by
    rw [← String.length_utf8EncodeChar, hd, List.length_cons]
  have hhigh : ∀ x ∈ bs, 128 ≤ x.toNat := by
    intro x hx
    by_cases hone : d.utf8Size = 1
    · have hnil : bs = [] := List.length_eq_zero_iff.mp (by omega)
      rw [hnil] at hx
      cases hx
    · exact high_of_not_ascii hone x (by rw [hd]; exact List.mem_cons_of_mem b hx)
  have hcs : bytes (before ++ (part ++ '\\' :: d :: rest)) =
      bytes (before ++ part ++ ['\\']) ++ [b] ++ (bs ++ bytes rest) := by
    have hsplit : before ++ (part ++ '\\' :: d :: rest) =
        before ++ part ++ ['\\'] ++ d :: rest := by simp
    rw [hsplit, bytes_append, bytes_cons, hd]
    simp
  have hplace : utf8Len before + utf8Len part + 2 =
      (bytes (before ++ part ++ ['\\']) ++ [b]).length := by
    rw [List.length_append, length_bytes, utf8Len_append, utf8Len_append]
    rfl
  have hend : utf8Len before + utf8Len part + 2 + bs.length =
      utf8Len before + utf8Len (part ++ ['\\', d]) := by
    have hsize : utf8Len (part ++ ['\\', d]) = utf8Len part + (d.utf8Size + 1) := by
      rw [utf8Len_append, utf8Len_cons, utf8Len_cons, utf8Len_nil, Nat.zero_add]
      rfl
    omega
  rw [run_high hcs hhigh hplace hq]
  simp only [standing, hend]

end

/-- a reader of bytes and a reader of characters, both between two characters -/
inductive Stands : Option UInt8 → Mode → Prop
  | code : Stands none .code
  | quoted {q : Char} (h : Scan.isQuote q = true) : Stands (some q.toUInt8) (.quoted q)

theorem Stands.lt {q : Option UInt8} {m : Mode} (h : Stands q m) :
    ∀ b, q = some b → b.toNat < 128 := by
  intro b hb
  cases h with
  | code => cases hb
  | quoted h =>
    rw [← Option.some.inj hb]
    exact toUInt8_lt (ByteScan.utf8Size_of_isQuote h)

theorem Stands.final {q : Option UInt8} {m : Mode} (h : Stands q m) :
    Comment.stripFrom m [] = [] := by
  cases h with
  | code => rfl
  | quoted h => rfl

/-- a comment that is never closed runs to the end of the text -/
theorem stripFrom_unclosed {c : List Char} (hc : ¬ closeMark <:+: c) :
    stripFrom .comment c = [] := by
  have hnil := stripFrom_closeMark hc (Or.inl rfl) []
  have hone := stripFrom_closeMark hc (Or.inl rfl) ['x']
  rw [stripFrom_append] at hnil hone
  have hpassed : passed .comment c = [] := (List.append_eq_nil_iff.mp hnil).1
  rw [hpassed, List.nil_append] at hone
  rw [stripFrom, hpassed]
  cases hrun : Comment.run .comment c with
  | slash =>
    rw [hrun] at hone
    exact absurd hone (by decide)
  | _ => rfl

/-- the turn at the slash of a comment leads behind it -/
theorem turn_comment (before part text out : List Char) {stop : Nat}
    (hstop : (offset? closeMark text).elim (utf8Len (before ++ (part ++ '/' :: '*' :: text)))
      (fun e => utf8Len before + utf8Len part + 2 + e + 2) = stop) :
    (standing before part none out).turn (before ++ (part ++ '/' :: '*' :: text)) '/'.toUInt8 =
      pure ⟨stop, none, stop, out ++ part⟩ := by
  have hstar := getElem?_standing before part none out ('/' :: '*' :: text) 1
  have hbehind : slice (before ++ (part ++ '/' :: '*' :: text)) (utf8Len before + utf8Len part + 2)
      (utf8Len (before ++ (part ++ '/' :: '*' :: text))) = pure text := by
    have hcs : before ++ (part ++ '/' :: '*' :: text) =
        before ++ part ++ ['/', '*'] ++ text := by simp
    have hfront : utf8Len before + utf8Len part + 2 = utf8Len (before ++ part ++ ['/', '*']) := by
      rw [utf8Len_append, utf8Len_append]
      rfl
    rw [hcs, hfront, slice_rest]
  have hquote : ¬ ('/'.toUInt8 = '\x22'.toUInt8 ∨ '/'.toUInt8 = '\x27'.toUInt8) := by decide
  simp only [turn, standing] at hstar ⊢
  rw [if_neg hquote, if_pos ⟨trivial, hstar⟩, slice_part, pure_bind, hbehind, pure_bind, hstop]

/-- from the slash of a comment the reader goes on behind it -/
theorem run_comment (before part text out : List Char) :
    ∃ front rest, before ++ (part ++ '/' :: '*' :: text) = front ++ ([] ++ rest) ∧
      rest.length ≤ text.length ∧
      stripFrom .code ('/' :: '*' :: text) = stripFrom .code rest ∧
      run (before ++ (part ++ '/' :: '*' :: text)) (standing before part none out) =
        run (before ++ (part ++ '/' :: '*' :: text)) (standing front [] none (out ++ part)) := by
  have hslash := byte_standing before part none out (c := '/') rfl ('*' :: text)
  cases hmark : offset? closeMark text with
  | none =>
    have hturn := turn_comment before part text out (congrArg (Option.elim · _ _) hmark)
    refine ⟨before ++ (part ++ '/' :: '*' :: text), [], by simp, Nat.zero_le _, ?_, ?_⟩
    · exact stripFrom_unclosed (not_infix_of_offset? (by decide) hmark)
    · rw [run_of_byte hslash, hturn, pure_bind]
      rfl
  | some e =>
    obtain ⟨a, b, rfl, rfl, hnot⟩ := exists_of_offset? (by decide) hmark
    have hplace : utf8Len before + utf8Len part + 2 + utf8Len a + 2 =
        utf8Len (before ++ part ++ ['/', '*'] ++ a ++ closeMark) := by
      rw [utf8Len_append, utf8Len_append, utf8Len_append, utf8Len_append]
      rfl
    have hturn := turn_comment before part (a ++ (closeMark ++ b)) out
      ((congrArg (Option.elim · _ _) hmark).trans hplace)
    refine ⟨before ++ part ++ ['/', '*'] ++ a ++ closeMark, b, by simp, ?_,
      strip_comment hnot b, ?_⟩
    · rw [List.length_append, List.length_append]
      omega
    · rw [run_of_byte hslash, hturn, pure_bind]
      rfl

/-- at a backslash in a string the reader goes on by two bytes -/
theorem run_backslash (before part rest out : List Char) (q : UInt8) :
    run (before ++ (part ++ '\\' :: rest)) (standing before part (some q) out) =
      run (before ++ (part ++ '\\' :: rest)) { standing before part (some q) out with
        place := utf8Len before + utf8Len part + 2 } := by
  have hturn : (standing before part (some q) out).turn (before ++ (part ++ '\\' :: rest))
      '\\'.toUInt8 = pure { standing before part (some q) out with
        place := utf8Len before + utf8Len part + 2 } := by simp [turn, standing]
  rw [run_of_byte (byte_standing before part _ out rfl _), hturn, pure_bind]

end Stripper

/-! ## both readers -/

/-- a reader of bytes and a reader of characters at the same place between two characters -/
structure Midway where
  before : List Char
  part : List Char
  rest : List Char
  quote : Option UInt8
  mode : Mode
  out : List Char
  stands : Stripper.Stands quote mode

namespace Midway
open Stripper

def text (w : Midway) : List Char := w.before ++ (w.part ++ w.rest)

/-- where the reader of bytes stands -/
def state (w : Midway) : Stripper := standing w.before w.part w.quote w.out

/-- what is written when the reader of characters goes on from here -/
def written (w : Midway) : List Char := w.out ++ w.part ++ stripFrom w.mode w.rest

/-- further on in the same text both write the same -/
structure Goes (w w' : Midway) : Prop where
  text : w'.text = w.text
  written : w'.written = w.written
  shorter : w'.rest.length < w.rest.length
  same : (run w.text w.state >>= finish w.text) = run w.text w'.state >>= finish w.text

section
variable (before part rest out : List Char) {c : Char}

/-- a character that is let through -/
theorem goes_pass {q q' : Option UInt8} {m m' : Mode} (hm : Stands q m) (hm' : Stands q' m')
    (hout : stripFrom m (c :: rest) = c :: stripFrom m' rest)
    (hlow : c.utf8Size = 1 →
      (standing before part q out).turn (before ++ (part ++ c :: rest)) c.toUInt8 =
        pure { standing before part q out with
          place := utf8Len before + utf8Len part + 1, quote := q' })
    (hhigh : c.utf8Size ≠ 1 → q' = q) :
    Goes ⟨before, part, c :: rest, q, m, out, hm⟩
      ⟨before, part ++ [c], rest, q', m', out, hm'⟩ where
  text := by simp [Midway.text]
  written := by simp [Midway.written, hout]
  shorter := Nat.lt_succ_self _
  same := congrArg (· >>= _) (run_pass before part q out hlow fun h => ⟨hhigh h, hm.lt⟩)

/-- one turn in a string -/
theorem exists_goes_quoted {quote : Char} (hq : Scan.isQuote quote = true) :
    ∃ w', Goes ⟨before, part, c :: rest, some quote.toUInt8, .quoted quote, out, .quoted hq⟩
      w' := by
  have hone := ByteScan.utf8Size_of_isQuote hq
  by_cases hback : c = '\\'
  · subst hback
    have hskip := run_backslash before part rest out quote.toUInt8
    cases rest with
    | nil =>
      refine ⟨⟨before, part ++ ['\\'], [], _, _, out, .quoted hq⟩, ?_, ?_, Nat.zero_lt_one, ?_⟩
      · simp [text]
      · simp [written, stripFrom, passed, output, step, final]
      · have hplace : utf8Len before + utf8Len (part ++ ['\\']) + 1 =
            utf8Len before + utf8Len part + 2 := by
          rw [utf8Len_append]
          rfl
        have hbehind := finish_end before (part ++ ['\\']) (some quote.toUInt8) out (k := 1)
        have hat := finish_end before (part ++ ['\\']) (some quote.toUInt8) out (k := 0)
        rw [hplace] at hbehind
        exact (congrArg (· >>= _) hskip).trans (hbehind.trans hat.symm)
    | cons d rest =>
      refine ⟨⟨before, part ++ ['\\', d], rest, _, _, out, .quoted hq⟩, ?_, ?_, ?_, ?_⟩
      · simp [text]
      · simp [written, Scan.stripFrom_cons, output, step]
      · exact Nat.lt_succ_of_lt (Nat.lt_succ_self _)
      · have hpass := run_escaped before part _ out d rest (Stands.quoted hq).lt
        exact congrArg (· >>= _) (hskip.trans hpass)
  · by_cases hclose : c = quote
    · subst hclose
      refine ⟨_, goes_pass before part rest out (.quoted hq) .code ?_ (fun _ => ?_)
        fun h => absurd hone h⟩
      · simp [Scan.stripFrom_cons, output, step, hback]
      · have hb : c.toUInt8 ≠ '\\'.toUInt8 := fun h => hback ((toUInt8_inj hone rfl).mp h)
        exact (if_neg hb).trans (if_pos rfl)
    · refine ⟨_, goes_pass before part rest out (.quoted hq) (.quoted hq) ?_ (fun h => ?_)
        fun _ => rfl⟩
      · simp [Scan.stripFrom_cons, output, step, hback, hclose]
      · have hb : c.toUInt8 ≠ '\\'.toUInt8 := fun hc => hback ((toUInt8_inj h rfl).mp hc)
        have hcl : c.toUInt8 ≠ quote.toUInt8 := fun hc => hclose ((toUInt8_inj h hone).mp hc)
        exact (if_neg hb).trans (if_neg hcl)

/-- one turn outside strings -/
theorem exists_goes_code :
    ∃ w', Goes ⟨before, part, c :: rest, none, .code, out, .code⟩ w' := by
  by_cases hq : Scan.isQuote c = true
  · have hone := ByteScan.utf8Size_of_isQuote hq
    have hslash : c ≠ '/' := fun h => by rw [h] at hq; cases hq
    refine ⟨_, goes_pass before part rest out .code (.quoted hq) ?_ (fun _ => ?_)
      fun h => absurd hone h⟩
    · simp [Scan.stripFrom_cons, output, step, fromCode, hslash, hq]
    · have hb : c.toUInt8 = '\x22'.toUInt8 ∨ c.toUInt8 = '\x27'.toUInt8 := by
        simp only [Scan.isQuote, Bool.or_eq_true, beq_iff_eq] at hq
        exact hq.imp (congrArg _) (congrArg _)
      exact if_pos hb
  · by_cases hcomment : c = '/' ∧ rest.head? = some '*'
    · obtain ⟨rfl, hstar⟩ := hcomment
      obtain ⟨inner, rfl⟩ := List.head?_eq_some_iff.mp hstar
      obtain ⟨front, rest, hcs, hrest, hout, hrun⟩ := run_comment before part inner out
      refine ⟨⟨front, [], rest, _, _, out ++ part, .code⟩, hcs.symm, ?_, ?_, ?_⟩
      · rw [written, written, hout, List.append_nil]
      · exact Nat.lt_succ_of_le (Nat.le_succ_of_le hrest)
      · exact congrArg (· >>= _) hrun
    · refine ⟨_, goes_pass before part rest out .code .code ?_ (fun h => ?_) fun _ => rfl⟩
      · by_cases hslash : c = '/'
        · subst hslash
          exact stripFrom_slash fun h => hcomment ⟨rfl, h⟩
        · simp [Scan.stripFrom_cons, output, step, fromCode, hslash, hq]
      · have hne : ¬ (c.toUInt8 = '\x22'.toUInt8 ∨ c.toUInt8 = '\x27'.toUInt8) := by
          rw [toUInt8_inj h rfl, toUInt8_inj h rfl]
          simpa [Scan.isQuote] using hq
        refine (if_neg hne).trans (if_neg ?_)
        rintro ⟨hslash, hstar⟩
        rw [getElem?_standing, bytes_cons, bytes_of_ascii h] at hstar
        exact hcomment ⟨(toUInt8_inj h rfl).mp hslash, head?_of_byte rfl hstar⟩

end

/-- the reader of bytes writes what the reader of characters does -/
theorem finish_run (w : Midway) : (run w.text w.state >>= finish w.text) = pure w.written := by
  induction hn : w.rest.length using Nat.strongRecOn generalizing w with
  | ind n ih =>
    obtain ⟨before, part, rest, quote, mode, out, hm⟩ := w
    cases rest with
    | nil =>
      rw [text, written, hm.final, List.append_nil, List.append_nil]
      exact finish_end before part quote out (k := 0)
    | cons c rest =>
      obtain ⟨w', htext, hwritten, hshorter, hsame⟩ :
          ∃ w', Goes ⟨before, part, c :: rest, quote, mode, out, hm⟩ w' := by
        cases hm with
        | code => exact exists_goes_code before part rest out
        | quoted hq => exact exists_goes_quoted before part rest out hq
      rw [hsame, ← htext, ih _ (hn ▸ hshorter) w' rfl, hwritten]

end Midway

/-- a text that opens a comment has a slash and a star next to each other -/
theorem infix_of_opensComment {s : Scan} {cs : List Char} (h : Scan.opensComment s cs = true) :
    ['/', '*'] <:+: cs := by
  induction cs generalizing s with
  | nil => cases h
  | cons c cs ih =>
    rw [List.infix_cons_iff]
    rw [Scan.opensComment, Bool.or_eq_true] at h
    rcases h with h | h
    · simp only [Bool.and_eq_true, beq_iff_eq] at h
      obtain ⟨⟨-, rfl⟩, hstar⟩ := h
      obtain ⟨rest, rfl⟩ := List.head?_eq_some_iff.mp hstar
      exact .inl ⟨rest, rfl⟩
    · exact .inr (ih h)

theorem strip_eq (cs : List Char) : strip cs = pure (Comment.strip cs) := by
  rw [strip]
  split
  · exact Midway.finish_run ⟨[], [], cs, none, .code, [], .code⟩
  · rename_i hnone
    have hnot := not_infix_of_offset? (by decide) (Option.not_isSome_iff_eq_none.mp hnone)
    have h : Scan.opensComment Scan.start cs = false :=
      Bool.eq_false_iff.mpr fun h => hnot (infix_of_opensComment h)
    rw [Scan.strip_of_not_opensComment h]

end CssOptimizer.Utf8
