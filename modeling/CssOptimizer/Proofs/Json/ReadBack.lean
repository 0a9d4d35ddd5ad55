import CssOptimizer.Json.Reader
import CssOptimizer.Json.Writer
import CssOptimizer.Proofs.Text.Names

/-!
# Written values are read back

* `Reads r cs a rest`    the reader `r` takes the value `a` off the text `cs` and leaves `rest`;
* `reads_readString`     a string is read back from its escaped characters;
* `reads_readNumber`     so is a whole number from its digits;
* `Value.Fits`           values without doubles, with whole numbers of 64 bits, that nest less deep
                         than a bound;
* `parse_compact`        these are read back from what is written of them without blanks.
-/

namespace CssOptimizer.Json

/-! ## readers -/

def Reads {α : Type} (r : Reader α) (cs : List Char) (a : α) (rest : List Char) : Prop :=
  r cs = .ok (a, rest)

theorem Reads.bind {α β : Type} {r : Reader α} {f : α → Reader β} {cs between rest : List Char}
    {a : α} {b : β} (h : Reads r cs a between) (hf : Reads (f a) between b rest) :
    Reads (r >>= f) cs b rest := by
  show (r cs >>= fun p => f p.1 p.2) = _
  rw [show r cs = .ok (a, between) from h]
  exact hf

theorem reads_get (cs : List Char) : Reads get cs cs cs := rfl
theorem reads_peek (c : Char) (cs : List Char) : Reads peek (c :: cs) (some c) (c :: cs) := rfl
theorem reads_advance (c : Char) (cs : List Char) : Reads advance (c :: cs) () cs := rfl

theorem reads_nextVisible {c : Char} (hc : isSpace c = false) (cs : List Char) :
    Reads nextVisible (c :: cs) c (c :: cs) := by
  have hskip : Reads skipSpace (c :: cs) () (c :: cs) := by
    have hdrop : (c :: cs).dropWhile isSpace = c :: cs :=
      List.dropWhile_cons_of_neg (by rw [hc]; exact Bool.false_ne_true)
    show Except.ok ((), (c :: cs).dropWhile isSpace) = _
    rw [hdrop]
  exact hskip.bind rfl

theorem reads_readWord (word rest : List Char) : Reads (readWord word) (word ++ rest) () rest := by
  induction word with
  | nil => rfl
  | cons w word ih =>
    refine (reads_peek w (word ++ rest)).bind ((reads_advance w _).bind ?_)
    rw [if_pos rfl]
    exact ih

/-! ## strings -/

theorem reads_readHexCode {n : Nat} (h : n < 0x20) (rest : List Char) :
    Reads readHexCode ('0' :: '0' :: Nat.digitChar (n / 16) :: Nat.digitChar (n % 16) :: rest) n
      rest := by
  have hcode : ∀ n < 0x20,
      hexCode? ['0', '0', Nat.digitChar (n / 16), Nat.digitChar (n % 16)] = some n := by decide
  refine (reads_get _).bind ?_
  simp only [List.take_succ_cons, List.take_zero, hcode n h]
  rfl

/-- the escape of a control character -/
theorem reads_readUnicode {c : Char} (h : c.toNat < 0x20) (rest : List Char) :
    Reads readUnicode
      ('0' :: '0' :: Nat.digitChar (c.toNat / 16) :: Nat.digitChar (c.toNat % 16) :: rest) c
      rest := by
  refine (reads_readHexCode h rest).bind ?_
  rw [if_neg (by omega), if_neg (by omega), Char.ofNat_toNat]
  rfl

theorem escape_of_isPlain {c : Char} (h : isPlain c = true) : escape c = [c] := by
  simp only [isPlain, Bool.and_eq_true, bne_iff_ne, ne_eq, decide_eq_true_eq] at h
  have hne {d : Char} (hd : d.val < 0x20) : c ≠ d := by
    rintro rfl
    exact absurd hd (UInt32.not_lt.mpr h.2)
  rw [escape, if_neg h.1.1, if_neg h.1.2, if_neg (hne (by decide)), if_neg (hne (by decide)),
    if_neg (hne (by decide)), if_neg (hne (by decide)), if_neg (hne (by decide)),
    if_neg (UInt32.not_lt.mpr h.2)]

/-- what stands behind a backslash is read as the character that was escaped -/
theorem exists_escape {c : Char} (h : isPlain c = false) :
    ∃ tail, escape c = '\\' :: tail ∧ ∀ rest, Reads readEscape (tail ++ rest) c rest := by
  by_cases hcontrol : c.val < 0x20
  · by_cases hb : c = '\x08'
    · subst hb
      exact ⟨_, rfl, fun _ => rfl⟩
    by_cases ht : c = '\t'
    · subst ht
      exact ⟨_, rfl, fun _ => rfl⟩
    by_cases hn : c = '\n'
    · subst hn
      exact ⟨_, rfl, fun _ => rfl⟩
    by_cases hf : c = '\x0c'
    · subst hf
      exact ⟨_, rfl, fun _ => rfl⟩
    by_cases hr : c = '\r'
    · subst hr
      exact ⟨_, rfl, fun _ => rfl⟩
    have hne {d : Char} (hd : 0x20 ≤ d.val) : c ≠ d := by
      rintro rfl
      exact absurd hcontrol (UInt32.not_lt.mpr hd)
    rw [escape, if_neg (hne (by decide)), if_neg (hne (by decide)), if_neg hb, if_neg ht,
      if_neg hn, if_neg hf, if_neg hr, if_pos hcontrol]
    refine ⟨_, rfl, fun rest => ?_⟩
    have hu : Reads readEscape ('u' :: _) c rest :=
      (reads_peek 'u' _).bind ((reads_advance 'u' _).bind (reads_readUnicode hcontrol rest))
    exact hu
  · by_cases hquote : c = '\x22'
    · subst hquote
      exact ⟨_, rfl, fun _ => rfl⟩
    by_cases hslash : c = '\\'
    · subst hslash
      exact ⟨_, rfl, fun _ => rfl⟩
    rw [isPlain, bne_iff_ne.mpr hquote, bne_iff_ne.mpr hslash,
      decide_eq_true (UInt32.not_lt.mp hcontrol)] at h
    exact absurd h (by decide)

theorem flatMap_escape_of_isPlain {cs : List Char} (h : ∀ c ∈ cs, isPlain c = true) :
    cs.flatMap escape = cs := by
  induction cs with
  | nil => rfl
  | cons c cs ih =>
    obtain ⟨hc, hcs⟩ := List.forall_mem_cons.mp h
    rw [List.flatMap_cons, escape_of_isPlain hc, ih hcs]
    rfl

theorem length_le_flatMap_escape (cs : List Char) : cs.length ≤ (cs.flatMap escape).length := by
  have hone (c : Char) : 1 ≤ (escape c).length := by
    cases h : isPlain c with
    | true =>
      rw [escape_of_isPlain h]
      exact Nat.le_refl 1
    | false =>
      obtain ⟨tail, he, -⟩ := exists_escape h
      rw [he, List.length_cons]
      omega
  induction cs with
  | nil => exact Nat.le_refl 0
  | cons c cs ih =>
    have hc := hone c
    rw [List.flatMap_cons, List.length_append, List.length_cons]
    omega

/-- one step of reading a string: plain characters up to the next quote or escape -/
theorem reads_readChars_step {fuel : Nat} {plain : List Char}
    (hplain : ∀ c ∈ plain, isPlain c = true) {x : Char} (hx : isPlain x = false)
    {behind value rest : List Char}
    (h : Reads (if x = '\x22' then pure plain
      else if x = '\\' then do
        let c ← readEscape
        return plain ++ c :: (← readChars fuel)
      else throw .malformed) behind value rest) :
    Reads (readChars (fuel + 1)) (plain ++ x :: behind) value rest := by
  have hnot : ¬ isPlain x = true := by
    rw [hx]
    exact Bool.false_ne_true
  have htake : (plain ++ x :: behind).takeWhile isPlain = plain := by
    rw [List.takeWhile_append_of_pos hplain, List.takeWhile_cons_of_neg hnot, List.append_nil]
  have hdrop : (plain ++ x :: behind).dropWhile isPlain = x :: behind := by
    rw [List.dropWhile_append_of_pos hplain, List.dropWhile_cons_of_neg hnot]
  refine (reads_get _).bind ?_
  simp only [htake, hdrop]
  exact h

theorem reads_readChars (rest : List Char) {fuel : Nat} {cs : List Char} (h : cs.length < fuel) :
    Reads (readChars fuel) (cs.flatMap escape ++ '\x22' :: rest) cs rest := by
  induction fuel generalizing cs with
  | zero => exact absurd h (Nat.not_lt_zero _)
  | succ fuel ih =>
    have hplain : ∀ c ∈ cs.takeWhile isPlain, isPlain c = true :=
      fun c hc => List.all_eq_true.mp List.all_takeWhile c hc
    have hcs : cs.takeWhile isPlain ++ cs.dropWhile isPlain = cs :=
      List.takeWhile_append_dropWhile
    cases hmore : cs.dropWhile isPlain with
    | nil =>
      rw [hmore, List.append_nil] at hcs
      rw [hcs] at hplain
      rw [flatMap_escape_of_isPlain hplain]
      exact reads_readChars_step hplain (by decide) rfl
    | cons c more =>
      have hc : isPlain c = false := by
        have hhead := List.head?_dropWhile_not isPlain cs
        rw [hmore] at hhead
        exact hhead
      obtain ⟨tail, he, hread⟩ := exists_escape hc
      generalize cs.takeWhile isPlain = plain at hplain hcs
      rw [hmore] at hcs
      subst hcs
      have hless : more.length < fuel := by
        rw [List.length_append, List.length_cons] at h
        omega
      have htext : (plain ++ c :: more).flatMap escape ++ '\x22' :: rest =
          plain ++ '\\' :: (tail ++ (more.flatMap escape ++ '\x22' :: rest)) := by
        rw [List.flatMap_append, flatMap_escape_of_isPlain hplain, List.flatMap_cons, he]
        simp
      rw [htext]
      exact reads_readChars_step hplain (by decide) ((hread _).bind ((ih hless).bind rfl))

theorem reads_readString (s : String) (rest : List Char) :
    Reads readString (s.toList.flatMap escape ++ '\x22' :: rest) s rest := by
  refine (reads_get _).bind ?_
  have hlength := length_le_flatMap_escape s.toList
  have hchars : s.toList.length < (s.toList.flatMap escape ++ '\x22' :: rest).length + 1 := by
    rw [List.length_append]
    omega
  refine (reads_readChars rest hchars).bind ?_
  rw [String.ofList_toList]
  rfl

/-! ## numbers -/

/-- what may stand behind a whole number -/
def EndsNumber (cs : List Char) : Prop :=
  ∀ c ∈ cs.head?, (digit? c).isSome = false ∧ c ≠ '.' ∧ c ≠ 'e' ∧ c ≠ 'E'

theorem endsNumber_nil : EndsNumber [] := fun _ h => absurd h (Option.not_mem_none _)

theorem endsNumber_cons {c : Char}
    (h : (digit? c).isSome = false ∧ c ≠ '.' ∧ c ≠ 'e' ∧ c ≠ 'E') (cs : List Char) :
    EndsNumber (c :: cs) := by
  intro d hd
  rw [List.head?_cons, Option.mem_some_iff] at hd
  rwa [← hd]

theorem digit?_of_isDigit {c : Char} (h : c.isDigit = true) :
    digit? c = some (c.toNat - '0'.toNat) := by
  have hrange : '0' ≤ c ∧ c ≤ '9' := by
    simp only [Char.isDigit, Bool.and_eq_true, decide_eq_true_eq] at h
    exact h
  rw [digit?, if_pos hrange]

theorem takeDigits_append {limit : Nat} {ds rest : List Char} (hd : ∀ c ∈ ds, c.isDigit = true)
    (hrest : EndsNumber rest) {value : Nat} (h : Nat.ofDigitChars 10 ds value ≤ limit)
    (count : Nat) :
    takeDigits limit value count (ds ++ rest) =
      (Nat.ofDigitChars 10 ds value, count + ds.length, rest) := by
  induction ds generalizing value count with
  | nil =>
    cases rest with
    | nil => rfl
    | cons c rest =>
      have hc : digit? c = none := Option.not_isSome_iff_eq_none.mp (by
        rw [(hrest c rfl).1]
        exact Bool.false_ne_true)
      rw [List.nil_append, takeDigits, hc, Nat.ofDigitChars_nil]
      rfl
  | cons c ds ih =>
    obtain ⟨hc, hds⟩ := List.forall_mem_cons.mp hd
    rw [Nat.ofDigitChars_cons] at h
    have hle : 10 * value + (c.toNat - '0'.toNat) ≤ limit := by
      rw [Nat.ofDigitChars_eq_ofDigitChars_zero] at h
      have hpos : 1 ≤ 10 ^ ds.length := Nat.pow_pos (by decide)
      have := Nat.le_mul_of_pos_left (10 * value + (c.toNat - '0'.toNat)) hpos
      omega
    rw [List.cons_append, takeDigits, digit?_of_isDigit hc]
    simp only [if_pos hle, ih hds h, Nat.ofDigitChars_cons, List.length_cons]
    rw [Nat.add_assoc, Nat.add_comm 1]

theorem head_toDigits_ne_zero (n : Nat) : 0 < n → (Nat.toDigits 10 n).head? ≠ some '0' := by
  induction n using Nat.strongRecOn with
  | _ n ih =>
    intro hn
    rw [Nat.toDigits_eq_if (by decide)]
    split
    · rename_i hlt
      rw [List.head?_cons, ne_eq, Option.some.injEq, Nat.digitChar_eq_zero]
      omega
    · rename_i hge
      have hhead := ih (n / 10) (by omega) (by omega)
      obtain ⟨c, cs, hcs⟩ :=
        List.exists_cons_of_ne_nil (Nat.toDigits_ne_nil (n := n / 10) (b := 10))
      rw [hcs] at hhead ⊢
      exact hhead

section
variable {rest : List Char} (h : EndsNumber rest)
include h

theorem reads_atDigit : Reads atDigit rest false rest := by
  cases rest with
  | nil => rfl
  | cons c rest =>
    have hc := (h c rfl).1
    show Except.ok ((digit? c).isSome, _) = _
    rw [hc]

theorem reads_finish (negative : Bool) {value : Nat} {number : Number}
    (hn : Reads (if !negative then pure (.whole value)
      else if value = 0 ∨ 0x8000000000000000 < value then
        pure (.double (-value.toUInt64.toFloat))
      else pure (.whole (-value))) rest number rest) :
    Reads (readNumber.finish negative value) rest number rest := by
  cases rest with
  | nil => exact hn
  | cons c rest =>
    obtain ⟨-, hdot, he, hE⟩ := h c rfl
    refine (reads_peek c rest).bind ?_
    split
    · rename_i hc
      exact absurd (Option.some.inj hc) hdot
    · rename_i hc
      exact absurd (Option.some.inj hc) he
    · rename_i hc
      exact absurd (Option.some.inj hc) hE
    · exact hn

theorem reads_readNumber (negative : Bool) {m : Nat} (hm : m ≤ maxWhole) {number : Number}
    (hn : Reads (if !negative then pure (.whole m)
      else if m = 0 ∨ 0x8000000000000000 < m then pure (.double (-m.toUInt64.toFloat))
      else pure (.whole (-m))) rest number rest) :
    Reads (readNumber negative) (Nat.toDigits 10 m ++ rest) number rest := by
  rcases Nat.eq_zero_or_pos m with rfl | hpos
  · rw [Nat.toDigits_zero]
    exact (reads_peek '0' rest).bind ((reads_advance '0' rest).bind
      ((reads_atDigit h).bind (reads_finish h negative hn)))
  · have hdigits : ∀ c ∈ Nat.toDigits 10 m, c.isDigit = true := fun c hc =>
      Nat.isDigit_of_mem_toDigits (by decide) (by decide) hc
    have hle : Nat.ofDigitChars 10 (Nat.toDigits 10 m) 0 ≤ maxWhole := by
      rwa [Nat.ofDigitChars_ten_toDigits]
    have htake := takeDigits_append hdigits h hle 0
    have hzero := head_toDigits_ne_zero m hpos
    rw [Nat.ofDigitChars_ten_toDigits] at htake
    obtain ⟨c, cs, hcs⟩ := List.exists_cons_of_ne_nil (Nat.toDigits_ne_nil (n := m) (b := 10))
    rw [hcs] at htake hzero hdigits ⊢
    refine (reads_peek c _).bind ?_
    split
    · rename_i hc
      exact absurd hc (by simp)
    · rename_i hc
      exact absurd hc hzero
    · have hdigit : Reads atDigit (c :: (cs ++ rest)) true (c :: (cs ++ rest)) := by
        show Except.ok ((digit? c).isSome, _) = _
        rw [digit?_of_isDigit (hdigits c List.mem_cons_self)]
        rfl
      have hset : Reads (set rest) (c :: (cs ++ rest)) () rest := rfl
      refine hdigit.bind ((reads_get _).bind ?_)
      rw [← List.cons_append, htake]
      exact hset.bind ((reads_atDigit h).bind (reads_finish h negative hn))

end

/-! ## values -/

def Number.Fits : Number → Prop
  | .whole n => -0x8000000000000000 ≤ n ∧ n ≤ maxWhole
  | .double _ => False

/-- values without doubles whose arrays and objects nest less deep than a bound -/
def Value.Fits : Nat → Value → Prop
  | _, .null => True
  | _, .bool _ => True
  | _, .number n => n.Fits
  | _, .string _ => True
  | 0, .array _ => False
  | 0, .object _ => False
  | depth + 1, .array items => ∀ v ∈ items, v.Fits depth
  | depth + 1, .object fields => ∀ field ∈ fields, field.2.Fits depth

theorem toList_quote (s : String) :
    (quote s).toList = '\x22' :: (s.toList.flatMap escape ++ ['\x22']) := String.toList_ofList

theorem endsNumber_bracket (cs : List Char) : EndsNumber (']' :: cs) :=
  endsNumber_cons (by decide) cs

theorem endsNumber_brace (cs : List Char) : EndsNumber ('\x7d' :: cs) :=
  endsNumber_cons (by decide) cs

/-- a character that starts a scalar -/
def StartsScalar (c : Char) : Prop := isSpace c = false ∧ c ≠ '[' ∧ c ≠ '\x7b' ∧ c ≠ ']'

instance (c : Char) : Decidable (StartsScalar c) := inferInstanceAs (Decidable (_ ∧ _))

theorem reads_readValue_scalar (depth : Nat) {c : Char} (hc : StartsScalar c) {cs rest : List Char}
    {v : Value} (h : Reads (readScalar c) (c :: cs) v rest) :
    Reads (readValue depth) (c :: cs) v rest := by
  obtain ⟨hspace, hbracket, hbrace, -⟩ := hc
  cases depth with
  | zero =>
    refine (reads_nextVisible hspace cs).bind ?_
    rw [if_neg (not_or.mpr ⟨hbracket, hbrace⟩)]
    exact h
  | succ depth =>
    refine (reads_nextVisible hspace cs).bind ?_
    rw [if_neg hbracket, if_neg hbrace]
    exact h

/-- a value is read back from what is written of it, which starts like a value -/
structure ReadsBack (r : Reader Value) (v : Value) : Prop where
  opens : ∃ c cs, (compact v).toList = c :: cs ∧ isSpace c = false ∧ c ≠ ']'
  reads : ∀ rest, EndsNumber rest → Reads r ((compact v).toList ++ rest) v rest

theorem readsBack_scalar (depth : Nat) {v : Value} {c : Char} {cs : List Char}
    (hchars : (compact v).toList = c :: cs) (hc : StartsScalar c)
    (h : ∀ rest, EndsNumber rest → Reads (readScalar c) (c :: (cs ++ rest)) v rest) :
    ReadsBack (readValue depth) v := by
  refine ⟨⟨c, cs, hchars, hc.1, hc.2.2.2⟩, fun rest hrest => ?_⟩
  rw [hchars]
  exact reads_readValue_scalar depth hc (h rest hrest)

theorem startsScalar_of_isDigit {c : Char} (h : c.isDigit = true) : StartsScalar c := by
  have hne {d : Char} (hd : d.isDigit = false) : c ≠ d := Text.ne_of_isDigit h hd
  have hspace : isSpace c = false := by
    rw [isSpace, beq_eq_false_iff_ne.mpr (hne rfl), beq_eq_false_iff_ne.mpr (hne rfl),
      beq_eq_false_iff_ne.mpr (hne rfl), beq_eq_false_iff_ne.mpr (hne rfl)]
    rfl
  exact ⟨hspace, hne rfl, hne rfl, hne rfl⟩

theorem readsBack_number (depth : Nat) {n : Int} (h : (Number.whole n).Fits) :
    ReadsBack (readValue depth) (.number (.whole n)) := by
  have htext : (compact (.number (.whole n))).toList = n.repr.toList := rfl
  obtain ⟨hlow, hhigh⟩ := h
  rw [Int.repr_eq_if] at htext
  split at htext
  · rename_i hn
    obtain ⟨m, rfl⟩ := Int.eq_ofNat_of_zero_le hn
    rw [Nat.toList_repr, Int.toNat_natCast] at htext
    obtain ⟨c, cs, hcs⟩ := List.exists_cons_of_ne_nil (Nat.toDigits_ne_nil (n := m) (b := 10))
    have hdigit : c.isDigit = true := Nat.isDigit_of_mem_toDigits (b := 10) (n := m) (by decide)
      (by decide) (hcs ▸ List.mem_cons_self)
    refine readsBack_scalar depth (htext.trans hcs) (startsScalar_of_isDigit hdigit) ?_
    intro rest hrest
    have hne {d : Char} (hd : d.isDigit = false) : c ≠ d := Text.ne_of_isDigit hdigit hd
    rw [readScalar, if_neg (hne rfl), if_neg (hne rfl), if_neg (hne rfl), if_neg (hne rfl),
      if_neg (hne rfl), digit?_of_isDigit hdigit, ← List.cons_append, ← hcs]
    exact (reads_readNumber hrest false (Int.ofNat_le.mp hhigh) rfl).bind rfl
  · rename_i hn
    obtain ⟨m, hm⟩ := Int.eq_ofNat_of_zero_le (a := -n) (by omega)
    rw [String.toList_append, Nat.toList_repr, hm, Int.toNat_natCast] at htext
    refine readsBack_scalar depth htext (by decide) ?_
    intro rest hrest
    have hvalue : n = -(m : Int) := by omega
    have hnot : ¬(m = 0 ∨ 0x8000000000000000 < m) := by omega
    have hmax : m ≤ maxWhole := by
      rw [maxWhole]
      omega
    refine (reads_advance '-' _).bind ((reads_readNumber hrest true hmax ?_).bind rfl)
    rw [hvalue, if_neg (by decide), if_neg hnot]
    rfl

/-! ## arrays and objects -/

/-- items or fields behind the first one, each with a comma before it -/
def behindComma {α : Type} (text : α → List Char) (parts : List α) : List Char :=
  parts.flatMap fun a => ',' :: text a

theorem endsNumber_behindComma {α : Type} (text : α → List Char) (parts : List α)
    {closed : List Char} (hc : EndsNumber closed) :
    EndsNumber (behindComma text parts ++ closed) := by
  cases parts with
  | nil => exact hc
  | cons a parts => exact endsNumber_cons (by decide) _

theorem length_le_behindComma {α : Type} (text : α → List Char) (parts : List α) :
    parts.length ≤ (behindComma text parts).length := by
  induction parts with
  | nil => exact Nat.le_refl 0
  | cons a parts ih =>
    rw [behindComma, List.flatMap_cons, List.length_append, List.length_cons, List.length_cons]
    rw [behindComma] at ih
    omega

def itemText (v : Value) : List Char := (compact v).toList

def fieldText (field : String × Value) : List Char :=
  (quote field.1).toList ++ ':' :: (compact field.2).toList

theorem toList_compactItems (v : Value) (items : List Value) :
    (compactItems (v :: items)).toList = itemText v ++ behindComma itemText items := by
  induction items generalizing v with
  | nil => exact (List.append_nil _).symm
  | cons w items ih =>
    rw [compactItems, String.toList_append, String.toList_append, ih, List.append_assoc]
    rfl

theorem toList_compactFields (field : String × Value) (fields : List (String × Value)) :
    (compactFields (field :: fields)).toList =
      fieldText field ++ behindComma fieldText fields := by
  induction fields generalizing field with
  | nil =>
    rw [compactFields, String.toList_append, String.toList_append, List.append_assoc]
    exact (List.append_nil _).symm
  | cons next fields ih =>
    rw [compactFields, String.toList_append, String.toList_append, String.toList_append,
      String.toList_append, ih, fieldText]
    simp [behindComma, fieldText]

section
variable {item : Reader Value}

theorem reads_readItemsFrom {items : List Value} (h : ∀ v ∈ items, ReadsBack item v)
    (rest : List Char) {fuel : Nat} (hf : items.length < fuel) :
    Reads (readItemsFrom item false fuel) (behindComma itemText items ++ ']' :: rest) items
      rest := by
  induction items generalizing fuel with
  | nil =>
    cases fuel with
    | zero => exact absurd hf (Nat.not_lt_zero _)
    | succ fuel => rfl
  | cons v items ih =>
    obtain ⟨hv, hitems⟩ := List.forall_mem_cons.mp h
    cases fuel with
    | zero => exact absurd hf (Nat.not_lt_zero _)
    | succ fuel =>
      have hrest := ih hitems (Nat.lt_of_succ_lt_succ hf)
      have hread := hv.reads _ (endsNumber_behindComma itemText items (endsNumber_bracket rest))
      obtain ⟨c, cs, hopens, hspace, hc⟩ := hv.opens
      rw [hopens, List.cons_append] at hread
      rw [readItemsFrom, behindComma, List.flatMap_cons, List.append_assoc, List.cons_append,
        itemText, hopens, List.cons_append]
      refine (reads_nextVisible (by decide) _).bind ?_
      refine (reads_advance ',' _).bind ((reads_nextVisible hspace _).bind ?_)
      rw [if_neg hc]
      exact hread.bind (hrest.bind rfl)

theorem reads_readItems {items : List Value} (h : ∀ v ∈ items, ReadsBack item v)
    (rest : List Char) :
    Reads (readItems item) ((compactItems items).toList ++ ']' :: rest) items rest := by
  refine (reads_get _).bind ?_
  cases items with
  | nil => rfl
  | cons v items =>
    obtain ⟨hv, hitems⟩ := List.forall_mem_cons.mp h
    have hread := hv.reads _ (endsNumber_behindComma itemText items (endsNumber_bracket rest))
    have hlength := length_le_behindComma itemText items
    obtain ⟨c, cs, hopens, hspace, hc⟩ := hv.opens
    rw [toList_compactItems, itemText, List.append_assoc]
    have hfuel : items.length < ((compact v).toList ++
        (behindComma itemText items ++ ']' :: rest)).length := by
      rw [List.length_append, List.length_append, List.length_cons]
      omega
    have hrest := reads_readItemsFrom hitems rest hfuel
    rw [hopens, List.cons_append] at hread hrest ⊢
    rw [readItemsFrom]
    refine (reads_nextVisible hspace _).bind ?_
    rw [if_neg hc]
    exact hread.bind (hrest.bind rfl)

/-- a key with its value behind the opening quote of the key -/
theorem reads_field {field : String × Value} (h : ReadsBack item field.2) {rest : List Char}
    (hrest : EndsNumber rest) :
    Reads readString (field.1.toList.flatMap escape ++
        '\x22' :: (':' :: ((compact field.2).toList ++ rest))) field.1
        (':' :: ((compact field.2).toList ++ rest)) ∧
      Reads (do readColon; item) (':' :: ((compact field.2).toList ++ rest)) field.2 rest :=
  ⟨reads_readString _ _, Reads.bind (a := ()) rfl (h.reads rest hrest)⟩

theorem fieldText_append (field : String × Value) (rest : List Char) :
    fieldText field ++ rest = '\x22' :: (field.1.toList.flatMap escape ++
      '\x22' :: (':' :: ((compact field.2).toList ++ rest))) := by
  rw [fieldText, toList_quote]
  simp

theorem reads_readFieldsFrom {fields : List (String × Value)}
    (h : ∀ field ∈ fields, ReadsBack item field.2) (rest : List Char) {fuel : Nat}
    (hf : fields.length < fuel) :
    Reads (readFieldsFrom (fun _ => do readColon; item) false fuel)
      (behindComma fieldText fields ++ '\x7d' :: rest) fields rest := by
  induction fields generalizing fuel with
  | nil =>
    cases fuel with
    | zero => exact absurd hf (Nat.not_lt_zero _)
    | succ fuel => rfl
  | cons field fields ih =>
    obtain ⟨hfield, hfields⟩ := List.forall_mem_cons.mp h
    cases fuel with
    | zero => exact absurd hf (Nat.not_lt_zero _)
    | succ fuel =>
      have hrest := ih hfields (Nat.lt_of_succ_lt_succ hf)
      obtain ⟨hname, hvalue⟩ := reads_field hfield
        (endsNumber_behindComma fieldText fields (endsNumber_brace rest))
      have hkey (cs : List Char) : Reads (nextKey false) (',' :: '\x22' :: cs) true cs := rfl
      rw [readFieldsFrom, behindComma, List.flatMap_cons, List.append_assoc, List.cons_append,
        fieldText_append]
      exact (hkey _).bind (hname.bind (hvalue.bind (hrest.bind rfl)))

theorem reads_readFields {fields : List (String × Value)}
    (h : ∀ field ∈ fields, ReadsBack item field.2) (rest : List Char) :
    Reads (readFields fun _ => do readColon; item) ((compactFields fields).toList ++ '\x7d' :: rest)
      fields rest := by
  refine (reads_get _).bind ?_
  cases fields with
  | nil => rfl
  | cons field fields =>
    obtain ⟨hfield, hfields⟩ := List.forall_mem_cons.mp h
    obtain ⟨hname, hvalue⟩ := reads_field hfield
      (endsNumber_behindComma fieldText fields (endsNumber_brace rest))
    have hlength := length_le_behindComma fieldText fields
    have hkey (cs : List Char) : Reads (nextKey true) ('\x22' :: cs) true cs := rfl
    rw [toList_compactFields, List.append_assoc]
    have hfuel : fields.length < (fieldText field ++
        (behindComma fieldText fields ++ '\x7d' :: rest)).length := by
      rw [List.length_append, List.length_append, List.length_cons]
      omega
    have hrest := reads_readFieldsFrom hfields rest hfuel
    rw [fieldText_append] at hrest ⊢
    rw [readFieldsFrom]
    exact (hkey _).bind (hname.bind (hvalue.bind (hrest.bind rfl)))

end

/-! ## all values -/

/-- values without parts -/
theorem readsBack_leaf {v : Value} (h : v.Fits 0) (depth : Nat) :
    ReadsBack (readValue depth) v := by
  cases v with
  | null =>
    have htext : (compact .null).toList = 'n' :: "ull".toList := rfl
    exact readsBack_scalar depth htext (by decide) fun rest _ =>
      (reads_readWord "null".toList rest).bind rfl
  | bool value =>
    cases value with
    | true =>
      have htext : (compact (.bool true)).toList = 't' :: "rue".toList := rfl
      exact readsBack_scalar depth htext (by decide) fun rest _ =>
        (reads_readWord "true".toList rest).bind rfl
    | false =>
      have htext : (compact (.bool false)).toList = 'f' :: "alse".toList := rfl
      exact readsBack_scalar depth htext (by decide) fun rest _ =>
        (reads_readWord "false".toList rest).bind rfl
  | number n =>
    cases n with
    | whole n => exact readsBack_number depth h
    | double x => exact absurd h id
  | string s =>
    refine readsBack_scalar depth (toList_quote s) (by decide) fun rest _ => ?_
    rw [List.append_assoc]
    exact (reads_advance '\x22' _).bind ((reads_readString s rest).bind rfl)
  | array items => exact absurd h id
  | object fields => exact absurd h id

theorem readsBack_of_fits {depth : Nat} {v : Value} (h : v.Fits depth) :
    ReadsBack (readValue depth) v := by
  induction depth generalizing v with
  | zero => exact readsBack_leaf h 0
  | succ depth ih =>
    cases v with
    | null => exact readsBack_leaf (v := .null) h _
    | bool value => exact readsBack_leaf (v := .bool value) h _
    | number n => exact readsBack_leaf (v := .number n) h _
    | string s => exact readsBack_leaf (v := .string s) h _
    | array items =>
      have htext : (compact (.array items)).toList =
          '[' :: ((compactItems items).toList ++ [']']) := by
        rw [compact, String.toList_append, String.toList_append]
        rfl
      refine ⟨⟨'[', _, htext, by decide, by decide⟩, fun rest _ => ?_⟩
      rw [htext, List.cons_append, List.append_assoc]
      exact (reads_nextVisible (by decide) _).bind ((reads_advance '[' _).bind
        ((reads_readItems (fun v hv => ih (h v hv)) rest).bind rfl))
    | object fields =>
      have htext : (compact (.object fields)).toList =
          '\x7b' :: ((compactFields fields).toList ++ ['\x7d']) := by
        rw [compact, String.toList_append, String.toList_append]
        rfl
      refine ⟨⟨'\x7b', _, htext, by decide, by decide⟩, fun rest _ => ?_⟩
      rw [htext, List.cons_append, List.append_assoc]
      exact (reads_nextVisible (by decide) _).bind ((reads_advance '\x7b' _).bind
        ((reads_readFields (fun field hf => ih (h field hf)) rest).bind rfl))

theorem parse_compact {v : Value} (h : v.Fits maxDepth) : parse (compact v) = .ok v := by
  have hread := (readsBack_of_fits h).reads [] endsNumber_nil
  rw [List.append_nil] at hread
  show (readValue maxDepth (compact v).toList >>= _) = _
  rw [show readValue maxDepth (compact v).toList = .ok (v, []) from hread]
  rfl

end CssOptimizer.Json
