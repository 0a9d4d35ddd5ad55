import CssOptimizer.Text.Blank
import CssOptimizer.Text.Classes

/-!
# Names in texts

* `isName_of_isBlank`       no blank is a character of a name;
* `leadingName_append`      a name is read up to the first character that no name has;
* `isName_of_isAsciiName`   the characters that names have in every language of the web;
* `toString_inj`            numbers are told apart by their digits;
* `lowerAscii_lowerAscii`   lower case stays as it is.
-/

namespace CssOptimizer.Text

/-! ## blanks -/

/-- the blanks from U+0080 on -/
def blankRanges : List (Nat × Nat) :=
  [(0x85, 0x85), (0xA0, 0xA0), (0x1680, 0x1680), (0x2000, 0x200A), (0x2028, 0x2029),
    (0x202F, 0x202F), (0x205F, 0x205F), (0x3000, 0x3000)]

theorem isBlank_cases {c : Char} (h : isBlank c = true) :
    c.toNat = 0x20 ∨ c.toNat ∈ List.range' 0x9 5 ∨ inRanges blankRanges c.toNat = true := by
  have hval : c.toNat = c.val.toNat := rfl
  have hspace : c = ' ' ↔ c.toNat = 0x20 := by
    rw [← Char.toNat_inj]
    rfl
  simp only [isBlank, Bool.or_eq_true, Bool.and_eq_true, beq_iff_eq, decide_eq_true_eq,
    UInt32.le_iff_toNat_le, ← UInt32.toNat_inj, hspace, UInt32.reduceToNat, ← hval] at h
  simp only [inRanges, blankRanges, List.any_cons, List.any_nil, List.mem_range'_1,
    Bool.or_eq_true, Bool.and_eq_true, decide_eq_true_eq, Bool.false_eq_true, or_false]
  rcases h with (((((((((h | h) | h) | h) | h) | h) | h) | h) | h) | h) | h <;> omega

/-- no range of one list meets a range of the other -/
def apart (rs ss : List (Nat × Nat)) : Bool :=
  rs.all fun r => ss.all fun s => r.2 < s.1 || s.2 < r.1

theorem inRanges_of_apart {rs ss : List (Nat × Nat)} (h : apart rs ss = true) {n : Nat}
    (hn : inRanges rs n = true) : inRanges ss n = false := by
  obtain ⟨r, hr, hrn⟩ := List.any_eq_true.mp hn
  rw [inRanges, List.any_eq_false]
  intro s hs hsn
  have hrs := List.all_eq_true.mp (List.all_eq_true.mp h r hr) s hs
  simp only [Bool.or_eq_true, Bool.and_eq_true, decide_eq_true_eq] at hrn hsn hrs
  omega

theorem isName_of_isBlank {c : Char} (h : isBlank c = true) : isName c = false := by
  have hofNat : Char.ofNat c.toNat = c := Char.ofNat_toNat c
  rcases isBlank_cases h with h | h | h
  · rw [← hofNat, h]
    decide
  · rw [← hofNat]
    exact (by decide : ∀ n ∈ List.range' 0x9 5, isName (Char.ofNat n) = false) _ h
  · have halphabetic := inRanges_of_apart (by decide +kernel : apart _ alphabetic = true) h
    have hmark := inRanges_of_apart (by decide +kernel : apart _ mark = true) h
    have hdigit := inRanges_of_apart (by decide +kernel : apart _ decimalDigit = true) h
    have hconnector := inRanges_of_apart (by decide +kernel : apart _ connector = true) h
    have hascii := inRanges_of_apart (by decide : apart _ [(0, 0x7F)] = true) h
    have hlarge : 0x7F < c.val.toNat := by simpa [inRanges] using hascii
    have hsmall : ¬ c.val < 0x80 := by
      have hbound : (0x80 : UInt32).toNat = 128 := rfl
      rw [UInt32.lt_iff_toNat_lt]
      omega
    have hhyphen : (c == '-') = false := by
      rw [beq_eq_false_iff_ne]
      rintro rfl
      exact absurd hlarge (by decide)
    rw [isName, isWord, if_neg hsmall, halphabetic, hmark, hdigit, hconnector, hhyphen]
    rfl

theorem isBlank_of_isName {c : Char} (h : isName c = true) : isBlank c = false := by
  rw [Bool.eq_false_iff]
  intro hb
  rw [isName_of_isBlank hb] at h
  exact Bool.false_ne_true h

/-! ## leading names -/

/-- a text that no name can go on into -/
def EndsNames (cs : List Char) : Prop := ∀ c ∈ cs.head?, isName c = false

theorem endsNames_nil : EndsNames [] := by
  intro c hc
  simp at hc

theorem endsNames_cons {c : Char} (hc : isName c = false) (cs : List Char) :
    EndsNames (c :: cs) := by
  intro d hd
  rw [List.head?_cons, Option.mem_some_iff] at hd
  rw [← hd]
  exact hc

theorem leadingName_append {name rest : List Char} (hn : ∀ c ∈ name, isName c = true)
    (hr : EndsNames rest) : leadingName (name ++ rest) = name := by
  have hrest : leadingName rest = [] := by
    cases rest with
    | nil => rfl
    | cons c rest =>
      have hc : isName c = false := hr c rfl
      rw [leadingName, List.takeWhile_cons, hc]
      rfl
  rw [leadingName, List.takeWhile_append_of_pos hn]
  exact (congrArg (name ++ ·) hrest).trans (List.append_nil name)

theorem isName_of_mem_leadingName {c : Char} {cs : List Char} (h : c ∈ leadingName cs) :
    isName c = true := List.all_eq_true.mp List.all_takeWhile c h

/-! ## ASCII -/

/-- ASCII letters and digits, the underscore and the hyphen -/
def isAsciiName (c : Char) : Bool := c.isAlphanum || c == '_' || c == '-'

theorem val_lt_of_isAlphanum {c : Char} (h : c.isAlphanum = true) : c.val < 0x80 := by
  have hranges : ((decide (c.val ≥ 'A'.val ∧ c.val ≤ 'Z'.val) ||
      decide (c.val ≥ 'a'.val) && decide (c.val ≤ 'z'.val)) ||
      decide (c.val ≥ '0'.val) && decide (c.val ≤ '9'.val)) = true := h
  simp only [Bool.or_eq_true, Bool.and_eq_true, decide_eq_true_eq, ge_iff_le,
    UInt32.le_iff_toNat_le] at hranges
  have hZ : 'Z'.val.toNat = 90 := rfl
  have hz : 'z'.val.toNat = 122 := rfl
  have h9 : '9'.val.toNat = 57 := rfl
  have hbound : (0x80 : UInt32).toNat = 128 := rfl
  rw [UInt32.lt_iff_toNat_lt]
  omega

theorem isName_of_isAsciiName {c : Char} (h : isAsciiName c = true) : isName c = true := by
  simp only [isAsciiName, Bool.or_eq_true, beq_iff_eq] at h
  rcases h with (h | rfl) | rfl
  · have hw : isWord c = true := by
      rw [isWord, if_pos (val_lt_of_isAlphanum h), h]
      rfl
    rw [isName, hw]
    rfl
  · decide
  · decide

theorem isAsciiName_of_isAsciiLetter {c : Char} (h : isAsciiLetter c = true) :
    isAsciiName c = true := by
  have ha : c.isAlpha = true := h
  rw [isAsciiName, Char.isAlphanum, ha]
  rfl

/-! ## numbers -/

theorem ne_of_isDigit {c d : Char} (hc : c.isDigit = true) (hd : d.isDigit = false) : c ≠ d := by
  intro h
  rw [h, hd] at hc
  exact Bool.false_ne_true hc

theorem isName_of_isDigit {c : Char} (h : c.isDigit = true) : isName c = true := by
  refine isName_of_isAsciiName ?_
  rw [isAsciiName, Char.isAlphanum, h, Bool.or_true]
  rfl

theorem isBlank_of_isDigit {c : Char} (h : c.isDigit = true) : isBlank c = false :=
  isBlank_of_isName (isName_of_isDigit h)

theorem isDigit_toString {n : Nat} {c : Char} (h : c ∈ (toString n).toList) :
    c.isDigit = true := by
  rw [Nat.toString_eq_ofList_toDigits, String.toList_ofList] at h
  exact Nat.isDigit_of_mem_toDigits (by decide) (by decide) h

theorem toString_ne_nil (n : Nat) : (toString n).toList ≠ [] := by
  rw [Nat.toString_eq_ofList_toDigits, String.toList_ofList]
  exact Nat.toDigits_ne_nil

theorem toString_inj {m n : Nat} : toString m = toString n ↔ m = n := by
  refine ⟨fun h => ?_, congrArg _⟩
  rw [Nat.toString_eq_ofList_toDigits, Nat.toString_eq_ofList_toDigits, String.ofList_inj] at h
  rw [← Nat.ofDigitChars_ten_toDigits (n := m), h, Nat.ofDigitChars_ten_toDigits]

/-! ## lower case -/

theorem toLower_toLower (c : Char) : c.toLower.toLower = c.toLower := by
  unfold Char.toLower
  split
  · rename_i h
    rw [dif_neg]
    intro h'
    simp only [ge_iff_le, UInt32.le_iff_toNat_le, UInt32.toNat_add] at h h'
    simp at h h'
    omega
  · rfl

theorem lowerAscii_lowerAscii (cs : List Char) : lowerAscii (lowerAscii cs) = lowerAscii cs := by
  unfold lowerAscii
  rw [List.map_map]
  exact List.map_congr_left fun c _ => toLower_toLower c

end CssOptimizer.Text
