import Mathlib.Data.String.Basic
import CssOptimizer.Sheet.Scan

/-!
# Texts as bytes

* `Utf8.bytes cs`     the bytes of a text, `utf8Len cs` of them;
* `Utf8.Reading`      an answer or a fault;
* `Utf8.slice cs i j`   the part of a text between two byte offsets.

The bytes are those of the string (`toByteArray_ofList`).  A slice answers exactly where its
offsets are ordered and stand between characters (`exists_slice_iff`); otherwise it is a fault.
A byte below 128 is a whole character, and the bytes of every other character are at least 128
(`bytes_of_ascii`, `high_of_not_ascii`), so that a byte of the first kind in a text is found at the
offset of its character (`exists_of_byte`).
-/

namespace CssOptimizer.Utf8
open String (utf8Len utf8Len_nil utf8Len_cons utf8Len_append utf8Len_eq_zero)

/-! ## bytes -/

def bytes (cs : List Char) : List UInt8 := cs.flatMap String.utf8EncodeChar

theorem bytes_cons (c : Char) (cs : List Char) :
    bytes (c :: cs) = String.utf8EncodeChar c ++ bytes cs := rfl

theorem bytes_append (a b : List Char) : bytes (a ++ b) = bytes a ++ bytes b :=
  List.flatMap_append

theorem length_bytes (cs : List Char) : (bytes cs).length = utf8Len cs := by
  induction cs with
  | nil => rfl
  | cons c cs ih =>
    rw [bytes_cons, List.length_append, String.length_utf8EncodeChar, ih, utf8Len_cons,
      Nat.add_comm]

theorem utf8Len_concat (a : List Char) (c : Char) :
    utf8Len (a ++ [c]) = utf8Len a + c.utf8Size := by
  rw [utf8Len_append, utf8Len_cons, utf8Len_nil, Nat.zero_add]

theorem lt_utf8Len_of_byte {cs : List Char} {i : Nat} {b : UInt8} (h : (bytes cs)[i]? = some b) :
    i < utf8Len cs := length_bytes cs ▸ (List.getElem?_eq_some_iff.mp h).1

theorem toByteArray_ofList (cs : List Char) :
    (String.ofList cs).toByteArray = (bytes cs).toByteArray := String.toByteArray_ofList

theorem utf8ByteSize_ofList (cs : List Char) : (String.ofList cs).utf8ByteSize = utf8Len cs := by
  rw [← String.size_toByteArray, toByteArray_ofList, List.size_toByteArray, length_bytes]

/-! ## characters of one byte -/

theorem toNat_toUInt8 {c : Char} (hc : c.utf8Size = 1) : c.toUInt8.toNat = c.toNat := by
  have h := UInt32.le_iff_toNat_le.mp (Char.utf8Size_eq_one_iff.mp hc)
  have hlt : c.val.toNat < 2 ^ 8 := Nat.lt_of_le_of_lt h (by decide)
  exact Nat.mod_eq_of_lt hlt

theorem toUInt8_lt {c : Char} (hc : c.utf8Size = 1) : c.toUInt8.toNat < 128 := by
  have h := UInt32.le_iff_toNat_le.mp (Char.utf8Size_eq_one_iff.mp hc)
  rw [toNat_toUInt8 hc]
  exact Nat.lt_succ_of_le h

theorem toUInt8_inj {c d : Char} (hc : c.utf8Size = 1) (hd : d.utf8Size = 1) :
    c.toUInt8 = d.toUInt8 ↔ c = d := by
  constructor
  · intro h
    have hn : c.toNat = d.toNat := by rw [← toNat_toUInt8 hc, ← toNat_toUInt8 hd, h]
    rw [← Char.ofNat_toNat c, ← Char.ofNat_toNat d, hn]
  · exact congrArg Char.toUInt8

theorem bytes_of_ascii {c : Char} (hc : c.utf8Size = 1) :
    String.utf8EncodeChar c = [c.toUInt8] := String.utf8EncodeChar_eq_singleton hc

theorem high_of_not_ascii {c : Char} (hc : c.utf8Size ≠ 1) :
    ∀ b ∈ String.utf8EncodeChar c, 128 ≤ b.toNat := by
  have hv : ¬ c.val.toNat ≤ 0x7f := fun h =>
    hc (Char.utf8Size_eq_one_iff.mpr (UInt32.le_iff_toNat_le.mpr h))
  intro b hb
  simp only [String.utf8EncodeChar, if_neg hv] at hb
  split at hb
  · simp only [List.mem_cons, List.not_mem_nil, or_false] at hb
    rcases hb with rfl | rfl <;> rw [UInt8.toNat_ofNat'] <;> omega
  · split at hb
    · simp only [List.mem_cons, List.not_mem_nil, or_false] at hb
      rcases hb with rfl | rfl | rfl <;> rw [UInt8.toNat_ofNat'] <;> omega
    · simp only [List.mem_cons, List.not_mem_nil, or_false] at hb
      rcases hb with rfl | rfl | rfl | rfl <;> rw [UInt8.toNat_ofNat'] <;> omega

theorem ne_of_high {b : UInt8} (hb : 128 ≤ b.toNat) {d : Char} (hd : d.utf8Size = 1) :
    b ≠ d.toUInt8 := by
  intro h
  have hlt := toUInt8_lt hd
  rw [← h] at hlt
  omega

theorem exists_of_byte {cs : List Char} {i : Nat} {d : Char} (hd : d.utf8Size = 1)
    (h : (bytes cs)[i]? = some d.toUInt8) : ∃ u v, cs = u ++ d :: v ∧ utf8Len u = i := by
  induction cs generalizing i with
  | nil => simp [bytes] at h
  | cons c cs ih =>
    rw [bytes_cons] at h
    by_cases hi : i < c.utf8Size
    · have hlen : i < (String.utf8EncodeChar c).length := by
        rwa [String.length_utf8EncodeChar]
      rw [List.getElem?_append_left hlen] at h
      have hmem := List.mem_of_getElem? h
      have hc : c.utf8Size = 1 :=
        Decidable.byContradiction fun hc => ne_of_high (high_of_not_ascii hc _ hmem) hd rfl
      rw [bytes_of_ascii hc, List.mem_singleton, toUInt8_inj hd hc] at hmem
      have h₀ : i = 0 := by omega
      rw [h₀, hmem]
      exact ⟨[], cs, rfl, rfl⟩
    · have hlen : (String.utf8EncodeChar c).length ≤ i := by
        rw [String.length_utf8EncodeChar]
        omega
      rw [List.getElem?_append_right hlen, String.length_utf8EncodeChar] at h
      obtain ⟨u, v, hcs, hu⟩ := ih h
      refine ⟨c :: u, v, by rw [hcs]; rfl, ?_⟩
      rw [utf8Len_cons]
      omega

theorem head?_of_byte {cs : List Char} {d : Char} (hd : d.utf8Size = 1)
    (h : (bytes cs)[0]? = some d.toUInt8) : cs.head? = some d := by
  obtain ⟨u, v, rfl, hu⟩ := exists_of_byte hd h
  rw [utf8Len_eq_zero.mp hu]
  rfl

/-! ## readings -/

/-- what can go wrong: a slice out of range or inside a character, a count below zero -/
inductive Fault where
  | slice (start stop : Nat)
  | depth
  deriving DecidableEq

abbrev Reading (α : Type) := Except Fault α

theorem pure_inj {α : Type} {x y : α} : (pure x : Reading α) = pure y ↔ x = y :=
  ⟨Except.ok.inj, congrArg _⟩

theorem throw_ne_pure {α : Type} (f : Fault) (x : α) : (throw f : Reading α) ≠ pure x := nofun

theorem of_bind_eq_pure {α β : Type} {x : Reading α} {f : α → Reading β} {y : β}
    (h : x >>= f = pure y) : ∃ a, x = pure a ∧ f a = pure y := by
  cases x with
  | error _ => cases h
  | ok a => exact ⟨a, rfl, h⟩

/-! ## slices -/

/-- the texts in front of a byte offset and behind it, if it stands between two characters -/
def cutAt? : List Char → Nat → Option (List Char × List Char)
  | cs, 0 => some ([], cs)
  | [], _ + 1 => none
  | c :: cs, n + 1 =>
    if c.utf8Size ≤ n + 1 then
      (cutAt? cs (n + 1 - c.utf8Size)).map fun (front, rest) => (c :: front, rest)
    else none

def slice (cs : List Char) (i j : Nat) : Reading (List Char) :=
  match (cutAt? cs j).bind fun (front, _) => cutAt? front i with
  | some (_, part) => pure part
  | none => throw (.slice i j)

theorem cutAt?_append (a b : List Char) : cutAt? (a ++ b) (utf8Len a) = some (a, b) := by
  induction a with
  | nil => simp [cutAt?]
  | cons c a ih =>
    have hpos := c.utf8Size_pos
    obtain ⟨n, hn⟩ : ∃ n, utf8Len (c :: a) = n + 1 :=
      ⟨utf8Len (c :: a) - 1, by rw [utf8Len_cons]; omega⟩
    have hle : c.utf8Size ≤ n + 1 := by rw [← hn, utf8Len_cons]; omega
    have hrest : n + 1 - c.utf8Size = utf8Len a := by rw [← hn, utf8Len_cons]; omega
    rw [hn, List.cons_append, cutAt?, if_pos hle, hrest, ih]
    rfl

theorem of_cutAt? {cs a b : List Char} {n : Nat} (h : cutAt? cs n = some (a, b)) :
    cs = a ++ b ∧ utf8Len a = n := by
  induction cs generalizing n a with
  | nil =>
    cases n with
    | zero =>
      rw [cutAt?, Option.some.injEq, Prod.mk.injEq] at h
      rw [← h.1, ← h.2]
      exact ⟨rfl, rfl⟩
    | succ n => simp [cutAt?] at h
  | cons c cs ih =>
    cases n with
    | zero =>
      rw [cutAt?, Option.some.injEq, Prod.mk.injEq] at h
      rw [← h.1, ← h.2]
      exact ⟨rfl, rfl⟩
    | succ n =>
      rw [cutAt?] at h
      split at h
      · obtain ⟨⟨front, rest⟩, hr, hm⟩ := Option.map_eq_some_iff.mp h
        simp only [Prod.mk.injEq] at hm
        obtain ⟨rfl, rfl⟩ := hm
        obtain ⟨hcs, hsize⟩ := ih hr
        refine ⟨by rw [hcs]; rfl, ?_⟩
        rw [utf8Len_cons, hsize]
        omega
      · simp at h

/-- an offset stands between two characters if it is the utf8Len of a text in front -/
theorem isValid_iff {cs : List Char} {n : Nat} :
    (⟨n⟩ : String.Pos.Raw).IsValid (String.ofList cs) ↔ ∃ a b, cs = a ++ b ∧ utf8Len a = n := by
  rw [String.Pos.Raw.isValid_iff_exists_append]
  constructor
  · rintro ⟨s, t, hst, hn⟩
    refine ⟨s.toList, t.toList, ?_, ?_⟩
    · rw [← String.toList_append, ← hst, String.toList_ofList]
    · rw [← utf8ByteSize_ofList, String.ofList_toList]
      exact (congrArg String.Pos.Raw.byteIdx hn).symm
  · rintro ⟨a, b, rfl, rfl⟩
    refine ⟨String.ofList a, String.ofList b, String.ofList_append, ?_⟩
    rw [← utf8ByteSize_ofList]
    rfl

theorem slice_eq {cs a b c : List Char} {i j : Nat} (h : cs = a ++ (b ++ c)) (hi : i = utf8Len a)
    (hj : j = utf8Len a + utf8Len b) : slice cs i j = pure b := by
  have hfront : cutAt? cs j = some (a ++ b, c) := by
    rw [h, hj, ← utf8Len_append, ← List.append_assoc, cutAt?_append]
  have hpart : cutAt? (a ++ b) i = some (a, b) := by rw [hi, cutAt?_append]
  simp only [slice, hfront, Option.bind_some, hpart]

theorem slice_front (a b : List Char) : slice (a ++ b) 0 (utf8Len a) = pure a :=
  slice_eq (a := []) rfl rfl (Nat.zero_add _).symm

theorem slice_part (a b c : List Char) :
    slice (a ++ (b ++ c)) (utf8Len a) (utf8Len a + utf8Len b) = pure b := slice_eq rfl rfl rfl

theorem slice_rest (a b : List Char) : slice (a ++ b) (utf8Len a) (utf8Len (a ++ b)) = pure b := by
  have h := slice_part a b []
  rwa [List.append_nil, ← utf8Len_append] at h

section
variable {d : Char} (hd : d.utf8Size = 1) (a b c : List Char)
include hd

theorem utf8Len_append_cons : utf8Len (a ++ d :: b) = utf8Len a + 1 + utf8Len b := by
  rw [utf8Len_append, utf8Len_cons, hd, Nat.add_assoc, Nat.add_comm 1]

/-- the part of a text between a character of one byte and a later offset -/
theorem slice_between :
    slice (a ++ d :: (b ++ c)) (utf8Len a + 1) (utf8Len a + 1 + utf8Len b) = pure b := by
  have hlen : utf8Len (a ++ [d]) = utf8Len a + 1 := utf8Len_append_cons hd a []
  refine slice_eq (a := a ++ [d]) (c := c) ?_ hlen.symm (by rw [hlen])
  rw [List.append_assoc]
  rfl

/-- the part of a text behind a character of one byte -/
theorem slice_behind :
    slice (a ++ d :: b) (utf8Len a + 1) (utf8Len (a ++ d :: b)) = pure b := by
  have h := slice_between hd a b []
  rwa [List.append_nil, ← utf8Len_append_cons hd] at h

end

theorem exists_slice_iff {cs : List Char} {i j : Nat} :
    (∃ part, slice cs i j = pure part) ↔
      i ≤ j ∧ (⟨i⟩ : String.Pos.Raw).IsValid (String.ofList cs) ∧
        (⟨j⟩ : String.Pos.Raw).IsValid (String.ofList cs) := by
  rw [isValid_iff, isValid_iff]
  constructor
  · rintro ⟨part, h⟩
    rw [slice] at h
    split at h
    · rename_i r hr
      obtain ⟨⟨front, rest⟩, hfront, hpart⟩ := Option.bind_eq_some_iff.mp hr
      obtain ⟨hcs, hj⟩ := of_cutAt? hfront
      obtain ⟨hf, hi⟩ := of_cutAt? hpart
      refine ⟨?_, ⟨_, _, by rw [hcs, hf, List.append_assoc], hi⟩, front, rest, hcs, hj⟩
      rw [← hj, ← hi, hf, utf8Len_append]
      omega
    · exact absurd h (throw_ne_pure _ _)
  · rintro ⟨hij, ⟨a, b, hcs, hi⟩, front, rest, hcs', hj⟩
    rcases List.append_eq_append_iff.mp (hcs.symm.trans hcs') with ⟨x, hx, -⟩ | ⟨x, hx, hb⟩
    · refine ⟨x, slice_eq (by rw [hcs', hx, List.append_assoc]) hi.symm ?_⟩
      rw [← hj, hx, utf8Len_append]
    · have hsize : utf8Len a = utf8Len front + utf8Len x := by rw [hx, utf8Len_append]
      refine ⟨[], slice_eq (a := a) (c := b) hcs hi.symm ?_⟩
      rw [utf8Len_nil]
      omega

end CssOptimizer.Utf8
