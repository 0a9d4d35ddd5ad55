import CssOptimizer.Proofs.Utf8.Scan
import CssOptimizer.Proofs.Scan.Blocks
import CssOptimizer.Sheet.Parse

/-!
# Cutting bytes

* `Utf8.close cs i`   the offset of the brace that closes the block opened at `i`;
* `Utf8.next cs`      the first piece of a text;
* `Utf8.split cs d`   the parts of a text between its delimiters `d`;
* `Utf8.find? cs d`   the offset of the first of them.

Each scans the bytes of the text from its first one on, or from the opening brace, and takes the
parts between the offsets it finds.  All four depend on the recognised bytes alone (`closeFrom_eq`,
`nextFrom_eq`, `splitFrom_eq`, `findFrom_eq`); they are those of the scans of characters, so that
no slice and no count is a fault and the parts are the same (`close_eq`, `next_eq`, `split_eq`,
`find?_isSome`).
-/

namespace CssOptimizer.Utf8
open String (utf8Len utf8Len_nil utf8Len_cons utf8Len_append)

/-! ## closing braces -/

/-- one less; nothing is less than zero -/
def decrement : Nat → Reading Nat
  | 0 => throw .depth
  | n + 1 => pure n

def closeFrom (s : ByteScan) (depth i : Nat) : List UInt8 → Reading (Option Nat)
  | [] => pure none
  | b :: bs =>
    if (s.consume b).1 then closeFrom (s.consume b).2 depth (i + 1) bs
    else if b = '{'.toUInt8 then closeFrom (s.consume b).2 (depth + 1) (i + 1) bs
    else if b = '}'.toUInt8 then do
      let depth ← decrement depth
      if depth = 0 then pure (some i) else closeFrom (s.consume b).2 depth (i + 1) bs
    else closeFrom (s.consume b).2 depth (i + 1) bs

def close (cs : List Char) (i : Nat) : Reading (Option Nat) := closeFrom {} 0 i ((bytes cs).drop i)

/-- the first of some recognised bytes at which as many braces are closed as are open -/
def closeAmong : Nat → List (Nat × UInt8) → Reading (Option Nat)
  | _, [] => pure none
  | depth, (i, b) :: rest =>
    if b = '{'.toUInt8 then closeAmong (depth + 1) rest
    else if b = '}'.toUInt8 then do
      let depth ← decrement depth
      if depth = 0 then pure (some i) else closeAmong depth rest
    else closeAmong depth rest

theorem closeFrom_eq (s : ByteScan) (depth i : Nat) (bs : List UInt8) :
    closeFrom s depth i bs = closeAmong depth (bareFrom s i bs) := by
  induction bs generalizing s depth i with
  | nil => rfl
  | cons b bs ih =>
    rw [closeFrom, bareFrom]
    split
    · exact ih _ _ _
    · rw [closeAmong]
      simp only [ih]

theorem spelled_isBrace :
    Spelled Scan.isBrace fun b => b == '{'.toUInt8 || b == '}'.toUInt8 :=
  (spelled_beq rfl).or (spelled_beq rfl)

theorem closeAmong_filter (depth : Nat) (l : List (Nat × UInt8)) :
    closeAmong depth (l.filter fun x => x.2 == '{'.toUInt8 || x.2 == '}'.toUInt8) =
      closeAmong depth l := by
  induction l generalizing depth with
  | nil => rfl
  | cons x l ih =>
    obtain ⟨i, b⟩ := x
    by_cases ho : b = '{'.toUInt8
    · rw [List.filter_cons_of_pos (by simp [ho]), closeAmong, closeAmong, if_pos ho, if_pos ho, ih]
    · by_cases hc : b = '}'.toUInt8
      · rw [List.filter_cons_of_pos (by simp [hc]), closeAmong, closeAmong, if_neg ho, if_neg ho,
          if_pos hc, if_pos hc]
        simp only [ih]
      · rw [List.filter_cons_of_neg (by simp [ho, hc]), closeAmong, if_neg ho, if_neg hc, ih]

/-- the body goes on behind a character that does not close the block -/
theorem map_close_cons {k : Nat} {s : Scan} {c : Char}
    (h : ¬ (s.isBare c && c == '}' && k == 0) = true) (i : Nat) (cs : List Char) :
    (Scan.close k s (c :: cs)).map (fun r => i + utf8Len r.1) =
      (Scan.close (Scan.innerBlocks k s c) (s.step c) cs).map
        fun r => i + c.utf8Size + utf8Len r.1 := by
  rw [Scan.close, if_neg h, Option.map_map]
  congr 1
  funext r
  simp only [Function.comp, utf8Len_cons]
  omega

/-- among the bare braces of a text the first at which the blocks are closed ends the body -/
theorem closeAmong_marks (k i : Nat) (s : Scan) (cs : List Char) :
    closeAmong (k + 1) (marks Scan.isBrace s i cs) =
      pure ((Scan.close k s cs).map fun r => i + utf8Len r.1) := by
  induction cs generalizing k i s with
  | nil => rfl
  | cons c cs ih =>
    cases hbare : s.isBare c with
    | false =>
      rw [marks, hbare, map_close_cons (by simp [hbare]), Scan.innerBlocks, hbare]
      exact ih k _ _
    | true =>
      by_cases ho : c = '{'
      · subst ho
        rw [marks, hbare, map_close_cons (by simp), Scan.innerBlocks, hbare]
        exact ih (k + 1) _ _
      · by_cases hc : c = '}'
        · subst hc
          cases k with
          | zero =>
            rw [marks, hbare, Scan.close, hbare]
            rfl
          | succ k =>
            rw [marks, hbare, map_close_cons (by simp), Scan.innerBlocks, hbare]
            exact ih k _ _
        · have hb : Scan.isBrace c = false := by simp [Scan.isBrace, ho, hc]
          rw [marks, hb, Bool.and_false, if_neg Bool.false_ne_true, ih,
            map_close_cons (by simp [hc]), Scan.innerBlocks_of_not_brace hb]

theorem drop_utf8Len (a b : List Char) : (bytes (a ++ b)).drop (utf8Len a) = bytes b := by
  rw [bytes_append, ← length_bytes, List.drop_left]

theorem close_eq_among (a b : List Char) :
    close (a ++ '{' :: b) (utf8Len a) = closeAmong 1 (bareFrom {} (utf8Len a + 1) (bytes b)) := by
  rw [close, drop_utf8Len, ← closeFrom_eq]
  rfl

theorem close_eq (a b : List Char) :
    close (a ++ '{' :: b) (utf8Len a) =
      pure ((Scan.close 0 Scan.start b).map fun r => utf8Len a + 1 + utf8Len r.1) := by
  rw [close_eq_among, ← closeAmong_filter, ← ByteScan.of_start,
    filter_bareFrom spelled_isBrace Scan.sound_start, closeAmong_marks]

/-! ## pieces -/

/-- the bytes that end a piece -/
def isEnd (b : UInt8) : Bool := b == ';'.toUInt8 || b == '}'.toUInt8 || b == '{'.toUInt8

theorem spelled_isEnd : Spelled Piece.isEnd isEnd :=
  ((spelled_beq rfl).or (spelled_beq rfl)).or (spelled_beq rfl)

/-- the piece that ends at a byte: a statement, or a block if the byte opens one -/
def pieceAt (cs : List Char) (i : Nat) (b : UInt8) : Reading Piece :=
  if b = '{'.toUInt8 then do
    match ← close cs i with
    | none => pure .last
    | some j =>
      return .block (← slice cs 0 i) (← slice cs (i + 1) j) (← slice cs (j + 1) (utf8Len cs))
  else return .statement (← slice cs 0 i) (← slice cs (i + 1) (utf8Len cs))

def nextFrom (cs : List Char) (s : ByteScan) (i : Nat) : List UInt8 → Reading Piece
  | [] => pure .last
  | b :: bs =>
    if (s.consume b).1 then nextFrom cs (s.consume b).2 (i + 1) bs
    else if isEnd b then pieceAt cs i b
    else nextFrom cs (s.consume b).2 (i + 1) bs

def next (cs : List Char) : Reading Piece := nextFrom cs {} 0 (bytes cs)

/-- the piece that ends at the first of some recognised bytes that ends one -/
def nextAmong (cs : List Char) (l : List (Nat × UInt8)) : Reading Piece :=
  match l.find? (isEnd ·.2) with
  | none => pure .last
  | some (i, b) => pieceAt cs i b

theorem nextFrom_eq (cs : List Char) (s : ByteScan) (i : Nat) (bs : List UInt8) :
    nextFrom cs s i bs = nextAmong cs (bareFrom s i bs) := by
  induction bs generalizing s i with
  | nil => rfl
  | cons b bs ih =>
    rw [nextFrom, bareFrom]
    split
    · exact ih _ _
    · rw [nextAmong, List.find?_cons]
      cases isEnd b with
      | true => rfl
      | false => exact ih _ _

/-- the first bare character of a kind is where a cut is made -/
theorem head?_marks (p : Char → Bool) (s : Scan) (i : Nat) (cs : List Char) :
    (marks p s i cs).head? =
      (Scan.cut p s cs).map fun r => (i + utf8Len r.1, r.2.1.toUInt8) := by
  induction cs generalizing s i with
  | nil => rfl
  | cons c cs ih =>
    rw [marks, Scan.cut]
    split
    · rfl
    · rw [ih, Option.map_map]
      congr 1
      funext r
      simp only [Function.comp, utf8Len_cons, Nat.add_assoc, Nat.add_comm c.utf8Size]

theorem next_eq_among (cs : List Char) : next cs = nextAmong cs (bare cs) := nextFrom_eq cs {} 0 _

theorem find?_bare (cs : List Char) :
    (bare cs).find? (isEnd ·.2) =
      (Scan.cut Piece.isEnd Scan.start cs).map fun r => (utf8Len r.1, r.2.1.toUInt8) := by
  rw [← List.head?_filter, bare, ← ByteScan.of_start,
    filter_bareFrom spelled_isEnd Scan.sound_start, head?_marks]
  simp only [Nat.zero_add]

/-- the part of a text behind a block -/
theorem slice_block (header body rest : List Char) :
    slice (header ++ '{' :: (body ++ '}' :: rest)) (utf8Len header + 1 + utf8Len body + 1)
      (utf8Len (header ++ '{' :: (body ++ '}' :: rest))) = pure rest := by
  have h := slice_behind (d := '}') rfl (header ++ '{' :: body) rest
  rwa [utf8Len_append_cons rfl, List.append_assoc, List.cons_append] at h

theorem next_eq (cs : List Char) : next cs = pure (Piece.next cs) := by
  rw [next_eq_among, nextAmong, find?_bare, Piece.next]
  cases hcut : Scan.cut Piece.isEnd Scan.start cs with
  | none => rfl
  | some r =>
    obtain ⟨before, d, rest⟩ := r
    obtain ⟨hcs, hd⟩ := Scan.cut_eq_some hcut
    have hone : d.utf8Size = 1 := spelled_isEnd.oneByte d hd
    have hfront : slice cs 0 (utf8Len before) = pure before := by rw [hcs, slice_front]
    simp only [Option.map_some]
    rw [pieceAt]
    by_cases ho : d = '{'
    · subst ho
      rw [if_pos rfl, if_pos rfl, hfront, hcs, close_eq]
      cases hclose : Scan.close 0 Scan.start rest with
      | none => rfl
      | some r =>
        obtain ⟨body, tail⟩ := r
        have hrest := Scan.close_eq_some hclose
        have hbody := slice_between (d := '{') rfl before body ('}' :: tail)
        have htail := slice_block before body tail
        simp only [Option.map_some, pure_bind, hrest, hbody, htail]
    · have hne : ¬ d.toUInt8 = '{'.toUInt8 := fun h => ho ((toUInt8_inj hone rfl).mp h)
      have hrest : slice cs (utf8Len before + 1) (utf8Len cs) = pure rest := by
        rw [hcs, slice_behind hone]
      rw [if_neg hne, if_neg ho, hfront, hrest]
      rfl

/-! ## parts -/

def splitFrom (cs : List Char) (d : UInt8) (s : ByteScan) (start i : Nat) :
    List UInt8 → Reading (List (List Char))
  | [] => return [← slice cs start (utf8Len cs)]
  | b :: bs =>
    if (s.consume b).1 then splitFrom cs d (s.consume b).2 start (i + 1) bs
    else if b = d then
      return (← slice cs start i) :: (← splitFrom cs d (s.consume b).2 (i + 1) (i + 1) bs)
    else splitFrom cs d (s.consume b).2 start (i + 1) bs

def split (cs : List Char) (d : UInt8) : Reading (List (List Char)) :=
  splitFrom cs d {} 0 0 (bytes cs)

/-- the parts of a text between the offsets of some delimiters -/
def splitAmong (cs : List Char) (start : Nat) : List (Nat × UInt8) → Reading (List (List Char))
  | [] => return [← slice cs start (utf8Len cs)]
  | x :: rest => return (← slice cs start x.1) :: (← splitAmong cs (x.1 + 1) rest)

theorem splitFrom_eq (cs : List Char) (d : UInt8) (s : ByteScan) (start i : Nat)
    (bs : List UInt8) :
    splitFrom cs d s start i bs = splitAmong cs start ((bareFrom s i bs).filter (·.2 == d)) := by
  induction bs generalizing s start i with
  | nil => rfl
  | cons b bs ih =>
    rw [splitFrom, bareFrom]
    split
    · exact ih _ _ _
    · by_cases hb : b = d
      · rw [if_pos hb, List.filter_cons_of_pos (by simp [hb]), splitAmong, ih]
      · rw [if_neg hb, List.filter_cons_of_neg (by simp [hb]), ih]

theorem modifyHead_nil (l : List (List Char)) : l.modifyHead ([] ++ ·) = l := by
  cases l <;> rfl

/-- the parts of a text, `part` of which has been read behind the last delimiter -/
theorem splitAmong_marks {d : Char} (hd : d.utf8Size = 1) (s : Scan)
    (front part rest : List Char) :
    splitAmong (front ++ (part ++ rest)) (utf8Len front)
        (marks (· == d) s (utf8Len front + utf8Len part) rest) =
      pure ((Scan.split d s rest).modifyHead (part ++ ·)) := by
  induction rest generalizing s front part with
  | nil =>
    rw [marks, splitAmong, List.append_nil, slice_rest]
    simp [Scan.split]
  | cons c rest ih =>
    rw [marks, Scan.split]
    split
    · rename_i hc
      have hcd : c = d := by simp only [Bool.and_eq_true, beq_iff_eq] at hc; exact hc.2
      subst hcd
      have hsize : utf8Len (front ++ part ++ [c]) = utf8Len front + utf8Len part + 1 := by
        rw [utf8Len_append, utf8Len_append, utf8Len_cons, hd, utf8Len_nil]
      have hcs : front ++ (part ++ c :: rest) = front ++ part ++ [c] ++ ([] ++ rest) := by simp
      have hrest := ih (s.step c) (front ++ part ++ [c]) []
      rw [← hcs, utf8Len_nil, Nat.add_zero, hsize, modifyHead_nil] at hrest
      rw [splitAmong, slice_part, hd]
      simp [hrest]
    · have hcs : part ++ c :: rest = part ++ [c] ++ rest := by simp
      have hsize : utf8Len front + utf8Len part + c.utf8Size =
          utf8Len front + utf8Len (part ++ [c]) := by rw [utf8Len_concat, Nat.add_assoc]
      rw [hcs, hsize, ih, List.modifyHead_modifyHead]
      congr 2
      funext x
      simp

theorem split_eq {d : Char} (hd : d.utf8Size = 1) (cs : List Char) :
    split cs d.toUInt8 = pure (Scan.split d Scan.start cs) := by
  have h := splitAmong_marks hd Scan.start [] [] cs
  rw [modifyHead_nil] at h
  rw [split, splitFrom_eq, ← ByteScan.of_start, filter_bareFrom (spelled_beq hd) Scan.sound_start]
  exact h

/-! ## the first delimiter -/

def findFrom (d : UInt8) (s : ByteScan) (i : Nat) : List UInt8 → Option Nat
  | [] => none
  | b :: bs =>
    if !(s.consume b).1 && b == d then some i else findFrom d (s.consume b).2 (i + 1) bs

def find? (cs : List Char) (d : UInt8) : Option Nat := findFrom d {} 0 (bytes cs)

theorem findFrom_eq (d : UInt8) (s : ByteScan) (i : Nat) (bs : List UInt8) :
    findFrom d s i bs = ((bareFrom s i bs).filter (·.2 == d)).head?.map (·.1) := by
  induction bs generalizing s i with
  | nil => rfl
  | cons b bs ih =>
    rw [findFrom, bareFrom]
    cases (s.consume b).1 with
    | true => exact ih _ _
    | false =>
      rw [if_neg Bool.false_ne_true, List.filter_cons, Bool.not_false, Bool.true_and]
      split
      · rfl
      · exact ih _ _

theorem find?_isSome {d : Char} (hd : d.utf8Size = 1) (cs : List Char) :
    (find? cs d.toUInt8).isSome = Scan.hasBare (· == d) Scan.start cs := by
  rw [find?, findFrom_eq, ← ByteScan.of_start, filter_bareFrom (spelled_beq hd) Scan.sound_start,
    head?_marks, Option.isSome_map, Option.isSome_map]
  cases hcut : Scan.cut (· == d) Scan.start cs with
  | none => rw [Scan.cut_eq_none_iff.mp hcut]; rfl
  | some r =>
    have hne : Scan.hasBare (· == d) Scan.start cs ≠ false := fun h => by
      rw [Scan.cut_eq_none_iff.mpr h] at hcut
      cases hcut
    exact (eq_true_of_ne_false hne).symm

end CssOptimizer.Utf8
