import CssOptimizer.Proofs.Utf8.Pieces
import CssOptimizer.Proofs.Sheet.Reading
import Mathlib.Order.Bounds.Basic

/-!
# Scans that start again

* `Utf8.Closes cs`          a text that closes its strings and parentheses;
* `Utf8.ClosesAt d l j`     at `j` all open braces are closed, `d` of which are open from the start;
* `Utf8.FirstEnd cs k j b`  from `k` on the first recognised byte that ends a piece;
* `Utf8.Resumes cs v k`     a text that is cut into pieces as `cs` is from `k` on;
* `Utf8.Visits cs k v`      the texts that are cut when `cs` is read, with their offsets.

Every scan of a text starts afresh: at a brace, in a body, behind a piece.  Behind a text that
closes its strings and parentheses a fresh scan recognises the bytes that a scan from the start
recognises (`bare_append`), and so does one behind a recognised byte (`bare_of_mem`).  Hence a block
ends at the first brace at which the recognised braces balance, its body is closed, and reading the
body or what follows goes on in step with the text around it (`scanners_in_step`).
-/

namespace CssOptimizer.Utf8
open String (utf8Len utf8Len_cons utf8Len_append)
open Scan (Plain)

/-! ## closed texts -/

def Closes (cs : List Char) : Prop :=
  (ByteScan.run {} (bytes cs)).quote = none ∧ (ByteScan.run {} (bytes cs)).parens = 0

instance (cs : List Char) : Decidable (Closes cs) := inferInstanceAs (Decidable (_ ∧ _))

theorem Closes.run {cs : List Char} (h : Closes cs) : ByteScan.run {} (bytes cs) = {} :=
  (ByteScan.tidy_fresh.run _).eq_fresh h.1 h.2

/-- a text is closed for a scan of its bytes if it is for a scan of its characters -/
theorem closes_iff {cs : List Char} : Closes cs ↔ Scan.Closed cs := by
  rw [Closes, ByteScan.run_fresh, Scan.Closed]
  cases Scan.start.run cs with
  | outside p =>
    constructor
    · rintro ⟨-, hp⟩
      exact congrArg Scan.outside hp
    · intro h
      exact ⟨rfl, Scan.outside.inj h⟩
  | inside q e p => exact ⟨fun h => (Option.some_ne_none _ h.1).elim, fun h => Scan.noConfusion h⟩

/-! ## recognised bytes -/

/-- a recognised byte stands at its offset -/
theorem exists_of_mem_bareFrom {s : ByteScan} {i : Nat} {bs : List UInt8} {x : Nat × UInt8}
    (h : x ∈ bareFrom s i bs) : ∃ k, x.1 = i + k ∧ bs[k]? = some x.2 := by
  induction bs generalizing s i with
  | nil => cases h
  | cons b bs ih =>
    have hbehind {s : ByteScan} (h : x ∈ bareFrom s (i + 1) bs) :
        ∃ k, x.1 = i + k ∧ (b :: bs)[k]? = some x.2 := by
      obtain ⟨k, hx, hk⟩ := ih h
      exact ⟨k + 1, by omega, hk⟩
    rw [bareFrom] at h
    split at h
    · exact hbehind h
    · rcases List.mem_cons.mp h with rfl | h
      · exact ⟨0, rfl, rfl⟩
      · exact hbehind h

theorem le_of_mem_bareFrom {s : ByteScan} {i : Nat} {bs : List UInt8} {x : Nat × UInt8}
    (h : x ∈ bareFrom s i bs) : i ≤ x.1 := by
  obtain ⟨k, hx, -⟩ := exists_of_mem_bareFrom h
  omega

theorem getElem?_of_mem_bare {cs : List Char} {x : Nat × UInt8} (h : x ∈ bare cs) :
    (bytes cs)[x.1]? = some x.2 := by
  obtain ⟨k, hx, hk⟩ := exists_of_mem_bareFrom h
  rwa [hx, Nat.zero_add]

theorem lt_utf8Len_of_mem {cs : List Char} {x : Nat × UInt8} (h : x ∈ bare cs) : x.1 < utf8Len cs :=
  lt_utf8Len_of_byte (getElem?_of_mem_bare h)

theorem pairwise_bareFrom (s : ByteScan) (i : Nat) (bs : List UInt8) :
    (bareFrom s i bs).Pairwise (·.1 < ·.1) := by
  induction bs generalizing s i with
  | nil => exact List.Pairwise.nil
  | cons b bs ih =>
    rw [bareFrom]
    split
    · exact ih _ _
    · exact List.pairwise_cons.mpr ⟨fun x hx => le_of_mem_bareFrom hx, ih _ _⟩

theorem mem_later {n m : Nat} {b : UInt8} {l : List (Nat × UInt8)} :
    (m, b) ∈ later n l ↔ ∃ k, m = n + k ∧ (k, b) ∈ l := by
  simp only [later, List.mem_map, Prod.mk.injEq]
  constructor
  · rintro ⟨x, hx, rfl, rfl⟩
    exact ⟨x.1, rfl, hx⟩
  · rintro ⟨k, rfl, hk⟩
    exact ⟨(k, b), hk, rfl, rfl⟩

theorem later_bare (n : Nat) (cs : List Char) : later n (bare cs) = bareFrom {} n (bytes cs) :=
  (bareFrom_later {} n 0 (bytes cs)).symm

theorem bare_append {u : List Char} (hu : Closes u) (v : List Char) :
    bare (u ++ v) = bare u ++ later (utf8Len u) (bare v) := by
  rw [later_bare, bare, bytes_append, bareFrom_append, hu.run, length_bytes, Nat.zero_add]
  rfl

theorem bare_of_mem {d : Char} (hd : d.utf8Size = 1) {a b : List Char}
    (h : (utf8Len a, d.toUInt8) ∈ bare (a ++ d :: b)) :
    Closes a ∧ Closes (a ++ [d]) ∧
      bare (a ++ d :: b) = bare a ++ (utf8Len a, d.toUInt8) :: later (utf8Len a + 1) (bare b) := by
  have hbytes : bytes (d :: b) = d.toUInt8 :: bytes b := by
    rw [bytes_cons, bytes_of_ascii hd]
    rfl
  have hsplit : bare (a ++ d :: b) =
      bare a ++ bareFrom (ByteScan.run {} (bytes a)) (utf8Len a) (d.toUInt8 :: bytes b) := by
    rw [bare, bytes_append, bareFrom_append, hbytes, length_bytes, Nat.zero_add]
    rfl
  have hfree : ((ByteScan.run {} (bytes a)).consume d.toUInt8).1 = false := by
    rw [hsplit, List.mem_append] at h
    rcases h with h | h
    · exact absurd (lt_utf8Len_of_mem h) (Nat.lt_irrefl _)
    · rw [bareFrom] at h
      split at h
      · exact absurd (le_of_mem_bareFrom h) (Nat.not_succ_le_self _)
      · rename_i hc
        exact Bool.eq_false_iff.mpr hc
  obtain ⟨hq, hp, hstep⟩ := ByteScan.of_not_consumed hfree
  have ha : Closes a := ⟨hq, hp⟩
  have hbehind : ByteScan.run {} (bytes (a ++ [d])) = {} := by
    rw [bytes_append, ByteScan.run_append, bytes_cons, bytes_of_ascii hd]
    exact hstep.trans ha.run
  refine ⟨ha, ?_, ?_⟩
  · rw [Closes, hbehind]
    exact ⟨rfl, rfl⟩
  · rw [hsplit, bareFrom, hfree, hstep, ha.run, if_neg Bool.false_ne_true, later_bare]

/-! ## closing braces -/

/-- how often a byte is recognised up to an offset -/
def upTo (l : List (Nat × UInt8)) (j : Nat) (b : UInt8) : Nat :=
  l.countP fun x => x.1 ≤ j && x.2 == b

/-- a closing brace at which as many braces are closed as are open, some of them from the start -/
def ClosesAt (depth : Nat) (l : List (Nat × UInt8)) (j : Nat) : Prop :=
  (j, '}'.toUInt8) ∈ l ∧ depth + upTo l j '{'.toUInt8 = upTo l j '}'.toUInt8

section
variable {k j depth : Nat} {b c : UInt8} {l : List (Nat × UInt8)}

theorem upTo_cons_of_lt (h : k < j) :
    upTo ((k, b) :: l) j c = upTo l j c + if b = c then 1 else 0 := by
  rw [upTo, List.countP_cons, upTo]
  simp [Nat.le_of_lt h]

theorem upTo_of_lt (h : ∀ x ∈ l, j < x.1) : upTo l j c = 0 := by
  rw [upTo, List.countP_eq_zero]
  intro x hx
  simp [Nat.not_le.mpr (h x hx)]

/-- a closing brace in front of others closes one that is open -/
theorem closesAt_head (h : ∀ x ∈ l, k < x.1) :
    ClosesAt depth ((k, '}'.toUInt8) :: l) k ↔ depth = 1 := by
  have hopen : upTo ((k, '}'.toUInt8) :: l) k '{'.toUInt8 = 0 := by
    have hne : ¬ '}'.toUInt8 = '{'.toUInt8 := by decide
    rw [upTo, List.countP_cons_of_neg (by simp [hne])]
    exact upTo_of_lt h
  have hclose : upTo ((k, '}'.toUInt8) :: l) k '}'.toUInt8 = 1 := by
    rw [upTo, List.countP_cons_of_pos (by simp)]
    exact congrArg (· + 1) (upTo_of_lt h)
  rw [ClosesAt, hopen, hclose]
  exact and_iff_right List.mem_cons_self

/-- in front of others a byte that closes nothing yet only changes what is open -/
theorem closesAt_cons {d : Nat} (h : ∀ x ∈ l, k < x.1) (hnot : b = '}'.toUInt8 → depth ≠ 1)
    (hd : depth + (if b = '{'.toUInt8 then 1 else 0) = d + if b = '}'.toUInt8 then 1 else 0) :
    ClosesAt depth ((k, b) :: l) j ↔ ClosesAt d l j := by
  have hcount (hl : (j, '}'.toUInt8) ∈ l) :
      depth + upTo ((k, b) :: l) j '{'.toUInt8 = upTo ((k, b) :: l) j '}'.toUInt8 ↔
        d + upTo l j '{'.toUInt8 = upTo l j '}'.toUInt8 := by
    have hlt : k < j := h _ hl
    rw [upTo_cons_of_lt hlt, upTo_cons_of_lt hlt]
    omega
  constructor
  · rintro ⟨hmem, hbalance⟩
    rcases List.mem_cons.mp hmem with heq | hl
    · obtain ⟨rfl, rfl⟩ := Prod.mk.inj heq
      exact absurd ((closesAt_head h).mp ⟨hmem, hbalance⟩) (hnot rfl)
    · exact ⟨hl, (hcount hl).mp hbalance⟩
  · rintro ⟨hl, hbalance⟩
    exact ⟨List.mem_cons_of_mem _ hl, (hcount hl).mpr hbalance⟩

end

/-- the first brace that closes what is open is found -/
theorem closeAmong_spec {l : List (Nat × UInt8)} (hl : l.Pairwise (·.1 < ·.1)) (depth : Nat) :
    ∃ r, closeAmong (depth + 1) l = pure r ∧
      ∀ j, r = some j ↔ IsLeast {j | ClosesAt (depth + 1) l j} j := by
  induction l generalizing depth with
  | nil =>
    refine ⟨none, rfl, fun j => ⟨nofun, fun h => ?_⟩⟩
    cases h.1.1
  | cons x l ih =>
    obtain ⟨k, b⟩ := x
    obtain ⟨hk, hl⟩ := List.pairwise_cons.mp hl
    have pass {d : Nat} (hstep : closeAmong (depth + 1) ((k, b) :: l) = closeAmong (d + 1) l)
        (hnot : b = '}'.toUInt8 → depth + 1 ≠ 1)
        (hd : depth + 1 + (if b = '{'.toUInt8 then 1 else 0) =
          d + 1 + if b = '}'.toUInt8 then 1 else 0) :
        ∃ r, closeAmong (depth + 1) ((k, b) :: l) = pure r ∧
          ∀ j, r = some j ↔ IsLeast {j | ClosesAt (depth + 1) ((k, b) :: l) j} j := by
      simp only [hstep, closesAt_cons hk hnot hd]
      exact ih hl d
    by_cases ho : b = '{'.toUInt8
    · subst ho
      exact pass (d := depth + 1) rfl (fun h => absurd h (by decide)) rfl
    · by_cases hc : b = '}'.toUInt8
      · subst hc
        cases depth with
        | zero =>
          refine ⟨some k, rfl, fun j => ?_⟩
          have hleast : IsLeast {j | ClosesAt (0 + 1) ((k, '}'.toUInt8) :: l) j} k := by
            refine ⟨(closesAt_head hk).mpr rfl, fun j hj => ?_⟩
            rcases List.mem_cons.mp hj.1 with heq | hmem
            · exact (Prod.mk.inj heq).1.ge
            · exact Nat.le_of_lt (hk _ hmem)
          rw [Option.some.injEq]
          constructor
          · rintro rfl
            exact hleast
          · exact hleast.unique
        | succ depth => exact pass (d := depth) rfl (fun _ => by omega) rfl
      · refine pass (d := depth) ?_ (fun h => absurd h hc) ?_
        · rw [closeAmong, if_neg ho, if_neg hc]
        · rw [if_neg ho, if_neg hc]

/-! ## restarts -/

def FirstEnd (cs : List Char) (k j : Nat) (b : UInt8) : Prop :=
  (j, b) ∈ bare cs ∧ k ≤ j ∧ isEnd b = true ∧
    ∀ i c, (i, c) ∈ bare cs → k ≤ i → isEnd c = true → j ≤ i

structure Resumes (cs v : List Char) (k : Nat) : Prop where
  answers : next v = pure (Piece.next v)
  same : ∀ m b, (m, b) ∈ bare v ↔ m < utf8Len v ∧ (k + m, b) ∈ bare cs
  last : next v = pure .last →
    (∀ m b, (m, b) ∈ bare v → isEnd b = false) ∨
      ∃ m < utf8Len v, FirstEnd cs k (k + m) '{'.toUInt8 ∧ close v m = pure none
  statement : ∀ {text rest}, next v = pure (.statement text rest) →
    ∃ e, e ≠ '{'.toUInt8 ∧ FirstEnd cs k (k + utf8Len text) e
  block : ∀ {header body rest}, next v = pure (.block header body rest) →
    FirstEnd cs k (k + utf8Len header) '{'.toUInt8 ∧
      close cs (k + utf8Len header) = pure (some (k + utf8Len header + 1 + utf8Len body))

theorem mem_bare_append {u v : List Char} (hu : Closes u) {m : Nat} {b : UInt8} :
    (utf8Len u + m, b) ∈ bare (u ++ v) ↔ (m, b) ∈ bare v := by
  rw [bare_append hu, List.mem_append, mem_later]
  constructor
  · rintro (h | ⟨k, hk, h⟩)
    · exact absurd (lt_utf8Len_of_mem h) (Nat.not_lt.mpr (Nat.le_add_right _ _))
    · rwa [Nat.add_left_cancel hk]
  · exact fun h => .inr ⟨m, rfl, h⟩

/-- a text in front of others has its own recognised bytes -/
theorem mem_bare_left {v w : List Char} {m : Nat} {b : UInt8} (hm : m < utf8Len v) :
    (m, b) ∈ bare (v ++ w) ↔ (m, b) ∈ bare v := by
  rw [bare, bytes_append, bareFrom_append, List.mem_append, length_bytes, Nat.zero_add]
  constructor
  · rintro (h | h)
    · exact h
    · exact absurd (le_of_mem_bareFrom h) (Nat.not_le.mpr hm)
  · exact .inl

/-- a text that is not cut has no recognised byte that ends a piece -/
theorem isEnd_of_not_cut {cs : List Char} (h : Scan.cut Piece.isEnd Scan.start cs = none)
    {x : Nat × UInt8} (hx : x ∈ bare cs) : isEnd x.2 = false := by
  have hnone : (bare cs).find? (isEnd ·.2) = none := by
    rw [find?_bare, h]
    rfl
  exact Bool.eq_false_iff.mpr (List.find?_eq_none.mp hnone x hx)

theorem mem_bare_head {d : Char} (hd : Piece.isEnd d = true) (rest : List Char) :
    (0, d.toUInt8) ∈ bare (d :: rest) := by
  have hone : d.utf8Size = 1 := spelled_isEnd.oneByte d hd
  have hbare : Scan.start.isBare d = true := by
    simp only [Piece.isEnd, Bool.or_eq_true, beq_iff_eq] at hd
    rcases hd with (rfl | rfl) | rfl <;> rfl
  rw [bare, bytes_cons, bytes_of_ascii hone, ← ByteScan.of_start, List.singleton_append, bareFrom,
    ByteScan.consume_of Scan.sound_start hone, hbare]
  exact List.mem_cons_self

/-- behind a plain text the first end is the character that ends it -/
theorem firstEnd_of_plain {u text rest : List Char} {d : Char} (hu : Closes u)
    (ht : Plain Piece.isEnd text) (hd : Piece.isEnd d = true) :
    FirstEnd (u ++ (text ++ d :: rest)) (utf8Len u) (utf8Len u + utf8Len text) d.toUInt8 := by
  have hclosed : Closes text := closes_iff.mpr ht.closed
  have hone : d.utf8Size = 1 := spelled_isEnd.oneByte d hd
  refine ⟨?_, Nat.le_add_right _ _, ?_, ?_⟩
  · rw [mem_bare_append hu]
    have h := (mem_bare_append hclosed).mpr (mem_bare_head hd rest)
    rwa [Nat.add_zero] at h
  · rw [spelled_isEnd.low d hone, hd]
  · intro i c hi hle hc
    obtain ⟨m, rfl⟩ := Nat.exists_eq_add_of_le hle
    rw [mem_bare_append hu] at hi
    refine Nat.add_le_add_left (Nat.le_of_not_lt fun hm => ?_) _
    rw [mem_bare_left hm] at hi
    rw [isEnd_of_not_cut (Scan.cut_eq_none_iff.mpr ht.noBare) hi] at hc
    cases hc

/-- behind a closed text the scans of what follows are in step -/
theorem resumes {u : List Char} (hu : Closes u) (v w : List Char) :
    Resumes (u ++ (v ++ w)) v (utf8Len u) where
  answers := next_eq v
  same m b := by
    rw [mem_bare_append hu]
    constructor
    · intro h
      have hlt := lt_utf8Len_of_mem h
      exact ⟨hlt, (mem_bare_left hlt).mpr h⟩
    · rintro ⟨hlt, h⟩
      exact (mem_bare_left hlt).mp h
  last h := by
    rw [next_eq, pure_inj, Piece.next] at h
    split at h
    · rename_i hcut
      exact .inl fun m b hm => isEnd_of_not_cut hcut hm
    · rename_i before d rest hcut
      split at h
      · rename_i hd
        subst hd
        split at h
        · rename_i hclose
          obtain ⟨rfl, -⟩ := Scan.cut_eq_some hcut
          refine .inr ⟨utf8Len before, ?_, ?_, ?_⟩
          · rw [utf8Len_append_cons rfl]
            omega
          · rw [List.append_assoc]
            exact firstEnd_of_plain hu (Scan.plain_of_cut hcut).1 rfl
          · rw [close_eq, hclose]
            rfl
        · cases h
      · cases h
  statement h := by
    rw [next_eq, pure_inj] at h
    obtain ⟨htext, d, hd, rfl⟩ := next_statement_spec h
    rw [List.append_assoc]
    rcases hd with rfl | rfl
    · exact ⟨';'.toUInt8, by decide, firstEnd_of_plain hu htext rfl⟩
    · exact ⟨'}'.toUInt8, by decide, firstEnd_of_plain hu htext rfl⟩
  block h := by
    rw [next_eq, pure_inj] at h
    rename_i header body rest
    obtain ⟨hheader, hbody, rfl⟩ := next_block_spec h
    have hcs : u ++ ((header ++ '{' :: (body ++ '}' :: rest)) ++ w) =
        u ++ header ++ '{' :: (body ++ '}' :: (rest ++ w)) := by simp
    refine ⟨?_, ?_⟩
    · rw [List.append_assoc]
      exact firstEnd_of_plain hu hheader rfl
    · rw [hcs, ← utf8Len_append, close_eq, Scan.close_balanced hbody]
      rfl

/-! ## the texts that are read -/

/-- the texts that are cut into pieces when a text is read: the text, the bodies of blocks, and what
follows a piece, each with its offset -/
inductive Visits (cs : List Char) : Nat → List Char → Prop
  | whole : Visits cs 0 cs
  | behindStatement {k : Nat} {v text rest : List Char} (h : Visits cs k v)
      (hnext : next v = pure (.statement text rest)) : Visits cs (k + utf8Len text + 1) rest
  | body {k : Nat} {v header body rest : List Char} (h : Visits cs k v)
      (hnext : next v = pure (.block header body rest)) : Visits cs (k + utf8Len header + 1) body
  | behindBlock {k : Nat} {v header body rest : List Char} (h : Visits cs k v)
      (hnext : next v = pure (.block header body rest)) :
      Visits cs (k + utf8Len header + 1 + utf8Len body + 1) rest

theorem Closes.append {a b : List Char} (ha : Closes a) (hb : Closes b) : Closes (a ++ b) :=
  closes_iff.mpr ((closes_iff.mp ha).append (closes_iff.mp hb))

/-- a text that is read stands behind a closed one -/
theorem Visits.stands {cs v : List Char} {k : Nat} (h : Visits cs k v) :
    ∃ u w, cs = u ++ (v ++ w) ∧ utf8Len u = k ∧ Closes u := by
  induction h with
  | whole => exact ⟨[], [], (List.append_nil cs).symm, rfl, rfl, rfl⟩
  | @behindStatement k v text rest _ hnext ih =>
    obtain ⟨u, w, rfl, rfl, hu⟩ := ih
    rw [next_eq, pure_inj] at hnext
    obtain ⟨htext, d, hd, rfl⟩ := next_statement_spec hnext
    have hbehind : d.utf8Size = 1 ∧ Closes [d] := by
      rcases hd with rfl | rfl <;> exact ⟨rfl, by decide⟩
    refine ⟨u ++ text ++ [d], w, by simp, ?_, ?_⟩
    · rw [utf8Len_append, utf8Len_append, utf8Len_cons, hbehind.1]
      rfl
    · exact (hu.append (closes_iff.mpr htext.closed)).append hbehind.2
  | @body k v header body rest _ hnext ih =>
    obtain ⟨u, w, rfl, rfl, hu⟩ := ih
    rw [next_eq, pure_inj] at hnext
    obtain ⟨hheader, hbody, rfl⟩ := next_block_spec hnext
    refine ⟨u ++ header ++ ['{'], '}' :: rest ++ w, by simp, ?_, ?_⟩
    · rw [utf8Len_append, utf8Len_append]
      rfl
    · exact (hu.append (closes_iff.mpr hheader.closed)).append (by decide)
  | @behindBlock k v header body rest _ hnext ih =>
    obtain ⟨u, w, rfl, rfl, hu⟩ := ih
    rw [next_eq, pure_inj] at hnext
    obtain ⟨hheader, hbody, rfl⟩ := next_block_spec hnext
    refine ⟨u ++ header ++ ['{'] ++ body ++ ['}'], w, by simp, ?_, ?_⟩
    · rw [utf8Len_append, utf8Len_append, utf8Len_append, utf8Len_append]
      rfl
    · exact (((hu.append (closes_iff.mpr hheader.closed)).append (by decide)).append
        (closes_iff.mpr hbody.closed)).append (by decide)

/-- from a recognised opening brace on the block ends at the first brace at which the recognised
braces balance -/
theorem close_isLeast {a b : List Char} (h : (utf8Len a, '{'.toUInt8) ∈ bare (a ++ '{' :: b))
    {j : Nat} :
    (Scan.close 0 Scan.start b).map (fun r => utf8Len a + 1 + utf8Len r.1) = some j ↔
      IsLeast {j | ClosesAt 0 ((bare (a ++ '{' :: b)).filter (utf8Len a ≤ ·.1)) j} j := by
  have hbehind : ∀ x ∈ bareFrom {} (utf8Len a + 1) (bytes b), utf8Len a < x.1 :=
    fun x hx => le_of_mem_bareFrom hx
  have hfilter : (bare (a ++ '{' :: b)).filter (utf8Len a ≤ ·.1) =
      (utf8Len a, '{'.toUInt8) :: bareFrom {} (utf8Len a + 1) (bytes b) := by
    have hfront : (bare a).filter (utf8Len a ≤ ·.1) = [] := by
      rw [List.filter_eq_nil_iff]
      intro x hx
      simpa using lt_utf8Len_of_mem hx
    have hrest : (bareFrom {} (utf8Len a + 1) (bytes b)).filter (utf8Len a ≤ ·.1) =
        bareFrom {} (utf8Len a + 1) (bytes b) := by
      rw [List.filter_eq_self]
      intro x hx
      simpa using Nat.le_of_lt (hbehind x hx)
    rw [(bare_of_mem (d := '{') rfl h).2.2, List.filter_append, hfront, later_bare,
      List.filter_cons_of_pos (by simp), hrest, List.nil_append]
  obtain ⟨r, hr, hleast⟩ := closeAmong_spec (pairwise_bareFrom {} (utf8Len a + 1) (bytes b)) 0
  rw [← close_eq_among, close_eq, pure_inj] at hr
  rw [hr, hleast, hfilter]
  have hset : ∀ i,
      ClosesAt 0 ((utf8Len a, '{'.toUInt8) :: bareFrom {} (utf8Len a + 1) (bytes b)) i ↔
        ClosesAt 1 (bareFrom {} (utf8Len a + 1) (bytes b)) i :=
    fun i => closesAt_cons hbehind (fun _ => by decide) rfl
  simp only [hset]

/-- behind a closed text a scan recognises what a fresh one does.  So a block ends at the first
brace at which the recognised braces balance, its body is closed, and what is cut inside the body or
behind it, or anywhere when a text is read, is cut in step with the scan of the whole text -/
theorem scanners_in_step (cs : List Char) :
    (∀ u v, cs = u ++ v → Closes u → bare cs = bare u ++ later (utf8Len u) (bare v)) ∧
    (∀ i, (i, '{'.toUInt8) ∈ bare cs → ∃ r, close cs i = pure r ∧
      (∀ j, r = some j ↔ IsLeast {j | ClosesAt 0 ((bare cs).filter (i ≤ ·.1)) j} j) ∧
      ∀ j, r = some j → ∃ body rest, slice cs (i + 1) j = pure body ∧
        slice cs (j + 1) (utf8Len cs) = pure rest ∧
        Scan.close 0 Scan.start (body ++ '}' :: rest) = some (body, rest) ∧ Closes body ∧
        (∀ u v w, body = u ++ (v ++ w) → Closes u → Resumes cs v (i + 1 + utf8Len u)) ∧
        ∀ u v w, rest = u ++ (v ++ w) → Closes u → Resumes cs v (j + 1 + utf8Len u)) ∧
    ∀ k v, Visits cs k v → Resumes cs v k := by
  refine ⟨?_, ?_, ?_⟩
  · rintro u v rfl hu
    exact bare_append hu v
  · intro i hi
    obtain ⟨a, b, rfl, rfl⟩ := exists_of_byte (d := '{') rfl (getElem?_of_mem_bare hi)
    refine ⟨_, close_eq a b, fun j => close_isLeast hi, fun j hj => ?_⟩
    obtain ⟨⟨body, rest⟩, hclose, rfl⟩ := Option.map_eq_some_iff.mp hj
    obtain rfl := Scan.close_eq_some hclose
    have hopen : Closes (a ++ ['{']) := (bare_of_mem rfl hi).2.1
    have hbody : Closes body := closes_iff.mpr (Scan.balanced_of_close hclose).closed
    refine ⟨body, rest, slice_between rfl a body ('}' :: rest), slice_block a body rest, hclose,
      hbody, ?_, ?_⟩
    · rintro u v w rfl hu
      have hcs : a ++ '{' :: (u ++ (v ++ w) ++ '}' :: rest) =
          a ++ ['{'] ++ u ++ (v ++ (w ++ '}' :: rest)) := by simp
      have hsize : utf8Len a + 1 + utf8Len u = utf8Len (a ++ ['{'] ++ u) := by
        rw [utf8Len_append, utf8Len_append]
        rfl
      rw [hcs, hsize]
      exact resumes (hopen.append hu) v _
    · rintro u v w rfl hu
      have hcs : a ++ '{' :: (body ++ '}' :: (u ++ (v ++ w))) =
          a ++ ['{'] ++ body ++ ['}'] ++ u ++ (v ++ w) := by simp
      have hsize : utf8Len a + 1 + utf8Len body + 1 + utf8Len u =
          utf8Len (a ++ ['{'] ++ body ++ ['}'] ++ u) := by
        rw [utf8Len_append, utf8Len_append, utf8Len_append, utf8Len_append]
        rfl
      rw [hcs, hsize]
      exact resumes (((hopen.append hbody).append (by decide)).append hu) v w
  · intro k v h
    obtain ⟨u, w, rfl, rfl, hu⟩ := h.stands
    exact resumes hu v w

/-- parentheses that hold a brace, a character of two bytes, and a block that holds a brace in a
string and another block -/
def nestedBlock : List Char := "(\x7d) é\x7b\x22\x7d\x22\x7b;\x7d\x7dx".toList

theorem scanners_in_step_nestedBlock :
    Closes ("(\x7d) é".toList) ∧ bare nestedBlock =
        bare ("(\x7d) é".toList) ++ later 6 (bare ("\x7b\x22\x7d\x22\x7b;\x7d\x7dx".toList)) ∧
      (6, '{'.toUInt8) ∈ bare nestedBlock ∧ close nestedBlock 6 = pure (some 13) ∧
      IsLeast {j | ClosesAt 0 ((bare nestedBlock).filter (6 ≤ ·.1)) j} 13 ∧
      Visits nestedBlock 14 ['x'] ∧ Resumes nestedBlock ['x'] 14 := by
  obtain ⟨happend, hclose, hvisits⟩ := scanners_in_step nestedBlock
  have hclosed : Closes ("(\x7d) é".toList) := by decide
  have hopen : (6, '{'.toUInt8) ∈ bare nestedBlock := by decide
  have hend : close nestedBlock 6 = pure (some 13) := rfl
  obtain ⟨r, hr, hleast, -⟩ := hclose 6 hopen
  have hnext : next nestedBlock =
      pure (.block "(\x7d) é".toList "\x22\x7d\x22\x7b;\x7d".toList ['x']) := rfl
  have hrest : Visits nestedBlock 14 ['x'] := by
    have h := Visits.whole.behindBlock hnext
    exact h
  refine ⟨hclosed, happend _ _ rfl hclosed, hopen, hend, ?_, hrest, hvisits _ _ hrest⟩
  exact (hleast 13).mp (pure_inj.mp (hr.symm.trans hend))

end CssOptimizer.Utf8
