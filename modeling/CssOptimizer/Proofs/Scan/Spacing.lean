import CssOptimizer.Proofs.Scan.Blocks
import CssOptimizer.Proofs.Scan.Comments

/-!
# Texts that differ in their blanks

* `Scan.Alike s a b`   a scan in the state `s` finds the same structure in `a` and in `b`.

Blanks at both ends of a text make no difference (`alike_between`), nor do blanks before a
character that is neither quote nor backslash (`Sound.alike_before`), nor the number of blanks
where there is one (`Sound.alike_exchange`).
-/

namespace CssOptimizer.Scan
open Text

theorem blocks_blanks (k : Nat) (s : Scan) {ws : List Char} (h : Blank ws) (b : List Char) :
    blocks k s (ws ++ b) = blocks k (s.run ws) b := by
  rw [blocks_append, blocks_of_hasBare (hasBare_blanks visible_isBrace s h)]
  rfl

theorem opensComment_of_blank (s : Scan) {ws : List Char} (h : Blank ws) :
    opensComment s ws = false := by
  rw [← List.append_nil ws, opensComment_blanks s h]
  rfl

theorem head_ne_star {ws : List Char} (h : Blank ws) : ws.head? ≠ some '*' := by
  intro he
  exact ne_of_isBlank (h '*' (List.mem_of_mem_head? he)) rfl rfl

theorem count_of_blank {ws : List Char} (h : Blank ws) {c : Char} (hc : isBlank c = false) :
    ws.count c = 0 :=
  List.count_eq_zero.mpr fun hm => ne_of_isBlank (h c hm) hc rfl

/-- blanks do not change whether the next character counts as structure -/
theorem Sound.isBare_run_blanks {s : Scan} (hs : s.Sound) {ws : List Char} (h : Blank ws)
    (c : Char) : (s.run ws).isBare c = s.isBare c := by
  rw [Bool.eq_iff_iff]
  constructor
  · intro hb
    have hr := eq_start_of_isBare hb
    rwa [hr, ← hs.eq_start_of_run_quiet (quiet_of_blank h) hr] at hb
  · intro hb
    rwa [eq_start_of_isBare hb, run_start_blanks h, ← eq_start_of_isBare hb]

/-! ## the same structure -/

/-- the same brackets, delimiters and comments, and the same characters but for blanks -/
structure Alike (s : Scan) (a b : List Char) : Prop where
  closed : s.run a = start ↔ s.run b = start
  bare : ∀ stop, Visible stop → hasBare stop s a = hasBare stop s b
  nested : ∀ k, blocks k s a = blocks k s b
  opens : opensComment s a = opensComment s b
  count : ∀ c, isBlank c = false → a.count c = b.count c

section
variable {s : Scan} {a b c : List Char}

theorem Alike.symm (h : Alike s a b) : Alike s b a :=
  ⟨h.closed.symm, fun p hp => (h.bare p hp).symm, fun k => (h.nested k).symm, h.opens.symm,
    fun d hd => (h.count d hd).symm⟩

theorem Alike.trans (h : Alike s a b) (h' : Alike s b c) : Alike s a c :=
  ⟨h.closed.trans h'.closed, fun p hp => (h.bare p hp).trans (h'.bare p hp),
    fun k => (h.nested k).trans (h'.nested k), h.opens.trans h'.opens,
    fun d hd => (h.count d hd).trans (h'.count d hd)⟩

/-- the same text in front of both; no slash of it meets a star -/
theorem Alike.append_left (u : List Char) (ha : a.head? ≠ some '*') (hb : b.head? ≠ some '*')
    (h : Alike (s.run u) a b) : Alike s (u ++ a) (u ++ b) := by
  refine ⟨?_, ?_, ?_, ?_, ?_⟩
  · rw [run_append, run_append]
    exact h.closed
  · intro p hp
    rw [hasBare_append, hasBare_append, h.bare p hp]
  · intro k
    rw [blocks_append, blocks_append]
    exact congrArg _ (funext h.nested)
  · rw [opensComment_append s u ha, opensComment_append s u hb, h.opens]
  · intro d hd
    rw [List.count_append, List.count_append, h.count d hd]

theorem Alike.cons {d : Char} (hd : d ≠ '/') (h : Alike (s.step d) a b) :
    Alike s (d :: a) (d :: b) := by
  refine ⟨h.closed, ?_, ?_, ?_, ?_⟩
  · intro p hp
    rw [hasBare, hasBare, h.bare p hp]
  · intro k
    rw [blocks, blocks, h.nested]
  · rw [opensComment_cons_of_ne s hd, opensComment_cons_of_ne s hd, h.opens]
  · intro e he
    rw [List.count_cons, List.count_cons, h.count e he]

/-- blanks in a state that they do not change -/
theorem alike_blanks {ws : List Char} (h : Blank ws) (hs : s.run ws = s) (a : List Char) :
    Alike s (ws ++ a) a := by
  refine ⟨?_, ?_, ?_, ?_, ?_⟩
  · rw [run_append, hs]
  · intro p hp
    rw [hasBare_append, hasBare_blanks hp s h, hs, Bool.false_or]
  · intro k
    rw [blocks_blanks k s h, hs]
  · rw [opensComment_blanks s h, hs]
  · intro d hd
    rw [List.count_append, count_of_blank h hd, Nat.zero_add]

/-- blanks at the end of a text -/
theorem Sound.alike_behind (hs : s.Sound) {ws : List Char} (h : Blank ws) (a : List Char) :
    Alike s (a ++ ws) a := by
  refine ⟨?_, ?_, ?_, ?_, ?_⟩
  · rw [run_append]
    constructor
    · exact (hs.run a).eq_start_of_run_quiet (quiet_of_blank h)
    · intro hr
      rw [hr, run_start_blanks h]
  · intro p hp
    rw [hasBare_append, hasBare_blanks hp _ h, Bool.or_false]
  · intro k
    have hw : ∀ j, blocks j (s.run a) ws = some j := fun j =>
      blocks_of_hasBare (hasBare_blanks visible_isBrace _ h) j
    rw [blocks_append, funext hw]
    exact Option.bind_fun_some (blocks k s a)
  · rw [opensComment_append s a (head_ne_star h), opensComment_of_blank _ h, Bool.or_false]
  · intro d hd
    rw [List.count_append, count_of_blank h hd, Nat.add_zero]

theorem Sound.alike_before (hs : s.Sound) {ws : List Char} (h : Blank ws) {d : Char}
    (hq : isQuote d = false) (hb : d ≠ '\\') (hd : d ≠ '/') (a : List Char) :
    Alike s (ws ++ d :: a) (d :: a) := by
  have hstep : (s.run ws).step d = s.step d := hs.step_run_quiet (quiet_of_blank h) hq hb
  have hbare := hs.isBare_run_blanks h d
  refine ⟨?_, ?_, ?_, ?_, ?_⟩
  · rw [run_append, run_cons, run_cons, hstep]
  · intro p hp
    rw [hasBare_append, hasBare_blanks hp s h, Bool.false_or, hasBare, hasBare, hbare, hstep]
  · intro k
    rw [blocks_blanks k s h, blocks, blocks, innerBlocks, innerBlocks, hbare, hstep]
  · rw [opensComment_blanks s h, opensComment_cons_of_ne _ hd, opensComment_cons_of_ne _ hd, hstep]
  · intro e he
    rw [List.count_append, count_of_blank h he, Nat.zero_add]

theorem Sound.alike_exchange (hs : s.Sound) {x y : List Char} (hx : Blank x) (hy : Blank y)
    (hx' : x ≠ []) (hy' : y ≠ []) (a : List Char) : Alike s (x ++ a) (y ++ a) := by
  have hr : s.run x = s.run y := by
    rw [hs.run_quiet (quiet_of_blank hx) hx', hs.run_quiet (quiet_of_blank hy) hy']
  refine ⟨?_, ?_, ?_, ?_, ?_⟩
  · rw [run_append, run_append, hr]
  · intro p hp
    rw [hasBare_append, hasBare_append, hasBare_blanks hp s hx, hasBare_blanks hp s hy, hr]
  · intro k
    rw [blocks_blanks k s hx, blocks_blanks k s hy, hr]
  · rw [opensComment_blanks s hx, opensComment_blanks s hy, hr]
  · intro d hd
    rw [List.count_append, List.count_append, count_of_blank hx hd, count_of_blank hy hd]

theorem alike_between {x y : List Char} (hx : Blank x) (hy : Blank y) (a : List Char) :
    Alike start (x ++ a ++ y) a :=
  (sound_start.alike_behind hy _).trans (alike_blanks hx (run_start_blanks hx) a)

theorem Alike.plain_iff (h : Alike start a b) {stop : Char → Bool} (hv : Visible stop) :
    Plain stop a ↔ Plain stop b := by
  constructor
  · intro hp
    exact ⟨h.closed.mp hp.closed, by rw [← h.bare stop hv, hp.noBare]⟩
  · intro hp
    exact ⟨h.closed.mpr hp.closed, by rw [h.bare stop hv, hp.noBare]⟩

end
end CssOptimizer.Scan
