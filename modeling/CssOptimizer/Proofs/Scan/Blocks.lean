import CssOptimizer.Proofs.Scan.Plain

/-!
# Balanced texts

* `Scan.blocks`     the number of blocks open behind a text, or nothing if it closes one too many;
* `Scan.Balanced`   closed texts in which every block that opens is closed again.

The body that `Scan.close` finds is balanced (`blocks_of_close`), and a balanced text in front of
a closing brace is what it finds (`close_balanced`).  Where a text closes one block too many, the
body ends there (`exists_of_blocks_eq_none`).
-/

namespace CssOptimizer.Scan
open Text

/-- the number of open blocks behind a text; nothing if it closes more than are open -/
def blocks : Nat → Scan → List Char → Option Nat
  | inner, _, [] => some inner
  | inner, s, c :: cs =>
    if s.isBare c && c == '}' && inner == 0 then none
    else blocks (innerBlocks inner s c) (s.step c) cs

def isBrace (c : Char) : Bool := c == '{' || c == '}'

theorem blocks_append (k : Nat) (s : Scan) (a b : List Char) :
    blocks k s (a ++ b) = (blocks k s a).bind fun j => blocks j (s.run a) b := by
  induction a generalizing k s with
  | nil => rfl
  | cons c a ih =>
    rw [List.cons_append, blocks, blocks]
    split
    · rfl
    · rw [ih, run_cons]

theorem innerBlocks_of_not_brace {c : Char} (h : isBrace c = false) (k : Nat) (s : Scan) :
    innerBlocks k s c = k := by
  simp only [isBrace, Bool.or_eq_false_iff, beq_eq_false_iff_ne] at h
  unfold innerBlocks
  rw [if_neg h.1, if_neg h.2, ite_self]

/-- without bare braces the number of open blocks stays -/
theorem blocks_of_hasBare {s : Scan} {cs : List Char} (h : hasBare isBrace s cs = false) (k : Nat) :
    blocks k s cs = some k := by
  induction cs generalizing s with
  | nil => rfl
  | cons c cs ih =>
    rw [hasBare, Bool.or_eq_false_iff] at h
    have hk : innerBlocks k s c = k ∧ ¬ (s.isBare c && c == '}' && k == 0) = true := by
      cases hb : s.isBare c with
      | false => simp [innerBlocks, hb]
      | true =>
        have hc : isBrace c = false := by rw [hb] at h; exact h.1
        refine ⟨innerBlocks_of_not_brace hc k s, ?_⟩
        simp only [isBrace, Bool.or_eq_false_iff] at hc
        simp [hc.2]
    rw [blocks, if_neg hk.2, hk.1]
    exact ih h.2

/-- inside one more block a text opens and closes as before -/
theorem blocks_succ {k j : Nat} {s : Scan} {cs : List Char} (h : blocks k s cs = some j) :
    blocks (k + 1) s cs = some (j + 1) := by
  induction cs generalizing k s with
  | nil =>
    rw [blocks, Option.some.injEq] at h
    rw [blocks, h]
  | cons c cs ih =>
    rw [blocks] at h ⊢
    split at h
    · simp at h
    · rename_i hc
      rw [if_neg (by simp)]
      have hi : innerBlocks (k + 1) s c = innerBlocks k s c + 1 := by
        unfold innerBlocks
        split
        · rfl
        · split
          · rfl
          · split
            · rename_i hb _ hcl
              simp only [Bool.not_eq_eq_eq_not, Bool.not_true] at hb
              have hk : k ≠ 0 := by
                intro hk
                apply hc
                rw [hcl, hk]
                simp only [beq_self_eq_true, Bool.and_true]
                rw [hcl] at hb
                simpa using hb
              omega
            · rfl
      rw [hi]
      exact ih h

/-! ## the body of a block -/

theorem close_append {k j : Nat} {s : Scan} {a : List Char} (b : List Char)
    (h : blocks k s a = some j) :
    close k s (a ++ b) = (close j (s.run a) b).map fun (body, rest) => (a ++ body, rest) := by
  induction a generalizing k s with
  | nil =>
    rw [blocks, Option.some.injEq] at h
    rw [h, List.nil_append, run_nil]
    exact (Option.map_id' ..).symm
  | cons c a ih =>
    rw [blocks] at h
    split at h
    · simp at h
    · rename_i hc
      rw [List.cons_append, close, if_neg hc, ih h, Option.map_map, run_cons]
      rfl

theorem blocks_of_close {k : Nat} {s : Scan} {cs body rest : List Char}
    (h : close k s cs = some (body, rest)) :
    blocks k s body = some 0 ∧ (s.run body).isBare '}' = true := by
  induction cs generalizing k s body with
  | nil => simp [close] at h
  | cons c cs ih =>
    rw [close] at h
    split at h
    · rename_i hc
      simp only [Option.some.injEq, Prod.mk.injEq] at h
      obtain ⟨rfl, rfl⟩ := h
      simp only [Bool.and_eq_true, beq_iff_eq] at hc
      obtain ⟨⟨h₁, h₂⟩, h₃⟩ := hc
      rw [h₂] at h₁
      exact ⟨by rw [blocks, h₃], h₁⟩
    · rename_i hc
      obtain ⟨⟨b, r⟩, hr, hm⟩ := Option.map_eq_some_iff.mp h
      simp only [Prod.mk.injEq] at hm
      obtain ⟨rfl, rfl⟩ := hm
      obtain ⟨h₁, h₂⟩ := ih hr
      exact ⟨by rw [blocks, if_neg hc, h₁], h₂⟩

theorem exists_of_blocks_eq_none {k : Nat} {s : Scan} {cs : List Char}
    (h : blocks k s cs = none) :
    ∃ body rest, cs = body ++ '}' :: rest ∧ close k s cs = some (body, rest) := by
  induction cs generalizing k s with
  | nil => simp [blocks] at h
  | cons c cs ih =>
    rw [blocks] at h
    split at h
    · rename_i hc
      refine ⟨[], cs, ?_, by rw [close, if_pos hc]⟩
      simp only [Bool.and_eq_true, beq_iff_eq] at hc
      rw [hc.1.2]
      rfl
    · rename_i hc
      obtain ⟨body, rest, he, hcl⟩ := ih h
      exact ⟨c :: body, rest, by rw [he]; rfl, by rw [close, if_neg hc, hcl]; rfl⟩

/-- a body that is found is found whatever follows -/
theorem close_append_of_close {k : Nat} {s : Scan} {a body rest : List Char} (b : List Char)
    (h : close k s a = some (body, rest)) : close k s (a ++ b) = some (body, rest ++ b) := by
  induction a generalizing k s body with
  | nil => simp [close] at h
  | cons c a ih =>
    rw [close] at h
    rw [List.cons_append, close]
    split at h
    · rename_i hc
      simp only [Option.some.injEq, Prod.mk.injEq] at h
      obtain ⟨rfl, rfl⟩ := h
      rw [if_pos hc]
    · rename_i hc
      obtain ⟨⟨x, r⟩, hr, hm⟩ := Option.map_eq_some_iff.mp h
      simp only [Prod.mk.injEq] at hm
      obtain ⟨rfl, rfl⟩ := hm
      rw [if_neg hc, ih hr]
      rfl

/-! ## balanced texts -/

structure Balanced (cs : List Char) : Prop where
  closed : Closed cs
  nested : blocks 0 start cs = some 0

theorem balanced_nil : Balanced [] := ⟨rfl, rfl⟩

theorem Balanced.append {a b : List Char} (ha : Balanced a) (hb : Balanced b) :
    Balanced (a ++ b) := by
  refine ⟨ha.closed.append hb.closed, ?_⟩
  rw [blocks_append, ha.nested, ha.closed]
  exact hb.nested

theorem Plain.balanced {stop : Char → Bool} (hs : ∀ c, isBrace c = true → stop c = true)
    {cs : List Char} (h : Plain stop cs) : Balanced cs :=
  ⟨h.closed, blocks_of_hasBare (hasBare_mono hs h.noBare) 0⟩

/-- what stands behind a balanced text is balanced if the whole is -/
theorem Balanced.of_append {a b : List Char} (ha : Balanced a) (h : Balanced (a ++ b)) :
    Balanced b := by
  refine ⟨closed_of_append ha.closed h.closed, ?_⟩
  have hb := h.nested
  rwa [blocks_append, ha.nested, ha.closed] at hb

theorem balanced_singleton {c : Char} (hc : start.isBare c = true) (hb : isBrace c = false) :
    Balanced [c] := by
  refine ⟨step_start_of_isBare hc, blocks_of_hasBare ?_ 0⟩
  rw [hasBare, hb, Bool.and_false]
  rfl

theorem visible_isBrace : Visible isBrace := by
  intro c hc
  have h₁ : c ≠ '{' := ne_of_isBlank hc rfl
  have h₂ : c ≠ '}' := ne_of_isBlank hc rfl
  simp [isBrace, h₁, h₂]

theorem balanced_blanks {ws : List Char} (h : Blank ws) : Balanced ws :=
  ⟨run_start_blanks h, blocks_of_hasBare (hasBare_blanks visible_isBrace start h) 0⟩

theorem close_balanced {body : List Char} (h : Balanced body) (rest : List Char) :
    close 0 start (body ++ '}' :: rest) = some (body, rest) := by
  rw [close_append _ h.nested, h.closed]
  simp [close, start, isBare, isQuote]

theorem balanced_of_close {cs body rest : List Char} (h : close 0 start cs = some (body, rest)) :
    Balanced body := by
  obtain ⟨h₁, h₂⟩ := blocks_of_close h
  exact ⟨closed_of_isBare h₂, h₁⟩

/-- a balanced text between braces is balanced -/
theorem Balanced.braces {body : List Char} (h : Balanced body) :
    Balanced ('{' :: (body ++ ['}'])) := by
  have h₁ : blocks 1 start body = some 1 := blocks_succ h.nested
  have h₂ : start.run (body ++ ['}']) = start := by
    rw [run_closed h.closed]
    rfl
  refine ⟨h₂, ?_⟩
  show blocks 1 start (body ++ ['}']) = some 0
  rw [blocks_append, h₁, h.closed]
  rfl

/-- a balanced text in front of a block and one behind it -/
theorem Balanced.block {header body rest : List Char} (hh : Balanced header) (hb : Balanced body)
    (hr : Balanced rest) : Balanced (header ++ '{' :: (body ++ '}' :: rest)) := by
  have he : '{' :: (body ++ '}' :: rest) = '{' :: (body ++ ['}']) ++ rest := by simp
  rw [he]
  exact hh.append (hb.braces.append hr)

/-- a balanced text has the closing brace of no block around it, so that its own blocks close -/
theorem Balanced.close_ne_none {a rest : List Char} (ha : Plain isBrace a)
    (h : Balanced (a ++ '{' :: rest)) : close 0 start rest ≠ none := by
  have hb : Balanced ('{' :: rest) :=
    (ha.balanced fun _ hc => hc).of_append h
  have h₁ : blocks 1 start rest = some 0 := hb.nested
  intro hn
  have h₂ : blocks 0 start rest ≠ none := by
    intro he
    obtain ⟨_, _, _, hcl⟩ := exists_of_blocks_eq_none he
    rw [hn] at hcl
    cases hcl
  obtain ⟨j, hj⟩ := Option.ne_none_iff_exists'.mp h₂
  rw [blocks_succ hj] at h₁
  simp at h₁

end CssOptimizer.Scan
