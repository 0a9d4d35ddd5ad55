import CssOptimizer.Text.Occurrence

/-!
# Where a pattern occurs

The search for a pattern goes on behind each occurrence, so that it may pass over others.  It
misses none if what is read opens with a mark and holds no other one.  Nor does it miss what stands
where all occurrences before it have ended.

* `Opened`                     patterns with an opening mark;
* `mem_occurrences_iff`        such a pattern is found wherever it stands;
* `occurrences_eq_nil`         it is not found in texts without its mark;
* `occurrences_of_whole`       a pattern that takes up the whole text;
* `EndsWithin`                 what starts in a text ends in it;
* `mem_occurrences_of_endsWithin`   what stands behind such a text is found.
-/

namespace CssOptimizer.Text

section
variable {α : Type} {m : Pattern α}

/-- what the pattern reads opens with the mark, which does not stand in the rest of it -/
structure Opened (m : Pattern α) (mark : Char) : Prop where
  head : ∀ {before c cs a n}, m before (c :: cs) = some (a, n) → c = mark
  inside : ∀ {before c cs a n}, m before (c :: cs) = some (a, n) → mark ∉ cs.take (n - 1)

/-- the character before a place, in a text with `before` in front of it -/
theorem getLast?_cons_or (x : Char) (pre : List Char) (before : Option Char) :
    (x :: pre).getLast?.or before = pre.getLast?.or (some x) := by
  rw [List.getLast?_cons]
  cases pre.getLast? <;> rfl

theorem exists_of_mem_occurrencesFrom {skip : Nat} {before : Option Char} {cs : List Char} {a : α}
    (h : a ∈ occurrencesFrom m skip before cs) :
    ∃ pre c post n, cs = pre ++ c :: post ∧
      m (pre.getLast?.or before) (c :: post) = some (a, n) := by
  induction cs generalizing skip before with
  | nil =>
    rw [occurrencesFrom_nil] at h
    exact absurd h List.not_mem_nil
  | cons x cs ih =>
    have later {skip : Nat} (h : a ∈ occurrencesFrom m skip (some x) cs) :
        ∃ pre c post n, x :: cs = pre ++ c :: post ∧
          m (pre.getLast?.or before) (c :: post) = some (a, n) := by
      obtain ⟨pre, c, post, n, he, hm⟩ := ih h
      rw [← getLast?_cons_or x pre before] at hm
      exact ⟨x :: pre, c, post, n, by rw [he, List.cons_append], hm⟩
    cases skip with
    | succ skip => exact later h
    | zero =>
      cases hm : m before (x :: cs) with
      | none =>
        rw [occurrencesFrom_none m before x cs hm] at h
        exact later h
      | some r =>
        obtain ⟨b, n⟩ := r
        rw [occurrencesFrom_some m before x cs b n hm] at h
        rcases List.mem_cons.mp h with rfl | h
        · exact ⟨[], x, cs, n, rfl, hm⟩
        · exact later h

theorem exists_of_mem_occurrences {cs : List Char} {a : α} (h : a ∈ occurrences m cs) :
    ∃ pre c post n, cs = pre ++ c :: post ∧ m pre.getLast? (c :: post) = some (a, n) := by
  obtain ⟨pre, c, post, n, he, hm⟩ := exists_of_mem_occurrencesFrom h
  rw [Option.or_none] at hm
  exact ⟨pre, c, post, n, he, hm⟩

/-- a place that is not passed over is found: the characters passed over hold no mark -/
theorem mem_occurrencesFrom {mark : Char} (ho : Opened m mark) {pre post : List Char} {c : Char}
    {skip n : Nat} {before : Option Char} {a : α} (hs : mark ∉ (pre ++ c :: post).take skip)
    (hm : m (pre.getLast?.or before) (c :: post) = some (a, n)) :
    a ∈ occurrencesFrom m skip before (pre ++ c :: post) := by
  induction pre generalizing skip before with
  | nil =>
    cases skip with
    | succ skip =>
      rw [ho.head hm] at hs
      exact absurd List.mem_cons_self hs
    | zero =>
      rw [List.nil_append, occurrencesFrom_some m before c post a n hm]
      exact List.mem_cons_self
  | cons x pre ih =>
    rw [getLast?_cons_or] at hm
    rw [List.cons_append]
    cases skip with
    | succ skip => exact ih (fun h => hs (List.mem_cons_of_mem _ h)) hm
    | zero =>
      cases hx : m before (x :: (pre ++ c :: post)) with
      | none =>
        rw [occurrencesFrom_none m before x _ hx]
        exact ih (by simp) hm
      | some r =>
        obtain ⟨b, k⟩ := r
        rw [occurrencesFrom_some m before x _ b k hx]
        exact List.mem_cons_of_mem _ (ih (ho.inside hx) hm)

theorem mem_occurrences_iff {mark : Char} (ho : Opened m mark) {cs : List Char} {a : α} :
    a ∈ occurrences m cs ↔ ∃ pre c post n, cs = pre ++ c :: post ∧
      m pre.getLast? (c :: post) = some (a, n) := by
  refine ⟨exists_of_mem_occurrences, ?_⟩
  rintro ⟨pre, c, post, n, rfl, hm⟩
  have hnone : m (pre.getLast?.or none) (c :: post) = some (a, n) := by
    rw [Option.or_none]
    exact hm
  exact mem_occurrencesFrom ho (by simp) hnone

theorem occurrences_of_whole {cs : List Char} {a : α} (hne : cs ≠ [])
    (h : m none cs = some (a, cs.length)) : occurrences m cs = [a] := by
  obtain ⟨c, rest, rfl⟩ := List.exists_cons_of_ne_nil hne
  have hskip := occurrencesFrom_skip m (some c) rest []
  rw [List.append_nil, occurrencesFrom_nil] at hskip
  rw [occurrences, occurrencesFrom_some m none c rest a _ h, List.length_cons,
    Nat.add_sub_cancel, hskip]

/-- whatever occurs from a place in `pre` on ends in `pre`, where `post` stands behind it -/
def EndsWithin (m : Pattern α) (post : List Char) : Option Char → List Char → Prop
  | _, [] => True
  | before, c :: pre =>
    (∀ a n, m before (c :: (pre ++ post)) = some (a, n) → n ≤ pre.length + 1) ∧
      EndsWithin m post (some c) pre

theorem mem_occurrencesFrom_of_endsWithin {pre post : List Char} {c : Char} {skip n : Nat}
    {before : Option Char} {a : α} (he : EndsWithin m (c :: post) before pre)
    (hs : skip ≤ pre.length) (hm : m (pre.getLast?.or before) (c :: post) = some (a, n)) :
    a ∈ occurrencesFrom m skip before (pre ++ c :: post) := by
  -- along the text, with what is still taken no longer than what is left before the place
  induction pre generalizing skip before with
  | nil =>
    rw [Nat.le_zero.mp hs, List.nil_append, occurrencesFrom_some m before c post a n hm]
    exact List.mem_cons_self
  | cons x pre ih =>
    rw [getLast?_cons_or] at hm
    rw [List.cons_append]
    cases skip with
    | succ skip => exact ih he.2 (Nat.le_of_succ_le_succ hs) hm
    | zero =>
      cases hx : m before (x :: (pre ++ c :: post)) with
      | none =>
        rw [occurrencesFrom_none m before x _ hx]
        exact ih he.2 (Nat.zero_le _) hm
      | some r =>
        obtain ⟨b, k⟩ := r
        have hk := he.1 b k hx
        rw [occurrencesFrom_some m before x _ b k hx]
        exact List.mem_cons_of_mem _ (ih he.2 (by omega) hm)

theorem mem_occurrences_of_endsWithin {pre post : List Char} {c : Char} {n : Nat} {a : α}
    (he : EndsWithin m (c :: post) none pre) (hm : m pre.getLast? (c :: post) = some (a, n)) :
    a ∈ occurrences m (pre ++ c :: post) := by
  refine mem_occurrencesFrom_of_endsWithin he (Nat.zero_le _) (n := n) ?_
  rw [Option.or_none]
  exact hm

theorem occurrences_eq_nil {mark : Char} (ho : Opened m mark) {cs : List Char} (h : mark ∉ cs) :
    occurrences m cs = [] := by
  rw [List.eq_nil_iff_forall_not_mem]
  intro a ha
  obtain ⟨pre, c, post, n, he, hm⟩ := (mem_occurrences_iff ho).mp ha
  apply h
  rw [he, ← ho.head hm]
  exact List.mem_append_right _ List.mem_cons_self

end
end CssOptimizer.Text
