import CssOptimizer.Proofs.Text.Trim
import CssOptimizer.Sheet.Scan

/-!
# Texts that a scan passes over

* `Scan.Sound`        the states that a scan can reach: only a quote opens a string;
* `Scan.unescape`     the state with a pending backslash forgotten;
* `Scan.Plain stop`   texts that close what they open and have no bare character in `stop`.

A plain text in front of a bare delimiter is what a cut finds (`cut_plain`) and what a split
gives (`split_plain`), and the other way round: what a cut finds and what a split of a closed
text gives is plain (`plain_of_cut`, `plain_of_mem_split`).  What a cut finds it finds whatever else
stands behind the text (`cut_append_of_cut`).

Quiet characters, such as blanks, only make a scan forget a pending backslash (`run_quiet`), which
the next character does as well unless it is a quote or a backslash (`step_run_quiet`).
-/

namespace CssOptimizer

namespace Scan
open Text

/-! ## reachable states -/

def Sound : Scan → Prop
  | outside _ => True
  | inside quote _ _ => isQuote quote = true

theorem sound_start : start.Sound := trivial

theorem Sound.step {s : Scan} (h : s.Sound) (c : Char) : (s.step c).Sound := by
  cases s with
  | outside p =>
    rw [Scan.step]
    split
    · assumption
    · split
      · trivial
      · split <;> trivial
  | inside q e p =>
    cases e with
    | true => exact h
    | false =>
      rw [Scan.step]
      split
      · exact h
      · split
        · trivial
        · exact h

theorem Sound.run {s : Scan} (h : s.Sound) (cs : List Char) : (s.run cs).Sound := by
  induction cs generalizing s with
  | nil => exact h
  | cons c cs ih => exact ih (h.step c)

/-! ## bare characters -/

theorem eq_start_of_isBare {s : Scan} {c : Char} (h : s.isBare c = true) : s = start :=
  (step_of_isBare h).1

theorem step_start_of_isBare {c : Char} (h : start.isBare c = true) : start.step c = start :=
  (step_of_isBare h).2

theorem hasBare_append (stop : Char → Bool) (s : Scan) (a b : List Char) :
    hasBare stop s (a ++ b) = (hasBare stop s a || hasBare stop (s.run a) b) := by
  induction a generalizing s with
  | nil => rfl
  | cons c a ih => rw [List.cons_append, hasBare, hasBare, ih, run_cons, Bool.or_assoc]

theorem hasBare_mono {p q : Char → Bool} (hpq : ∀ c, p c = true → q c = true) {s : Scan}
    {cs : List Char} (h : hasBare q s cs = false) : hasBare p s cs = false := by
  induction cs generalizing s with
  | nil => rfl
  | cons c cs ih =>
    rw [hasBare, Bool.or_eq_false_iff, Bool.and_eq_false_iff] at h ⊢
    refine ⟨?_, ih h.2⟩
    rcases h.1 with h | h
    · exact Or.inl h
    · refine Or.inr (Bool.eq_false_iff.mpr fun hp => ?_)
      rw [hpq c hp] at h
      exact Bool.false_ne_true h.symm

theorem hasBare_of_forall {stop : Char → Bool} {cs : List Char} (h : ∀ c ∈ cs, stop c = false)
    (s : Scan) : hasBare stop s cs = false := by
  induction cs generalizing s with
  | nil => rfl
  | cons c cs ih =>
    obtain ⟨hc, hcs⟩ := List.forall_mem_cons.mp h
    rw [hasBare, hc, Bool.and_false, ih hcs]
    rfl

/-! ## cuts -/

theorem cut_append {stop : Char → Bool} {s : Scan} {a rest : List Char} {d : Char}
    (ha : hasBare stop s a = false) (hd : (s.run a).isBare d = true) (hs : stop d = true) :
    cut stop s (a ++ d :: rest) = some (a, d, rest) := by
  induction a generalizing s with
  | nil =>
    have hd' : s.isBare d = true := hd
    rw [List.nil_append, cut, if_pos (by rw [hd', hs]; rfl)]
  | cons c a ih =>
    rw [hasBare, Bool.or_eq_false_iff] at ha
    rw [List.cons_append, cut, if_neg (by rw [ha.1]; exact Bool.false_ne_true), ih ha.2 hd]
    rfl

theorem cut_eq_none_iff {stop : Char → Bool} {s : Scan} {cs : List Char} :
    cut stop s cs = none ↔ hasBare stop s cs = false := by
  induction cs generalizing s with
  | nil => exact ⟨fun _ => rfl, fun _ => rfl⟩
  | cons c cs ih =>
    rw [cut, hasBare]
    cases hc : s.isBare c && stop c with
    | true => simp
    | false => simp [ih]

theorem hasBare_of_cut {stop : Char → Bool} {s : Scan} {cs before rest : List Char} {d : Char}
    (h : cut stop s cs = some (before, d, rest)) :
    hasBare stop s before = false ∧ (s.run before).isBare d = true := by
  induction cs generalizing s before with
  | nil => simp [cut] at h
  | cons c cs ih =>
    rw [cut] at h
    split at h
    · rename_i hc
      simp only [Option.some.injEq, Prod.mk.injEq] at h
      obtain ⟨rfl, rfl, rfl⟩ := h
      simp only [Bool.and_eq_true] at hc
      exact ⟨rfl, hc.1⟩
    · rename_i hc
      obtain ⟨⟨b, e, r⟩, hr, hm⟩ := Option.map_eq_some_iff.mp h
      simp only [Prod.mk.injEq] at hm
      obtain ⟨rfl, rfl, rfl⟩ := hm
      obtain ⟨h₁, h₂⟩ := ih hr
      exact ⟨by rw [hasBare, h₁, Bool.eq_false_iff.mpr hc]; rfl, h₂⟩

theorem cut_append_of_cut {stop : Char → Bool} {s : Scan} {a before rest : List Char}
    {d : Char} (h : cut stop s a = some (before, d, rest)) (b : List Char) :
    cut stop s (a ++ b) = some (before, d, rest ++ b) := by
  obtain ⟨hbefore, hd⟩ := hasBare_of_cut h
  obtain ⟨rfl, hstop⟩ := cut_eq_some h
  rw [List.append_assoc]
  exact cut_append hbefore hd hstop

/-- a text without delimiters in front stays in front of the cut -/
theorem cut_append_right {stop : Char → Bool} {s : Scan} {a : List Char}
    (h : hasBare stop s a = false) (b : List Char) :
    cut stop s (a ++ b) =
      (cut stop (s.run a) b).map fun (before, d, rest) => (a ++ before, d, rest) := by
  induction a generalizing s with
  | nil => exact (Option.map_id' ..).symm
  | cons c a ih =>
    rw [hasBare, Bool.or_eq_false_iff] at h
    rw [List.cons_append, cut, if_neg (by rw [h.1]; exact Bool.false_ne_true), ih h.2,
      Option.map_map, run_cons]
    rfl

/-! ## splits -/

theorem split_append {d : Char} {s : Scan} {a rest : List Char}
    (ha : hasBare (· == d) s a = false) (hd : (s.run a).isBare d = true) :
    split d s (a ++ d :: rest) = a :: split d start rest := by
  induction a generalizing s with
  | nil =>
    obtain ⟨h₁, h₂⟩ := step_of_isBare (show s.isBare d = true from hd)
    have hd' : s.isBare d = true := hd
    rw [List.nil_append, split, if_pos (by rw [hd', beq_self_eq_true]; rfl), h₂, h₁]
  | cons c a ih =>
    rw [hasBare, Bool.or_eq_false_iff] at ha
    rw [List.cons_append, split, if_neg (by rw [ha.1]; exact Bool.false_ne_true), ih ha.2 hd]
    rfl

theorem split_of_hasBare {d : Char} {s : Scan} {cs : List Char}
    (h : hasBare (· == d) s cs = false) : split d s cs = [cs] := by
  induction cs generalizing s with
  | nil => rfl
  | cons c cs ih =>
    rw [hasBare, Bool.or_eq_false_iff] at h
    rw [split, if_neg (by rw [h.1]; exact Bool.false_ne_true), ih h.2]
    rfl

/-! ## plain texts -/

/-- a text that closes its strings and parentheses and has no bare character in `stop` -/
structure Plain (stop : Char → Bool) (cs : List Char) : Prop where
  closed : Closed cs
  noBare : hasBare stop start cs = false

instance (stop : Char → Bool) (cs : List Char) : Decidable (Plain stop cs) :=
  decidable_of_iff (Closed cs ∧ hasBare stop start cs = false)
    ⟨fun h => ⟨h.1, h.2⟩, fun h => ⟨h.closed, h.noBare⟩⟩

section
variable {stop : Char → Bool}

theorem Plain.append {a b : List Char} (ha : Plain stop a) (hb : Plain stop b) :
    Plain stop (a ++ b) := by
  refine ⟨ha.closed.append hb.closed, ?_⟩
  rw [hasBare_append, ha.noBare, ha.closed, hb.noBare]
  rfl

theorem Plain.mono {p q : Char → Bool} (hpq : ∀ c, p c = true → q c = true) {cs : List Char}
    (h : Plain q cs) : Plain p cs := ⟨h.closed, hasBare_mono hpq h.noBare⟩

/-- the text in front of a bare character is closed -/
theorem closed_of_isBare {a : List Char} {d : Char} (h : (start.run a).isBare d = true) :
    Closed a := eq_start_of_isBare h

theorem closed_of_append {a b : List Char} (ha : Closed a) (h : Closed (a ++ b)) : Closed b := by
  rwa [Closed, run_closed ha] at h

theorem cut_plain {a rest : List Char} {d : Char} (ha : Plain stop a)
    (hd : start.isBare d = true) (hs : stop d = true) :
    cut stop start (a ++ d :: rest) = some (a, d, rest) :=
  cut_append ha.noBare (by rw [ha.closed]; exact hd) hs

theorem plain_of_cut {cs before rest : List Char} {d : Char}
    (h : cut stop start cs = some (before, d, rest)) :
    Plain stop before ∧ start.isBare d = true := by
  obtain ⟨h₁, h₂⟩ := hasBare_of_cut h
  have hb : Closed before := closed_of_isBare h₂
  rw [hb] at h₂
  exact ⟨⟨hb, h₁⟩, h₂⟩

theorem split_plain {a rest : List Char} {d : Char} (ha : Plain (· == d) a)
    (hd : start.isBare d = true) :
    split d start (a ++ d :: rest) = a :: split d start rest :=
  split_append ha.noBare (by rw [ha.closed]; exact hd)

theorem plain_of_mem_split {d : Char} {cs seg : List Char} (h : Closed cs)
    (hm : seg ∈ split d start cs) : Plain (· == d) seg := by
  -- the induction is on the number of characters left to split
  induction hn : cs.length using Nat.strongRecOn generalizing cs with
  | ind n ih =>
    cases hc : cut (· == d) start cs with
    | none =>
      have hb := cut_eq_none_iff.mp hc
      rw [split_of_hasBare hb, List.mem_singleton] at hm
      rw [hm]
      exact ⟨h, hb⟩
    | some r =>
      obtain ⟨a, e, rest⟩ := r
      obtain ⟨hcs, he⟩ := cut_eq_some hc
      obtain ⟨ha, hbare⟩ := plain_of_cut hc
      have hed : e = d := eq_of_beq he
      rw [hed] at hcs hbare
      have hlen : rest.length < n := by
        rw [← hn, hcs, List.length_append, List.length_cons]
        omega
      have hrest : Closed rest := by
        have h₁ : Closed (d :: rest) := closed_of_append ha.closed (hcs ▸ h)
        rwa [Closed, run_cons, step_start_of_isBare hbare] at h₁
      rw [hcs, split_plain ha hbare] at hm
      rcases List.mem_cons.mp hm with rfl | hm
      · exact ha
      · exact ih rest.length hlen hrest hm rfl

end

/-! ## quiet characters -/

def unescape : Scan → Scan
  | outside p => outside p
  | inside q _ p => inside q false p

theorem unescape_unescape (s : Scan) : s.unescape.unescape = s.unescape := by
  cases s <;> rfl

theorem unescape_eq_start {s : Scan} (h : s.unescape = start) : s = start := by
  cases s with
  | outside p => exact h
  | inside q e p => exact absurd h (by simp [unescape, start])

theorem Sound.unescape {s : Scan} (hs : s.Sound) : s.unescape.Sound := by
  cases s <;> exact hs

/-- characters that are neither quotes nor parentheses nor backslashes -/
def Quiet (cs : List Char) : Prop :=
  ∀ c ∈ cs, isQuote c = false ∧ c ≠ '(' ∧ c ≠ ')' ∧ c ≠ '\\'

theorem Quiet.mono {a b : List Char} (h : Quiet b) (hab : ∀ c ∈ a, c ∈ b) : Quiet a :=
  fun c hc => h c (hab c hc)

theorem quiet_of_blank {ws : List Char} (h : Blank ws) : Quiet ws := by
  intro c hc
  have hb := h c hc
  have h₁ : c ≠ '\x22' := ne_of_isBlank hb rfl
  have h₂ : c ≠ '\x27' := ne_of_isBlank hb rfl
  exact ⟨by simp [isQuote, h₁, h₂], ne_of_isBlank hb rfl, ne_of_isBlank hb rfl,
    ne_of_isBlank hb rfl⟩

theorem isQuote_ne {q c : Char} (hq : isQuote q = true) (hc : isQuote c = false) : c ≠ q := by
  intro h
  rw [h, hq] at hc
  exact Bool.false_ne_true hc.symm

theorem Sound.step_quiet {s : Scan} (hs : s.Sound) {c : Char} (h : Quiet [c]) :
    s.step c = s.unescape := by
  obtain ⟨hq, ho, hc, hb⟩ := h c (List.mem_singleton_self c)
  cases s with
  | outside p => simp [Scan.step, Scan.unescape, hq, ho, hc]
  | inside q e p =>
    cases e with
    | true => rfl
    | false => simp [Scan.step, Scan.unescape, hb, isQuote_ne hs hq]

theorem Sound.step_unescape {s : Scan} (hs : s.Sound) {c : Char} (hq : isQuote c = false)
    (hb : c ≠ '\\') : s.unescape.step c = s.step c := by
  cases s with
  | outside p => rfl
  | inside q e p =>
    cases e with
    | true => simp [Scan.step, Scan.unescape, hb, isQuote_ne hs hq]
    | false => rfl

theorem Sound.run_quiet {s : Scan} (hs : s.Sound) {cs : List Char} (h : Quiet cs)
    (hne : cs ≠ []) : s.run cs = s.unescape := by
  induction cs generalizing s with
  | nil => exact absurd rfl hne
  | cons c cs ih =>
    rw [run_cons, hs.step_quiet (h.mono (by simp))]
    by_cases he : cs = []
    · rw [he, run_nil]
    · rw [ih hs.unescape (h.mono fun d hd => List.mem_cons_of_mem c hd) he, unescape_unescape]

theorem run_start_quiet {cs : List Char} (h : Quiet cs) : start.run cs = start := by
  by_cases he : cs = []
  · rw [he, run_nil]
  · rw [sound_start.run_quiet h he]
    rfl

theorem Sound.step_run_quiet {s : Scan} (hs : s.Sound) {cs : List Char} (h : Quiet cs) {c : Char}
    (hq : isQuote c = false) (hb : c ≠ '\\') : (s.run cs).step c = s.step c := by
  by_cases he : cs = []
  · rw [he, run_nil]
  · rw [hs.run_quiet h he, hs.step_unescape hq hb]

/-- quiet characters close nothing -/
theorem Sound.eq_start_of_run_quiet {s : Scan} (hs : s.Sound) {cs : List Char} (h : Quiet cs)
    (hr : s.run cs = start) : s = start := by
  by_cases he : cs = []
  · rwa [he, run_nil] at hr
  · rw [hs.run_quiet h he] at hr
    exact unescape_eq_start hr

/-- a plain text does not end in a quiet delimiter, which would be bare there -/
theorem Plain.getLast?_ne {d : Char} (hd : Quiet [d]) (hbare : start.isBare d = true)
    {cs : List Char} (h : Plain (· == d) cs) : cs.getLast? ≠ some d := by
  intro hl
  obtain ⟨init, rfl⟩ := List.getLast?_eq_some_iff.mp hl
  have hrun : (start.run init).run [d] = start := by
    rw [← run_append]
    exact h.closed
  have hinit : start.run init = start := (sound_start.run init).eq_start_of_run_quiet hd hrun
  have hno := h.noBare
  rw [hasBare_append, hinit, hasBare, hbare, beq_self_eq_true] at hno
  simp at hno

theorem run_start_blanks {ws : List Char} (h : Blank ws) : start.run ws = start :=
  run_start_quiet (quiet_of_blank h)

/-! ## blanks -/

/-- a kind of delimiter that no blank is of -/
def Visible (stop : Char → Bool) : Prop := ∀ c, isBlank c = true → stop c = false

theorem hasBare_blanks {stop : Char → Bool} (hv : Visible stop) (s : Scan) {ws : List Char}
    (h : Blank ws) : hasBare stop s ws = false :=
  hasBare_of_forall (fun c hc => hv c (h c hc)) s

theorem visible_beq {d : Char} (hd : isBlank d = false) : Visible (· == d) := by
  intro c hc
  exact beq_eq_false_iff_ne.mpr (ne_of_isBlank hc hd)

end Scan
end CssOptimizer
