import CssOptimizer.Text.Blank

/-!
# Trimmed texts between blanks

* `Blank`            texts of blanks only;
* `Trimmed`          texts without blanks at their ends;
* `trim_between`     a trimmed text is what is left when the blanks around it go;
* `exists_trim`      every text is a trimmed one between blanks.
-/

namespace CssOptimizer.Text

/-! ## blanks -/

theorem ne_of_isBlank {c d : Char} (hc : isBlank c = true) (hd : isBlank d = false) : c ≠ d := by
  intro h
  rw [h, hd] at hc
  exact Bool.false_ne_true hc

def Blank (cs : List Char) : Prop := ∀ c ∈ cs, isBlank c = true

instance (cs : List Char) : Decidable (Blank cs) :=
  decidable_of_iff (cs.all isBlank = true) List.all_eq_true

theorem blank_nil : Blank [] := fun _ h => absurd h List.not_mem_nil

theorem blank_cons {c : Char} {cs : List Char} :
    Blank (c :: cs) ↔ isBlank c = true ∧ Blank cs := List.forall_mem_cons

theorem Blank.append {a b : List Char} (ha : Blank a) (hb : Blank b) : Blank (a ++ b) :=
  List.forall_mem_append.mpr ⟨ha, hb⟩

theorem blank_replicate (n : Nat) : Blank (List.replicate n ' ') := by
  intro c hc
  rw [List.eq_of_mem_replicate hc]
  rfl

/-! ## trimmed texts -/

def Trimmed (cs : List Char) : Prop := trim cs = cs

instance (cs : List Char) : Decidable (Trimmed cs) := inferInstanceAs (Decidable (_ = _))

theorem trimmed_nil : Trimmed [] := rfl

theorem trimmed_trim (cs : List Char) : Trimmed (trim cs) := trim_trim cs

theorem Trimmed.start {cs : List Char} (h : Trimmed cs) : trimStart cs = cs := by
  rw [← show trim cs = cs from h]
  exact trimStart_trim cs

theorem Trimmed.end {cs : List Char} (h : Trimmed cs) : trimEnd cs = cs := by
  rw [← show trim cs = cs from h]
  exact trimEnd_trim cs

theorem not_isBlank_of_trimStart {c : Char} {cs : List Char} (h : trimStart (c :: cs) = c :: cs) :
    isBlank c = false := by
  rw [Bool.eq_false_iff]
  intro hc
  have hl : (trimStart cs).length ≤ cs.length := (List.dropWhile_sublist _).length_le
  rw [trimStart, List.dropWhile_cons, if_pos hc] at h
  rw [trimStart, h, List.length_cons] at hl
  omega

theorem trimStart_of_not_isBlank {c : Char} (hc : isBlank c = false) (cs : List Char) :
    trimStart (c :: cs) = c :: cs := by
  rw [trimStart, List.dropWhile_cons, if_neg (by rw [hc]; exact Bool.false_ne_true)]

theorem trimStart_blank {ws : List Char} (h : Blank ws) (cs : List Char) :
    trimStart (ws ++ cs) = trimStart cs := by
  induction ws with
  | nil => rfl
  | cons c ws ih =>
    obtain ⟨hc, hws⟩ := blank_cons.mp h
    rw [List.cons_append, trimStart, List.dropWhile_cons, if_pos hc]
    exact ih hws

/-- blanks before a text go, up to a character that is not blank -/
theorem trimStart_append_cons (a : List Char) {c : Char} (hc : isBlank c = false) (b : List Char) :
    trimStart (a ++ c :: b) = trimStart a ++ c :: b := by
  rw [trimStart, List.dropWhile_append, trimStart]
  split
  · rename_i he
    rw [List.isEmpty_iff.mp he]
    exact trimStart_of_not_isBlank hc b
  · rfl

/-- what is dropped at the end may be put back -/
theorem dropEndWhile_append {p : Char → Bool} {gone : List Char} (h : ∀ c ∈ gone, p c = true)
    (cs : List Char) : dropEndWhile p (cs ++ gone) = dropEndWhile p cs := by
  have hgone : ∀ c ∈ gone.reverse, p c = true := fun c hc => h c (List.mem_reverse.mp hc)
  rw [dropEndWhile, List.reverse_append, List.dropWhile_append_of_pos hgone, dropEndWhile]

theorem trimEnd_blank {ws : List Char} (h : Blank ws) (cs : List Char) :
    trimEnd (cs ++ ws) = trimEnd cs := dropEndWhile_append h cs

/-- a character that is not blank keeps what stands before it -/
theorem trimEnd_append_cons (a : List Char) {c : Char} (hc : isBlank c = false) (b : List Char) :
    trimEnd (a ++ c :: b) = a ++ c :: trimEnd b := by
  unfold trimEnd dropEndWhile
  have h : (List.dropWhile isBlank ([c] ++ a.reverse)) = [c] ++ a.reverse :=
    trimStart_of_not_isBlank hc _
  rw [List.reverse_append, List.reverse_cons, List.append_assoc, List.dropWhile_append, h]
  split
  · rename_i he
    rw [List.isEmpty_iff.mp he]
    simp
  · simp

theorem trim_between {a b cs : List Char} (ha : Blank a) (hb : Blank b) (h : Trimmed cs) :
    trim (a ++ cs ++ b) = cs := by
  rw [trim, List.append_assoc, trimStart_blank ha]
  cases cs with
  | nil =>
    have hb' : trimStart b = [] := by
      have := trimStart_blank hb []
      rwa [List.append_nil] at this
    rw [List.nil_append, hb']
    rfl
  | cons c cs =>
    rw [List.cons_append, trimStart_of_not_isBlank (not_isBlank_of_trimStart h.start),
      ← List.cons_append, trimEnd_blank hb, h.end]

theorem trim_blank {ws : List Char} (h : Blank ws) : trim ws = [] := by
  have := trim_between h blank_nil trimmed_nil
  rwa [List.append_nil, List.append_nil] at this

theorem blank_takeWhile (cs : List Char) : Blank (cs.takeWhile isBlank) :=
  fun c hc => List.all_eq_true.mp List.all_takeWhile c hc

theorem exists_trimStart (cs : List Char) : ∃ a, Blank a ∧ cs = a ++ trimStart cs :=
  ⟨cs.takeWhile isBlank, blank_takeWhile cs, (List.takeWhile_append_dropWhile ..).symm⟩

theorem exists_trimEnd (cs : List Char) : ∃ b, Blank b ∧ cs = trimEnd cs ++ b := by
  obtain ⟨gone, hg, he⟩ := exists_dropEndWhile_append isBlank cs
  exact ⟨gone, hg, he.symm⟩

theorem exists_trim (cs : List Char) : ∃ a b, Blank a ∧ Blank b ∧ cs = a ++ trim cs ++ b := by
  obtain ⟨a, ha, hs⟩ := exists_trimStart cs
  obtain ⟨b, hb, he⟩ := exists_trimEnd (trimStart cs)
  refine ⟨a, b, ha, hb, ?_⟩
  rw [List.append_assoc]
  exact hs.trans (congrArg (a ++ ·) he)

/-- a text of which nothing is left is blank -/
theorem blank_of_trim {cs : List Char} (h : trim cs = []) : Blank cs := by
  obtain ⟨a, b, ha, hb, he⟩ := exists_trim cs
  rw [he, h, List.append_nil]
  exact ha.append hb

/-- blanks behind a text go with those at its end -/
theorem trim_append_blank (cs : List Char) {ws : List Char} (h : Blank ws) :
    trim (cs ++ ws) = trim cs := by
  obtain ⟨a, b, ha, hb, he⟩ := exists_trim cs
  have ht := trim_between ha (hb.append h) (trimmed_trim cs)
  rwa [← List.append_assoc, ← he] at ht

theorem trim_trimEnd (cs : List Char) : trim (trimEnd cs) = trim cs := by
  obtain ⟨b, hb, he⟩ := exists_trimEnd cs
  rw [← trim_append_blank (trimEnd cs) hb, ← he]

/-- the last character of a trimmed text is not blank -/
theorem Trimmed.exists_last {cs : List Char} (h : Trimmed cs) (hne : cs ≠ []) :
    ∃ init last, cs = init ++ [last] ∧ isBlank last = false := by
  obtain ⟨init, last, rfl⟩ := (List.eq_nil_or_concat cs).resolve_left hne
  refine ⟨init, last, List.concat_eq_append, ?_⟩
  rw [List.concat_eq_append] at h
  have he : (if isBlank last then dropEndWhile isBlank init else init ++ [last]) = init ++ [last] :=
    (dropEndWhile_append_singleton isBlank init last).symm.trans h.end
  cases hl : isBlank last with
  | false => rfl
  | true =>
    rw [hl, if_pos rfl] at he
    obtain ⟨gone, -, hinit⟩ := exists_dropEndWhile_append isBlank init
    have hlength := congrArg List.length hinit
    rw [he, List.length_append, List.length_append, List.length_singleton] at hlength
    omega

theorem Trimmed.trimEnd_append {a : List Char} (h : Trimmed a) (hne : a ≠ []) (b : List Char) :
    trimEnd (a ++ b) = a ++ trimEnd b := by
  obtain ⟨init, last, rfl, hlast⟩ := h.exists_last hne
  rw [List.append_assoc, List.append_assoc]
  exact trimEnd_append_cons init hlast b

/-- what stands between two trimmed texts does not matter -/
theorem Trimmed.append {a b : List Char} (ha : Trimmed a) (hne : a ≠ []) (hb : Trimmed b)
    (hne' : b ≠ []) (between : List Char) : Trimmed (a ++ (between ++ b)) := by
  obtain ⟨c, cs, rfl⟩ := List.exists_cons_of_ne_nil hne
  obtain ⟨init, last, rfl, hlast⟩ := hb.exists_last hne'
  rw [Trimmed, trim, List.cons_append, trimStart_of_not_isBlank (not_isBlank_of_trimStart ha.start),
    ← List.cons_append, ha.trimEnd_append hne, ← List.append_assoc,
    trimEnd_append_cons _ hlast]
  rfl

/-- a word keeps what stands before it -/
theorem trimEnd_word {a : List Char} (ha : ∀ c ∈ a, isBlank c = false) (b : List Char) :
    trimEnd (a ++ b) = a ++ trimEnd b := by
  induction a with
  | nil => rfl
  | cons c a ih =>
    obtain ⟨hc, ha⟩ := List.forall_mem_cons.mp ha
    have h := trimEnd_append_cons [] hc (a ++ b)
    rw [List.nil_append, List.nil_append, ih ha] at h
    exact h

theorem trimmed_of_not_isBlank {cs : List Char} (h : ∀ c ∈ cs, isBlank c = false) :
    Trimmed cs := by
  have hstart : trimStart cs = cs := by
    cases cs with
    | nil => rfl
    | cons c cs => exact trimStart_of_not_isBlank (h c List.mem_cons_self) cs
  have hend := trimEnd_word h []
  rw [List.append_nil, show trimEnd [] = [] from rfl, List.append_nil] at hend
  rw [Trimmed, trim, hstart, hend]

/-! ## first cuts -/

theorem cutAt_append {p : Char → Bool} {a rest : List Char} {d : Char}
    (ha : ∀ c ∈ a, p c = false) (hd : p d = true) :
    cutAt p (a ++ d :: rest) = some (a, d, rest) := by
  induction a with
  | nil => rw [List.nil_append, cutAt, if_pos hd]
  | cons c a ih =>
    obtain ⟨hc, ha⟩ := List.forall_mem_cons.mp ha
    rw [List.cons_append, cutAt, if_neg (by rw [hc]; exact Bool.false_ne_true), ih ha]
    rfl

theorem cutAt_spec {p : Char → Bool} {cs before rest : List Char} {d : Char}
    (h : cutAt p cs = some (before, d, rest)) : (∀ c ∈ before, p c = false) ∧ p d = true := by
  induction cs generalizing before with
  | nil => simp [cutAt] at h
  | cons c cs ih =>
    rw [cutAt] at h
    split at h
    · rename_i hc
      simp only [Option.some.injEq, Prod.mk.injEq] at h
      obtain ⟨rfl, rfl, rfl⟩ := h
      exact ⟨fun _ hm => absurd hm List.not_mem_nil, hc⟩
    · rename_i hc
      obtain ⟨⟨b, e, r⟩, hr, hm⟩ := Option.map_eq_some_iff.mp h
      simp only [Prod.mk.injEq] at hm
      obtain ⟨rfl, rfl, rfl⟩ := hm
      obtain ⟨h₁, h₂⟩ := ih hr
      exact ⟨List.forall_mem_cons.mpr ⟨Bool.eq_false_iff.mpr hc, h₁⟩, h₂⟩

end CssOptimizer.Text
