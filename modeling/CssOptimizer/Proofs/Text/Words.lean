import CssOptimizer.Proofs.Text.Trim

/-!
# Words of a text

* `pieces_append_cons`   a text is cut in two at a character in `p`;
* `EndsIn`, `StartsIn`   what stands next to a run that ends at its sides;
* `mem_pieces_iff`       the pieces are what stands between two such characters or the ends;
* `WordAt`               a word with what stands before and behind it;
* `mem_words_iff`        the words are the longest runs without a blank.
-/

namespace CssOptimizer.Text

/-! ## pieces -/

section
variable {p : Char → Bool}

theorem pieces_append_cons {d : Char} (hd : p d = true) (u v : List Char) :
    pieces p (u ++ d :: v) = pieces p u ++ pieces p v := by
  induction u with
  | nil =>
    rw [List.nil_append, pieces_nil]
    exact if_pos hd
  | cons c u ih =>
    rw [List.cons_append, pieces, pieces, ih]
    split
    · rfl
    · cases h : pieces p u with
      | nil => exact absurd h (pieces_ne_nil p u)
      | cons x xs => rfl

theorem pieces_of_forall {x : List Char} (h : ∀ c ∈ x, p c = false) : pieces p x = [x] := by
  induction x with
  | nil => rfl
  | cons c x ih =>
    obtain ⟨hc, hx⟩ := List.forall_mem_cons.mp h
    rw [pieces, hc, ih hx]
    rfl

theorem cutAt_eq_none {cs : List Char} (h : cutAt p cs = none) : ∀ c ∈ cs, p c = false := by
  induction cs with
  | nil => exact fun c hc => absurd hc List.not_mem_nil
  | cons c cs ih =>
    rw [cutAt] at h
    split at h
    · simp at h
    · rename_i hc
      exact List.forall_mem_cons.mpr ⟨Bool.eq_false_iff.mpr hc, ih (Option.map_eq_none_iff.mp h)⟩

/-- a text without `d` that stands on one side of a `d` -/
theorem append_cons_eq_append {d : Char} {u v a w b : List Char} (hne : w ≠ []) (hw : d ∉ w)
    (h : u ++ d :: v = a ++ (w ++ b)) :
    (∃ y, u = a ++ (w ++ y) ∧ b = y ++ d :: v) ∨ (∃ x, a = u ++ d :: x ∧ v = x ++ (w ++ b)) := by
  rcases List.append_eq_append_iff.mp h with ⟨x, ha, hv⟩ | ⟨x, hu, hwb⟩
  · right
    cases x with
    | nil =>
      obtain ⟨e, w, rfl⟩ := List.exists_cons_of_ne_nil hne
      rw [List.nil_append, List.cons_append, List.cons.injEq] at hv
      exact absurd (hv.1 ▸ List.mem_cons_self) hw
    | cons e x =>
      rw [List.cons_append, List.cons.injEq] at hv
      exact ⟨x, by rw [ha, hv.1], hv.2⟩
  · left
    rcases List.append_eq_append_iff.mp hwb with ⟨y, hx, hb⟩ | ⟨y, hwy, hv⟩
    · exact ⟨y, by rw [hu, hx], hb⟩
    · cases y with
      | nil =>
        rw [List.append_nil] at hwy
        exact ⟨[], by rw [hu, hwy, List.append_nil], hv.symm⟩
      | cons e y =>
        rw [List.cons_append, List.cons.injEq] at hv
        rw [hwy, hv.1] at hw
        exact absurd (List.mem_append_right _ List.mem_cons_self) hw

def EndsIn (p : Char → Bool) (cs : List Char) : Prop := ∀ c ∈ cs.getLast?, p c = true

def StartsIn (p : Char → Bool) (cs : List Char) : Prop := ∀ c ∈ cs.head?, p c = true

theorem endsIn_nil : EndsIn p [] := fun c hc => by simp at hc

theorem startsIn_nil : StartsIn p [] := fun c hc => by simp at hc

theorem endsIn_concat {d : Char} (hd : p d = true) (init : List Char) : EndsIn p (init ++ [d]) := by
  intro c hc
  rw [List.getLast?_concat, Option.mem_some_iff] at hc
  rw [← hc]
  exact hd

theorem startsIn_cons {d : Char} (hd : p d = true) (rest : List Char) : StartsIn p (d :: rest) := by
  intro c hc
  rw [List.head?_cons, Option.mem_some_iff] at hc
  rw [← hc]
  exact hd

theorem EndsIn.cases {cs : List Char} (h : EndsIn p cs) :
    cs = [] ∨ ∃ init d, cs = init ++ [d] ∧ p d = true := by
  rcases List.eq_nil_or_concat cs with rfl | ⟨init, d, he⟩
  · exact Or.inl rfl
  · rw [List.concat_eq_append] at he
    refine Or.inr ⟨init, d, he, h d ?_⟩
    rw [he, List.getLast?_concat]
    rfl

theorem StartsIn.cases {cs : List Char} (h : StartsIn p cs) :
    cs = [] ∨ ∃ d rest, cs = d :: rest ∧ p d = true := by
  cases cs with
  | nil => exact Or.inl rfl
  | cons d rest => exact Or.inr ⟨d, rest, rfl, h d rfl⟩

theorem endsIn_append_iff {cs : List Char} (h : cs ≠ []) (u : List Char) :
    EndsIn p (u ++ cs) ↔ EndsIn p cs := by
  unfold EndsIn
  rw [List.getLast?_append, List.getLast?_eq_some_getLast h, Option.some_or]

theorem startsIn_append_iff {cs : List Char} (h : cs ≠ []) (v : List Char) :
    StartsIn p (cs ++ v) ↔ StartsIn p cs := by
  unfold StartsIn
  rw [List.head?_append, List.head?_eq_some_head h, Option.some_or]

/-- the last of some characters in `p` is one of them -/
theorem endsIn_append_of_forall {cs : List Char} (hne : cs ≠ []) (h : ∀ c ∈ cs, p c = true)
    (u : List Char) : EndsIn p (u ++ cs) :=
  (endsIn_append_iff hne u).mpr fun c hc => h c (List.mem_of_getLast? hc)

theorem EndsIn.append_cons {d : Char} (hd : p d = true) {cs : List Char} (h : EndsIn p cs)
    (u : List Char) : EndsIn p (u ++ d :: cs) := by
  rw [endsIn_append_iff (List.cons_ne_nil d cs)]
  rcases h.cases with rfl | ⟨init, e, rfl, he⟩
  · exact endsIn_concat hd []
  · exact endsIn_concat he (d :: init)

theorem startsIn_dropWhile (p : Char → Bool) (cs : List Char) :
    StartsIn (!p ·) (cs.dropWhile p) := by
  induction cs with
  | nil => exact startsIn_nil
  | cons c cs ih =>
    rw [List.dropWhile_cons]
    split
    · exact ih
    · rename_i hc
      exact startsIn_cons ((Bool.not_eq_true' _).mpr (Bool.eq_false_iff.mpr hc)) cs

theorem endsIn_dropEndWhile (p : Char → Bool) (cs : List Char) :
    EndsIn (!p ·) (dropEndWhile p cs) := by
  intro c hc
  rw [dropEndWhile, List.getLast?_reverse] at hc
  exact startsIn_dropWhile p cs.reverse c hc

/-- nothing is dropped from a text that does not end in `p` -/
theorem dropEndWhile_eq_self {cs : List Char} (h : EndsIn (!p ·) cs) :
    dropEndWhile p cs = cs := by
  rcases h.cases with rfl | ⟨init, d, rfl, hd⟩
  · rfl
  · rw [dropEndWhile_append_singleton, (Bool.not_eq_true' _).mp hd]
    rfl

/-- a run of characters in `p` ends where none of them follows -/
theorem takeWhile_append {a rest : List Char} (ha : ∀ c ∈ a, p c = true)
    (hr : StartsIn (!p ·) rest) : (a ++ rest).takeWhile p = a := by
  have hrest : rest.takeWhile p = [] := by
    rcases hr.cases with rfl | ⟨d, rest, rfl, hd⟩
    · rfl
    · rw [List.takeWhile_cons, (Bool.not_eq_true' _).mp hd]
      rfl
  rw [List.takeWhile_append_of_pos ha, hrest, List.append_nil]

theorem dropWhile_append {a rest : List Char} (ha : ∀ c ∈ a, p c = true)
    (hr : StartsIn (!p ·) rest) : (a ++ rest).dropWhile p = rest := by
  have h : (a ++ rest).takeWhile p ++ (a ++ rest).dropWhile p = a ++ rest :=
    List.takeWhile_append_dropWhile
  rw [takeWhile_append ha hr] at h
  exact List.append_cancel_left h

/-- what stands between two characters in `p`, or one of them and an end of the text, is a
piece -/
theorem mem_pieces_of_between {a x b : List Char} (ha : EndsIn p a) (hx : ∀ c ∈ x, p c = false)
    (hb : StartsIn p b) : x ∈ pieces p (a ++ (x ++ b)) := by
  have hrest : x ∈ pieces p (x ++ b) := by
    rcases hb.cases with rfl | ⟨d, rest, rfl, hd⟩
    · rw [List.append_nil, pieces_of_forall hx]
      exact List.mem_singleton_self x
    · rw [pieces_append_cons hd, pieces_of_forall hx]
      exact List.mem_append_left _ (List.mem_singleton_self x)
  rcases ha.cases with rfl | ⟨init, d, rfl, hd⟩
  · exact hrest
  · rw [List.append_assoc, List.singleton_append, pieces_append_cons hd]
    exact List.mem_append_right _ hrest

theorem exists_between_of_mem_pieces {cs x : List Char} (h : x ∈ pieces p cs) :
    ∃ a b, cs = a ++ (x ++ b) ∧ EndsIn p a ∧ (∀ c ∈ x, p c = false) ∧ StartsIn p b := by
  induction hn : cs.length using Nat.strongRecOn generalizing cs with
  | ind n ih =>
    cases hcut : cutAt p cs with
    | none =>
      have hall := cutAt_eq_none hcut
      rw [pieces_of_forall hall] at h
      rw [List.mem_singleton.mp h]
      exact ⟨[], [], by rw [List.append_nil, List.nil_append], endsIn_nil, hall, startsIn_nil⟩
    | some cut =>
      obtain ⟨u, d, v⟩ := cut
      obtain ⟨hu, hd⟩ := cutAt_spec hcut
      have hcs := cutAt_eq_some hcut
      rw [hcs, pieces_append_cons hd, pieces_of_forall hu] at h
      rcases List.mem_cons.mp h with rfl | h
      · exact ⟨[], d :: v, hcs, endsIn_nil, hu, startsIn_cons hd v⟩
      · have hlt : v.length < n := by
          rw [← hn, hcs, List.length_append, List.length_cons]
          omega
        obtain ⟨a, b, hv, ha, hx, hb⟩ := ih v.length hlt h rfl
        exact ⟨u ++ d :: a, b, by rw [hcs, hv]; simp, ha.append_cons hd u, hx, hb⟩

theorem mem_pieces_iff {cs x : List Char} : x ∈ pieces p cs ↔
    ∃ a b, cs = a ++ (x ++ b) ∧ EndsIn p a ∧ (∀ c ∈ x, p c = false) ∧ StartsIn p b := by
  refine ⟨exists_between_of_mem_pieces, ?_⟩
  rintro ⟨a, b, rfl, ha, hx, hb⟩
  exact mem_pieces_of_between ha hx hb

end

/-! ## words -/

structure WordAt (a w b : List Char) : Prop where
  ne_nil : w ≠ []
  solid : ∀ c ∈ w, isBlank c = false
  before : EndsIn isBlank a
  behind : StartsIn isBlank b

theorem mem_words_iff {cs w : List Char} :
    w ∈ words cs ↔ ∃ a b, cs = a ++ (w ++ b) ∧ WordAt a w b := by
  rw [words, List.mem_filter, mem_pieces_iff, Bool.not_eq_true', List.isEmpty_eq_false_iff]
  constructor
  · rintro ⟨⟨a, b, hcs, ha, hw, hb⟩, hne⟩
    exact ⟨a, b, hcs, hne, hw, ha, hb⟩
  · rintro ⟨a, b, hcs, h⟩
    exact ⟨⟨a, b, hcs, h.before, h.solid, h.behind⟩, h.ne_nil⟩

end CssOptimizer.Text
