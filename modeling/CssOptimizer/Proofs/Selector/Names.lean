import CssOptimizer.Proofs.Selector.Components
import CssOptimizer.Proofs.Text.Names
import CssOptimizer.Proofs.Text.Occurrences

/-!
# The names in a selector

Each mark in a selector with a name behind it is found, whatever stands around it.

* `opened_marked`, `opened_bracketedData`    what is read opens with the mark or the bracket;
* `mem_marked`, `mem_bracketedData`          names behind marks and data attributes are found;
* `leadingTag_append`                        a tag at the start is read to its end.
-/

namespace CssOptimizer.Selector
open Text

theorem ne_of_isName {c d : Char} (hc : isName c = true) (hd : isName d = false) : c ≠ d := by
  intro h
  rw [h, hd] at hc
  exact Bool.false_ne_true hc

theorem isFlat_of_isName {c : Char} (h : isName c = true) : isFlat c = true := by
  have hne {d : Char} (hd : isName d = false) : (c == d) = false :=
    beq_eq_false_iff_ne.mpr (ne_of_isName h hd)
  rw [isFlat, hne (by decide), hne (by decide), hne (by decide), hne (by decide)]
  rfl

theorem not_mem_of_isName {cs : List Char} (h : ∀ c ∈ cs, isName c = true) {d : Char}
    (hd : isName d = false) : d ∉ cs :=
  fun hm => ne_of_isName (h d hm) hd rfl

theorem exists_leadingName (cs : List Char) : ∃ post, cs = leadingName cs ++ post :=
  ⟨cs.dropWhile isName, List.takeWhile_append_dropWhile.symm⟩

theorem take_append_leadingName (a cs : List Char) :
    (a ++ cs).take (a ++ leadingName cs).length = a ++ leadingName cs := by
  obtain ⟨post, hpost⟩ := exists_leadingName cs
  have h : a ++ cs = (a ++ leadingName cs) ++ post := by rw [List.append_assoc, ← hpost]
  rw [h, List.take_left]

/-! ## marks -/

theorem marked_cons (mark : Char) (before : Option Char) (c : Char) (cs : List Char) :
    marked mark before (c :: cs) =
      if c = mark ∧ leadingName cs ≠ [] then
        some (leadingName cs, (leadingName cs).length + 1) else none := rfl

theorem opened_marked {mark : Char} (h : isName mark = false) : Opened (marked mark) mark where
  head := by
    intro before c cs name n hm
    rw [marked_cons] at hm
    split at hm
    · rename_i hc
      exact hc.1
    · simp at hm
  inside := by
    intro before c cs name n hm
    rw [marked_cons] at hm
    split at hm
    · simp only [Option.some.injEq, Prod.mk.injEq] at hm
      have htake := take_append_leadingName [] cs
      rw [List.nil_append, List.nil_append] at htake
      rw [← hm.2, Nat.add_sub_cancel, htake]
      exact not_mem_of_isName (fun c hc => isName_of_mem_leadingName hc) h
    · simp at hm

theorem mem_marked {mark : Char} (h : isName mark = false) {name : List Char} (hne : name ≠ [])
    (hn : ∀ c ∈ name, isName c = true) (pre : List Char) {post : List Char}
    (hp : EndsNames post) : name ∈ occurrences (marked mark) (pre ++ mark :: (name ++ post)) := by
  refine (mem_occurrences_iff (opened_marked h)).mpr
    ⟨pre, mark, name ++ post, name.length + 1, rfl, ?_⟩
  rw [marked_cons, leadingName_append hn hp, if_pos ⟨rfl, hne⟩]

/-! ## data attributes -/

theorem bracketedData_cons (before : Option Char) (cs : List Char) :
    bracketedData before ('[' :: cs) =
      match literal "data-".toList (cs.dropWhile isBlank) with
      | none => none
      | some rest =>
        if (leadingName rest).isEmpty then none
        else some (leadingName rest,
          1 + (cs.takeWhile isBlank).length + 5 + (leadingName rest).length) := rfl

theorem of_bracketedData {before : Option Char} {c : Char} {cs name : List Char} {n : Nat}
    (h : bracketedData before (c :: cs) = some (name, n)) :
    c = '[' ∧ ∃ ws rest, Blank ws ∧ cs = ws ++ ("data-".toList ++ rest) ∧
      name = leadingName rest ∧ n = (ws ++ ("data-".toList ++ name)).length + 1 := by
  have hc : c = '[' := by
    unfold bracketedData at h
    split at h
    · rename_i he
      exact (List.cons.inj he).1
    · simp at h
  subst hc
  rw [bracketedData_cons] at h
  refine ⟨rfl, cs.takeWhile isBlank, ?_⟩
  split at h
  · simp at h
  · rename_i rest hl
    split at h
    · simp at h
    · simp only [Option.some.injEq, Prod.mk.injEq] at h
      refine ⟨rest, fun c hc => List.all_eq_true.mp List.all_takeWhile c hc, ?_, h.1.symm, ?_⟩
      · rw [← literal_eq_some hl, List.takeWhile_append_dropWhile]
      · rw [← h.2, ← h.1]
        simp
        omega

theorem opened_bracketedData : Opened bracketedData '[' where
  head := fun h => (of_bracketedData h).1
  inside := by
    intro before c cs name n h
    obtain ⟨-, ws, rest, hws, rfl, hname, rfl⟩ := of_bracketedData h
    have htake := take_append_leadingName (ws ++ "data-".toList) rest
    rw [List.append_assoc, List.append_assoc, ← hname] at htake
    rw [Nat.add_sub_cancel, htake]
    intro hm
    rcases List.mem_append.mp hm with hm | hm
    · exact ne_of_isBlank (hws _ hm) rfl rfl
    · have hall : ∀ c ∈ "data-".toList ++ name, isName c = true := by
        rw [List.forall_mem_append, hname]
        exact ⟨List.all_eq_true.mp (by decide), fun c hc => isName_of_mem_leadingName hc⟩
      exact not_mem_of_isName hall (by decide) hm

theorem mem_bracketedData {name : List Char} (hne : name ≠ []) (hn : ∀ c ∈ name, isName c = true)
    (pre : List Char) {post : List Char} (hp : EndsNames post) :
    name ∈ occurrences bracketedData (pre ++ ("[data-".toList ++ (name ++ post))) := by
  refine (mem_occurrences_iff opened_bracketedData).mpr
    ⟨pre, '[', "data-".toList ++ (name ++ post), 1 + 0 + 5 + name.length, rfl, ?_⟩
  have hdrop : ("data-".toList ++ (name ++ post)).dropWhile isBlank =
      "data-".toList ++ (name ++ post) := trimStart_of_not_isBlank rfl _
  have htake : ("data-".toList ++ (name ++ post)).takeWhile isBlank = [] := rfl
  have he : name.isEmpty = false := List.isEmpty_eq_false_iff.mpr hne
  rw [bracketedData_cons, hdrop, literal_append, htake]
  show (if (leadingName (name ++ post)).isEmpty = true then none else some _) = _
  rw [leadingName_append hn hp, he]
  rfl

/-! ## tags -/

theorem leadingTag_append {name post : List Char} (hl : name.head?.all isAsciiLetter = true)
    (hne : name ≠ []) (hn : ∀ c ∈ name, isName c = true) (hp : EndsNames post) :
    leadingTag (name ++ post) = some name := by
  cases name with
  | nil => exact absurd rfl hne
  | cons c name =>
    obtain ⟨hc, hname⟩ := List.forall_mem_cons.mp hn
    have hletter : isAsciiLetter c = true := hl
    rw [List.cons_append, leadingTag, if_pos hletter, leadingName_append hname hp]

end CssOptimizer.Selector
