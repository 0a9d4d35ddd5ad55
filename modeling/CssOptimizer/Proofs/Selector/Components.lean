import CssOptimizer.Duplicates
import CssOptimizer.Proofs.Text.Trim
import CssOptimizer.Selector

/-!
# The components of joined selectors

A comma separates components where no parenthesis or bracket is open.  So selectors that close
theirs keep their components when they are joined, and one that leaves a bracket open swallows
what is joined to it.

* `Selector.depthAfter`          the depth behind a text;
* `Selector.Level`               texts that end at depth zero;
* `Selector.Whole`               texts without a comma at depth zero;
* `components_of_mem`            a component is the only one of its own;
* `componentChars_append`        the components on both sides of a comma;
* `components_joinSelectors`     the components of joined selectors.
-/

namespace CssOptimizer.Selector
open Text

/-! ## depths -/

def depthAfter (depth : Nat) (cs : List Char) : Nat := cs.foldl depthBehind depth

theorem depthAfter_cons (depth : Nat) (c : Char) (cs : List Char) :
    depthAfter depth (c :: cs) = depthAfter (depthBehind depth c) cs := rfl

theorem depthAfter_append (depth : Nat) (a b : List Char) :
    depthAfter depth (a ++ b) = depthAfter (depthAfter depth a) b := List.foldl_append

def Level (cs : List Char) : Prop := depthAfter 0 cs = 0

instance (cs : List Char) : Decidable (Level cs) := inferInstanceAs (Decidable (_ = _))

/-- a character that is no parenthesis or bracket -/
def isFlat (c : Char) : Bool := !(c == '(' || c == '[' || c == ')' || c == ']')

theorem depthBehind_of_isFlat {c : Char} (h : isFlat c = true) (depth : Nat) :
    depthBehind depth c = depth := by
  simp only [isFlat, Bool.not_eq_true', Bool.or_eq_false_iff, beq_eq_false_iff_ne, ne_eq] at h
  simp [depthBehind, h]

theorem depthAfter_of_isFlat {cs : List Char} (h : ∀ c ∈ cs, isFlat c = true) (depth : Nat) :
    depthAfter depth cs = depth := by
  induction cs with
  | nil => rfl
  | cons c cs ih =>
    obtain ⟨hc, hcs⟩ := List.forall_mem_cons.mp h
    rw [depthAfter_cons, depthBehind_of_isFlat hc, ih hcs]

theorem isFlat_of_isBlank {c : Char} (h : isBlank c = true) : isFlat c = true := by
  have hne {d : Char} (hd : isBlank d = false) : (c == d) = false :=
    beq_eq_false_iff_ne.mpr (ne_of_isBlank h hd)
  rw [isFlat, hne rfl, hne rfl, hne rfl, hne rfl]
  rfl

/-! ## splitting -/

theorem splitAtCommas_ne_nil (depth : Nat) (cs : List Char) : splitAtCommas depth cs ≠ [] := by
  induction cs generalizing depth with
  | nil => simp [splitAtCommas]
  | cons c cs ih =>
    rw [splitAtCommas]
    split
    · simp
    · intro h
      exact ih _ (List.modifyHead_eq_nil_iff.mp h)

theorem modifyHead_append {α : Type} (f : α → α) {xs : List α} (h : xs ≠ []) (ys : List α) :
    (xs ++ ys).modifyHead f = xs.modifyHead f ++ ys := by
  cases xs with
  | nil => exact absurd rfl h
  | cons x xs => rfl

theorem splitAtCommas_append {depth : Nat} {a : List Char} (h : depthAfter depth a = 0)
    (b : List Char) :
    splitAtCommas depth (a ++ ',' :: b) = splitAtCommas depth a ++ splitAtCommas 0 b := by
  induction a generalizing depth with
  | nil =>
    have hd : depth = 0 := h
    rw [hd]
    rfl
  | cons c a ih =>
    rw [List.cons_append, splitAtCommas, splitAtCommas]
    split
    · rename_i hc
      have hflat : depthBehind depth c = depth := depthBehind_of_isFlat (by rw [hc.1]; rfl) depth
      rw [depthAfter_cons, hflat] at h
      rw [ih h, List.cons_append]
    · rw [ih h, modifyHead_append _ (splitAtCommas_ne_nil _ _)]

def Whole (depth : Nat) (cs : List Char) : Prop :=
  ∀ pre post, cs = pre ++ ',' :: post → depthAfter depth pre ≠ 0

theorem whole_of_no_comma {cs : List Char} (h : ',' ∉ cs) (depth : Nat) : Whole depth cs := by
  intro pre post he
  rw [he] at h
  exact absurd (List.mem_append_right _ List.mem_cons_self) h

theorem whole_cons {depth : Nat} {c : Char} {cs : List Char} :
    Whole depth (c :: cs) ↔ ¬(c = ',' ∧ depth = 0) ∧ Whole (depthBehind depth c) cs := by
  constructor
  · intro h
    refine ⟨fun hc => h [] cs (by rw [hc.1, List.nil_append]) hc.2, fun pre post he => ?_⟩
    exact h (c :: pre) post (by rw [he, List.cons_append])
  · rintro ⟨hc, hcs⟩ pre post he
    cases pre with
    | nil =>
      rw [List.nil_append, List.cons.injEq] at he
      exact fun hd => hc ⟨he.1, hd⟩
    | cons x pre =>
      rw [List.cons_append, List.cons.injEq] at he
      rw [← he.1]
      exact hcs pre post he.2

theorem splitAtCommas_of_whole {depth : Nat} {cs : List Char} (h : Whole depth cs) :
    splitAtCommas depth cs = [cs] := by
  induction cs generalizing depth with
  | nil => rfl
  | cons c cs ih =>
    obtain ⟨hc, hcs⟩ := whole_cons.mp h
    rw [splitAtCommas, if_neg hc, ih hcs]
    rfl

/-- a text is cut at all of its commas at depth zero -/
theorem exists_pieces (depth : Nat) (cs : List Char) :
    ∃ x xs, splitAtCommas depth cs = x :: xs ∧ cs = x ++ xs.flatMap (',' :: ·) ∧
      Whole depth x ∧ ∀ y ∈ xs, Whole 0 y := by
  induction cs generalizing depth with
  | nil =>
    refine ⟨[], [], rfl, rfl, ?_, fun y hy => absurd hy List.not_mem_nil⟩
    exact whole_of_no_comma List.not_mem_nil depth
  | cons c cs ih =>
    rw [splitAtCommas]
    split
    · rename_i hc
      obtain ⟨x, xs, hsplit, hcs, hx, hxs⟩ := ih depth
      refine ⟨[], x :: xs, by rw [hsplit], ?_, whole_of_no_comma List.not_mem_nil depth, ?_⟩
      · rw [List.flatMap_cons, List.nil_append, List.cons_append, ← hcs, hc.1]
      · rw [hc.2] at hx
        exact List.forall_mem_cons.mpr ⟨hx, hxs⟩
    · rename_i hc
      obtain ⟨x, xs, hsplit, hcs, hx, hxs⟩ := ih (depthBehind depth c)
      refine ⟨c :: x, xs, by rw [hsplit, List.modifyHead_cons], ?_, whole_cons.mpr ⟨hc, hx⟩, hxs⟩
      rw [List.cons_append, ← hcs]

/-- the blanks at its ends are no part of a component -/
theorem Whole.trim {cs : List Char} (h : Whole 0 cs) : Whole 0 (trim cs) := by
  obtain ⟨a, b, ha, -, he⟩ := exists_trim cs
  intro pre post htrim
  have hcs : cs = (a ++ pre) ++ ',' :: (post ++ b) := by
    rw [htrim] at he
    simpa using he
  have hdepth := h _ _ hcs
  rwa [depthAfter_append, depthAfter_of_isFlat fun c hc => isFlat_of_isBlank (ha c hc)] at hdepth

/-! ## components -/

theorem componentChars_append {a : List Char} (h : Level a) (b : List Char) :
    componentChars (a ++ ',' :: b) = componentChars a ++ componentChars b := by
  rw [componentChars, splitAtCommas_append h, List.map_append, List.filter_append]
  rfl

theorem componentChars_of_whole {cs : List Char} (hw : Whole 0 cs) (ht : trim cs ≠ []) :
    componentChars cs = [trim cs] := by
  rw [componentChars, splitAtCommas_of_whole hw, List.map_singleton, List.filter_eq_self]
  intro c hmem
  rw [List.mem_singleton.mp hmem, List.isEmpty_eq_false_iff.mpr ht]
  rfl

theorem componentChars_of_no_comma {cs : List Char} (hc : ',' ∉ cs) (ht : trim cs ≠ []) :
    componentChars cs = [trim cs] := componentChars_of_whole (whole_of_no_comma hc 0) ht

/-- the components are the pieces between the commas without the blanks at their ends -/
theorem mem_componentChars_iff {cs c : List Char} :
    c ∈ componentChars cs ↔ (∃ piece ∈ splitAtCommas 0 cs, trim piece = c) ∧ c ≠ [] := by
  rw [componentChars, List.mem_filter, List.mem_map, Bool.not_eq_true', List.isEmpty_eq_false_iff]

theorem componentChars_of_mem {cs c : List Char} (h : c ∈ componentChars cs) :
    componentChars c = [c] := by
  obtain ⟨⟨piece, hpiece, rfl⟩, hne⟩ := mem_componentChars_iff.mp h
  obtain ⟨x, xs, hsplit, -, hx, hxs⟩ := exists_pieces 0 cs
  have hwhole : Whole 0 piece := by
    rw [hsplit] at hpiece
    exact List.forall_mem_cons.mpr ⟨hx, hxs⟩ piece hpiece
  have htrim : trim (trim piece) = trim piece := trimmed_trim piece
  rw [componentChars_of_whole hwhole.trim (by rw [htrim]; exact hne), htrim]

/-- blanks in front of a selector are in no component -/
theorem componentChars_blank {ws : List Char} (h : Blank ws) (cs : List Char) :
    componentChars (ws ++ cs) = componentChars cs := by
  induction ws with
  | nil => rfl
  | cons w ws ih =>
    obtain ⟨hw, hws⟩ := blank_cons.mp h
    have hcomma : ¬ (w = ',' ∧ 0 = 0) := fun hc => ne_of_isBlank hw rfl hc.1
    have htrim (x : List Char) : trim (w :: x) = trim x := by
      rw [trim, trim]
      exact congrArg trimEnd (trimStart_blank (blank_cons.mpr ⟨hw, blank_nil⟩) x)
    rw [← ih hws, componentChars, List.cons_append, splitAtCommas, if_neg hcomma,
      depthBehind_of_isFlat (isFlat_of_isBlank hw), componentChars]
    cases hs : splitAtCommas 0 (ws ++ cs) with
    | nil => exact absurd hs (splitAtCommas_ne_nil _ _)
    | cons x xs => rw [List.modifyHead_cons, List.map_cons, List.map_cons, htrim]

theorem components_of_mem {selector c : String} (h : c ∈ components selector) :
    components c = [c] := by
  obtain ⟨cs, hcs, rfl⟩ := List.mem_map.mp h
  rw [components, String.toList_ofList, componentChars_of_mem hcs, List.map_singleton]

theorem components_empty : components "" = [] := by decide

theorem components_append {s : String} (h : Level s.toList) (t : String) :
    components (s ++ ", " ++ t) = components s ++ components t := by
  have hspace : Blank [' '] := blank_cons.mpr ⟨rfl, blank_nil⟩
  have hchars : (s ++ ", " ++ t).toList = s.toList ++ ',' :: ([' '] ++ t.toList) := by simp
  rw [components, hchars, componentChars_append h, componentChars_blank hspace, List.map_append]
  rfl

theorem components_joinSelectors {selectors : List String}
    (h : ∀ s ∈ selectors, Level s.toList) :
    components (joinSelectors selectors) = selectors.flatMap components := by
  induction selectors with
  | nil => exact components_empty
  | cons s selectors ih =>
    obtain ⟨hs, hselectors⟩ := List.forall_mem_cons.mp h
    cases selectors with
    | nil =>
      have hj : joinSelectors [s] = s := String.intercalate_singleton
      rw [hj, List.flatMap_cons, List.flatMap_nil, List.append_nil]
    | cons t selectors =>
      have hj : joinSelectors (s :: t :: selectors) =
          s ++ ", " ++ joinSelectors (t :: selectors) := String.intercalate_cons_cons
      rw [hj, components_append hs, ih hselectors]
      rfl

end CssOptimizer.Selector
