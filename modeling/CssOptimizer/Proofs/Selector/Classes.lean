import CssOptimizer.Proofs.Selector.Lists
import CssOptimizer.Proofs.Sheet.Condition
import CssOptimizer.Proofs.Usage.Matching

/-!
# Selectors of one class

* `Scan.selfContained_of_isName`    a name stands for itself wherever it is read;
* `tidySelector_dot`, `selfContained_dot`   so does the selector of a class;
* `classes_dot`                     which names this class only;
* `Usage.covers_dot`                which is covered if the class is used.
-/

namespace CssOptimizer
open Scan Text Selector

theorem Scan.selfContained_of_isName {cs : List Char} (h : ∀ c ∈ cs, isName c = true) :
    SelfContained cs := by
  have hne {d : Char} (hd : isName d = false) (c : Char) (hc : c ∈ cs) : c ≠ d :=
    ne_of_isName (h c hc) hd
  have hquiet : Quiet cs := by
    intro c hc
    refine ⟨?_, hne (by decide) c hc, hne (by decide) c hc, hne (by decide) c hc⟩
    rw [isQuote, beq_eq_false_iff_ne.mpr (hne (by decide) c hc),
      beq_eq_false_iff_ne.mpr (hne (by decide) c hc)]
    rfl
  have hstop : ∀ c ∈ cs, Piece.isEnd c = false := by
    intro c hc
    rw [Piece.isEnd, beq_eq_false_iff_ne.mpr (hne (by decide) c hc),
      beq_eq_false_iff_ne.mpr (hne (by decide) c hc),
      beq_eq_false_iff_ne.mpr (hne (by decide) c hc)]
    rfl
  refine ⟨⟨run_start_quiet hquiet, hasBare_of_forall hstop start⟩, ?_⟩
  exact opensComment_of_not_mem (not_mem_of_isName h (by decide)) start

/-- a selector with a used class is covered, whatever else it asks for -/
theorem Usage.covers_of_mem_classes {u : Usage} {selector name : String}
    (h : name ∈ Selector.classes selector) (hu : name ∈ u.classes) : u.covers selector = true := by
  obtain ⟨c, hc, hname⟩ := mem_classes_iff.mp h
  exact List.any_eq_true.mpr ⟨c, hc, coversComponent_of_class hname hu⟩

section
variable {name : String} (h : ∀ c ∈ name.toList, isName c = true)
include h

theorem selfContained_dot : SelfContained ("." ++ name).toList := by
  rw [String.toList_append]
  have hname := selfContained_of_isName h
  have hdot : Plain Piece.isEnd ".".toList := by decide
  refine ⟨hdot.append hname.plain, ?_⟩
  show opensComment start ('.' :: name.toList) = false
  rw [opensComment_cons_of_ne _ (by decide)]
  exact hname.quiet

theorem tidySelector_dot : TidySelector ("." ++ name) := by
  have hchars : ("." ++ name).toList = '.' :: name.toList := String.toList_append ..
  refine ⟨?_, ?_, ?_⟩
  · rw [hchars]
    exact List.cons_ne_nil _ _
  · rw [hchars]
    refine trimmed_of_not_isBlank (List.forall_mem_cons.mpr ⟨rfl, fun c hc => ?_⟩)
    exact isBlank_of_isName (h c hc)
  · rw [hchars, List.head?_cons]
    decide

theorem classes_dot (hne : name.toList ≠ []) : Selector.classes ("." ++ name) = [name] := by
  have hchars : ("." ++ name).toList = '.' :: name.toList := String.toList_append ..
  have hleading : leadingName name.toList = name.toList := by
    have happend := leadingName_append h endsNames_nil
    rwa [List.append_nil] at happend
  have hmark : marked '.' none ('.' :: name.toList) =
      some (name.toList, name.toList.length + 1) := by
    rw [marked_cons, hleading, if_pos ⟨rfl, hne⟩]
  have hbehind : occurrencesFrom (marked '.') name.toList.length (some '.') name.toList = [] := by
    have hskip := occurrencesFrom_skip (marked '.') (some '.') name.toList []
    rwa [List.append_nil, occurrencesFrom_nil] at hskip
  rw [Selector.classes, hchars, occurrences, occurrencesFrom_some _ _ _ _ _ _ hmark,
    Nat.add_sub_cancel, hbehind, List.map_singleton, String.ofList_toList]

theorem mem_classes_dot (hne : name.toList ≠ []) : name ∈ Selector.classes ("." ++ name) := by
  rw [classes_dot h hne]
  exact List.mem_singleton_self name

theorem Usage.covers_dot (hne : name.toList ≠ []) {u : Usage} (hu : name ∈ u.classes) :
    u.covers ("." ++ name) = true :=
  covers_of_mem_classes (mem_classes_dot h hne) hu

end
end CssOptimizer
