import CssOptimizer.Proofs.Duplicates
import CssOptimizer.Proofs.Selector.Joined
import CssOptimizer.Proofs.Sheet.Lasting

/-!
# Merging twice

A merged stylesheet has no two rules with one block key, so merging it again leaves it as it is.

* `mergeDuplicates_mergeDuplicates`   merging again changes nothing;
* `Node.MergedFrom`                   where the nodes of a merged stylesheet come from;
* `keeps_of_mem_mergeDuplicates`      a merged rule is covered if the rules in it are;
* `Lasting.mergeDuplicates`           a merged stylesheet is read back if the stylesheet was.
-/

namespace CssOptimizer
open Selector

theorem selectorsWithKey_mergeFrom {key : String} {seen : List String} (h : key ∈ seen)
    (nodes : List Node) : selectorsWithKey key (mergeFrom seen nodes) = [] := by
  rw [List.eq_nil_iff_forall_not_mem]
  intro selector hs
  obtain ⟨body, hm, rfl⟩ := mem_selectorsWithKey.mp hs
  exact blockKey_not_mem_seen hm h

theorem mergeFrom_mergeFrom (seen : List String) (nodes : List Node) :
    mergeFrom seen (mergeFrom seen nodes) = mergeFrom seen nodes := by
  induction nodes generalizing seen with
  | nil => rfl
  | cons node nodes ih =>
    cases node with
    | declaration d => exact congrArg (Node.declaration d :: ·) (ih seen)
    | atRule n p c => exact congrArg (Node.atRule n p c :: ·) (ih seen)
    | rule selector body =>
      rw [mergeFrom_rule]
      split
      · exact ih seen
      · rename_i hnew
        rw [mergeFrom_rule, if_neg hnew, selectorsWithKey_mergeFrom List.mem_cons_self,
          joinSelectors_singleton, ih]

theorem mergeDuplicates_mergeDuplicates (nodes : List Node) :
    mergeDuplicates (mergeDuplicates nodes) = mergeDuplicates nodes := mergeFrom_mergeFrom [] nodes

/-- a node of a stylesheet that is no rule, or a rule of it that carries the selectors of further
rules -/
def Node.MergedFrom (nodes : List Node) (node : Node) : Prop :=
  (node ∈ nodes ∧ node.isRule = false) ∨
    ∃ s selectors body, node = .rule (joinSelectors (s :: selectors)) body ∧
      Node.rule s body ∈ nodes ∧ ∀ t ∈ selectors, ∃ b, Node.rule t b ∈ nodes

theorem Node.MergedFrom.cons {nodes : List Node} {node : Node} (h : node.MergedFrom nodes)
    (first : Node) : node.MergedFrom (first :: nodes) := by
  rcases h with ⟨hm, hr⟩ | ⟨s, selectors, body, he, hm, hall⟩
  · exact Or.inl ⟨List.mem_cons_of_mem _ hm, hr⟩
  · refine Or.inr ⟨s, selectors, body, he, List.mem_cons_of_mem _ hm, fun t ht => ?_⟩
    obtain ⟨b, hb⟩ := hall t ht
    exact ⟨b, List.mem_cons_of_mem _ hb⟩

theorem mergedFrom_of_mem {seen : List String} {nodes : List Node} {node : Node}
    (h : node ∈ mergeFrom seen nodes) : node.MergedFrom nodes := by
  induction nodes generalizing seen with
  | nil => exact absurd h List.not_mem_nil
  | cons first nodes ih =>
    cases first with
    | declaration d =>
      rcases List.mem_cons.mp h with rfl | h
      · exact Or.inl ⟨List.mem_cons_self, rfl⟩
      · exact (ih h).cons _
    | atRule n p c =>
      rcases List.mem_cons.mp h with rfl | h
      · exact Or.inl ⟨List.mem_cons_self, rfl⟩
      · exact (ih h).cons _
    | rule s body =>
      rw [mergeFrom_rule] at h
      split at h
      · exact (ih h).cons _
      · rcases List.mem_cons.mp h with he | h
        · refine Or.inr ⟨s, _, body, he, List.mem_cons_self, fun t ht => ?_⟩
          obtain ⟨b, hb, -⟩ := mem_selectorsWithKey.mp ht
          exact ⟨b, List.mem_cons_of_mem _ hb⟩
        · exact (ih h).cons _

theorem keeps_of_mem_mergeDuplicates {u : Usage} {nodes : List Node}
    (h : ∀ node ∈ nodes, u.keeps node = true) {node : Node} (hm : node ∈ mergeDuplicates nodes) :
    u.keeps node = true := by
  rcases mergedFrom_of_mem hm with ⟨hm, -⟩ | ⟨s, selectors, body, rfl, hs, -⟩
  · exact h node hm
  · exact covers_joinSelectors (h _ hs) selectors

theorem Lasting.mergeDuplicates {nodes : List Node} (h : Lasting nodes) :
    Lasting (mergeDuplicates nodes) := by
  have hone := lasting_iff.mp h
  refine lasting_iff.mpr fun node hm => ?_
  rcases mergedFrom_of_mem hm with ⟨hm, -⟩ | ⟨s, selectors, body, rfl, hs, hall⟩
  · exact hone node hm
  · have hselectors : ∀ t ∈ s :: selectors, TidySelector t ∧ Scan.SelfContained t.toList := by
      refine List.forall_mem_cons.mpr ⟨(hone _ hs).selector, fun t ht => ?_⟩
      obtain ⟨b, hb⟩ := hall t ht
      exact (hone _ hb).selector
    refine (hone _ hs).withSelector ?_ ?_
    · exact tidySelector_joinSelectors (List.cons_ne_nil s selectors)
        fun t ht => (hselectors t ht).1
    · exact selfContained_joinSelectors (List.cons_ne_nil s selectors)
        fun t ht => (hselectors t ht).2

end CssOptimizer
