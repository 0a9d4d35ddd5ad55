import CssOptimizer.Proofs.Duplicates.Unrepeated

/-!
# Where merged rules come from

* `mergeDuplicates_sublist`    merging leaves some of the nodes, in order, each gathered;
* `filter_mergeDuplicates`     it leaves all nodes that are no rules;
* `exists_gathered`            each rule is gathered into one that is left, which is the rule itself
                               if no other rule has its block key (`eq_of_selectorsWithKey`).
-/

namespace CssOptimizer

theorem eq_of_selectorsWithKey {key s : String} {nodes : List Node}
    (h : selectorsWithKey key nodes = [s]) {t u : String} {a b : List Declaration}
    (ht : Node.rule t a ∈ nodes) (ha : blockKey a = key) (hu : Node.rule u b ∈ nodes)
    (hb : blockKey b = key) : a = b := by
  have hlen := length_selectorsWithKey key nodes
  rw [h] at hlen
  obtain ⟨node, hone⟩ := List.length_eq_one_iff.mp hlen.symm
  have hnode {v : String} {c : List Declaration} (hm : Node.rule v c ∈ nodes)
      (hc : blockKey c = key) : Node.rule v c = node := by
    rw [← List.mem_singleton, ← hone]
    exact List.mem_filter.mpr ⟨hm, beq_iff_eq.mpr hc⟩
  exact (Node.rule.inj ((hnode ht ha).trans (hnode hu hb).symm)).2

theorem mergeDuplicates_sublist (nodes : List Node) :
    (mergeDuplicates nodes).Sublist (nodes.map (Node.gathered nodes)) := by
  rw [mergeDuplicates_eq_map_unrepeated]
  exact (unrepeated_sublist nodes).map _

theorem filter_mergeFrom (seen : List String) (nodes : List Node) :
    (mergeFrom seen nodes).filter (!·.isRule) = nodes.filter (!·.isRule) := by
  induction nodes generalizing seen with
  | nil => rfl
  | cons node nodes ih =>
    cases node with
    | declaration d => exact congrArg (Node.declaration d :: ·) (ih seen)
    | atRule n p c => exact congrArg (Node.atRule n p c :: ·) (ih seen)
    | rule s body =>
      rw [mergeFrom_rule]
      split
      · exact ih seen
      · exact ih _

theorem filter_mergeDuplicates (nodes : List Node) :
    (mergeDuplicates nodes).filter (!·.isRule) = nodes.filter (!·.isRule) :=
  filter_mergeFrom [] nodes

theorem exists_gathered {nodes : List Node} {s : String} {body : List Declaration}
    (h : Node.rule s body ∈ nodes) :
    ∃ first, Node.rule (joinSelectors (selectorsWithKey (blockKey body) nodes)) first ∈
      mergeDuplicates nodes ∧ blockKey first = blockKey body ∧ ∃ t, Node.rule t first ∈ nodes := by
  obtain ⟨selectors, first, hm, ht, hk, -⟩ := exists_merged h
  refine ⟨first, ?_, hk, ht⟩
  obtain ⟨node, -, hnode⟩ := List.mem_map.mp ((mergeDuplicates_sublist nodes).subset hm)
  cases node with
  | declaration d => exact absurd hnode (by simp [Node.gathered])
  | atRule n p c => exact absurd hnode (by simp [Node.gathered])
  | rule u b =>
    obtain ⟨hs, rfl⟩ := Node.rule.inj hnode
    rw [← hk, hs]
    exact hm

end CssOptimizer
