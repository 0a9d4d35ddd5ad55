import CssOptimizer.Proofs.Duplicates
import Mathlib.Data.List.Induction

/-!
# The first rule with each block key

* `unrepeated`             the nodes but for the rules whose block key a rule before them has;
* `Node.gathered nodes`    a rule with the selectors of all rules in `nodes` with its block key;
* `Node.Apart`             nodes that are not two rules with one block key.

Main statements: the merged nodes are the unrepeated ones, each gathered
(`mergeDuplicates_eq_map_unrepeated`), and no two of them have one block key
(`pairwise_mergeDuplicates`).
-/

namespace CssOptimizer

/-! ## selectors by block keys -/

theorem selectorsWithKey_eq_filterMap (key : String) (nodes : List Node) :
    selectorsWithKey key nodes = (nodes.filter (Node.hasKey key)).filterMap Node.selector? := by
  induction nodes with
  | nil => rfl
  | cons node nodes ih =>
    cases node with
    | declaration d => exact ih
    | atRule n p c => exact ih
    | rule s body =>
      rw [selectorsWithKey, List.filter_cons, Node.hasKey, ih]
      split
      · rename_i hk
        rw [if_pos (beq_iff_eq.mpr hk)]
        rfl
      · rename_i hk
        rw [if_neg (fun h => hk (eq_of_beq h))]

theorem selectorsWithKey_append (key : String) (a b : List Node) :
    selectorsWithKey key (a ++ b) = selectorsWithKey key a ++ selectorsWithKey key b := by
  simp only [selectorsWithKey_eq_filterMap, List.filter_append, List.filterMap_append]

/-- the rules with a block key are as many as their selectors -/
theorem length_selectorsWithKey (key : String) (nodes : List Node) :
    (selectorsWithKey key nodes).length = (nodes.filter (Node.hasKey key)).length := by
  rw [selectorsWithKey_eq_filterMap, List.length_filterMap_eq_countP, List.countP_eq_length]
  intro node hn
  cases node with
  | rule s body => rfl
  | declaration d => exact absurd (List.mem_filter.mp hn).2 Bool.false_ne_true
  | atRule n p c => exact absurd (List.mem_filter.mp hn).2 Bool.false_ne_true

/-! ## the first rule with each block key -/

/-- whether a node is a rule and one of the nodes before it a rule with its block key -/
def Node.repeats (before : List Node) : Node → Bool
  | .rule _ body => before.any (Node.hasKey (blockKey body))
  | _ => false

def unrepeated (nodes : List Node) : List Node :=
  (nodes.zipIdx.filter fun e => !e.1.repeats (nodes.take e.2)).map Prod.fst

def Node.Apart (m n : Node) : Prop := ∀ key, m.hasKey key = true → n.hasKey key = false

section
variable {key : String} {nodes : List Node}

theorem Node.exists_of_hasKey {node : Node} (h : node.hasKey key = true) :
    ∃ s body, node = .rule s body ∧ blockKey body = key := by
  cases node with
  | rule s body => exact ⟨s, body, rfl, eq_of_beq h⟩
  | declaration d => exact absurd h Bool.false_ne_true
  | atRule n p c => exact absurd h Bool.false_ne_true

theorem unrepeated_concat (nodes : List Node) (node : Node) :
    unrepeated (nodes ++ [node]) =
      unrepeated nodes ++ if node.repeats nodes then [] else [node] := by
  have hbefore : (nodes.zipIdx.filter fun e => !e.1.repeats ((nodes ++ [node]).take e.2)) =
      nodes.zipIdx.filter fun e => !e.1.repeats (nodes.take e.2) := by
    refine List.filter_congr fun e hm => ?_
    have hi : e.2 ≤ nodes.length := by
      have := List.snd_lt_of_mem_zipIdx hm
      omega
    rw [List.take_append_of_le_length hi]
  have hlast : (nodes ++ [node]).take nodes.length = nodes := List.take_left' rfl
  rw [unrepeated, List.zipIdx_append, List.filter_append, hbefore, List.map_append, ← unrepeated,
    List.zipIdx_singleton, Nat.zero_add, List.filter_cons, hlast]
  cases node.repeats nodes <;> rfl

theorem unrepeated_concat_new {node : Node} (h : node.repeats nodes = false) :
    unrepeated (nodes ++ [node]) = unrepeated nodes ++ [node] := by
  rw [unrepeated_concat, h]
  rfl

theorem any_unrepeated (key : String) (nodes : List Node) :
    (unrepeated nodes).any (Node.hasKey key) = nodes.any (Node.hasKey key) := by
  induction nodes using List.reverseRecOn with
  | nil => rfl
  | append_singleton nodes node ih =>
    rw [unrepeated_concat, List.any_append, List.any_append, ih]
    cases hr : node.repeats nodes with
    | false => rfl
    | true =>
      cases hk : node.hasKey key with
      | false => simp [hk]
      | true =>
        obtain ⟨s, body, rfl, rfl⟩ := Node.exists_of_hasKey hk
        have hany : nodes.any (Node.hasKey (blockKey body)) = true := hr
        rw [hany, Bool.true_or, Bool.true_or]

theorem unrepeated_prefix (a b : List Node) : unrepeated a <+: unrepeated (a ++ b) := by
  induction b using List.reverseRecOn with
  | nil => simp
  | append_singleton b node ih =>
    rw [← List.append_assoc, unrepeated_concat]
    exact ih.trans (List.prefix_append _ _)

theorem unrepeated_sublist (nodes : List Node) : (unrepeated nodes).Sublist nodes := by
  have h : (unrepeated nodes).Sublist (nodes.zipIdx.map Prod.fst) := List.filter_sublist.map _
  rwa [List.zipIdx_map_fst] at h

theorem pairwise_unrepeated (nodes : List Node) : (unrepeated nodes).Pairwise Node.Apart := by
  induction nodes using List.reverseRecOn with
  | nil => exact .nil
  | append_singleton nodes node ih =>
    rw [unrepeated_concat]
    cases hr : node.repeats nodes with
    | true => simpa using ih
    | false =>
      refine List.pairwise_append.mpr ⟨ih, List.pairwise_singleton _ _, ?_⟩
      intro m hm n hn key hkey
      obtain rfl : n = node := List.mem_singleton.mp hn
      rw [Bool.eq_false_iff]
      intro hk
      obtain ⟨s, body, rfl, rfl⟩ := Node.exists_of_hasKey hk
      have hany : (unrepeated nodes).any (Node.hasKey (blockKey body)) = true :=
        List.any_eq_true.mpr ⟨m, hm, hkey⟩
      rw [any_unrepeated] at hany
      exact Bool.false_ne_true (hr.symm.trans hany)

/-! ## the nodes with all their selectors -/

def Node.gathered (nodes : List Node) : Node → Node
  | .rule _ body => .rule (joinSelectors (selectorsWithKey (blockKey body) nodes)) body
  | node => node

theorem hasKey_gathered (nodes : List Node) (node : Node) (key : String) :
    (node.gathered nodes).hasKey key = node.hasKey key := by
  cases node <;> rfl

theorem selectorsWithKey_eq_nil_iff :
    selectorsWithKey key nodes = [] ↔ nodes.any (Node.hasKey key) = false := by
  rw [← List.length_eq_zero_iff, length_selectorsWithKey, List.length_eq_zero_iff,
    List.filter_eq_nil_iff, List.any_eq_false]

theorem Node.Apart.gathered_concat {m n : Node} (h : m.Apart n) (nodes : List Node) :
    m.gathered (nodes ++ [n]) = m.gathered nodes := by
  cases m with
  | declaration d => rfl
  | atRule n p c => rfl
  | rule s body =>
    have hnone : selectorsWithKey (blockKey body) [n] = [] := by
      rw [selectorsWithKey_eq_nil_iff, List.any_cons, h _ (beq_self_eq_true _)]
      rfl
    rw [Node.gathered, Node.gathered, selectorsWithKey_append, hnone, List.append_nil]

/-- a first rule with a block key has its own selector in front of those of the rules to come -/
theorem gathered_of_not_repeats {s : String} {body : List Declaration}
    (h : (Node.rule s body).repeats nodes = false) (after : List Node) :
    (Node.rule s body).gathered (nodes ++ .rule s body :: after) =
      .rule (joinSelectors (s :: selectorsWithKey (blockKey body) after)) body := by
  have hnone : selectorsWithKey (blockKey body) nodes = [] := selectorsWithKey_eq_nil_iff.mpr h
  rw [Node.gathered, selectorsWithKey_append, hnone, List.nil_append, selectorsWithKey, if_pos rfl]

/-- merging one node; the block keys in `seen` are those of the nodes before it -/
theorem exists_mergeFrom_cons {seen : List String}
    (hseen : ∀ key, key ∈ seen ↔ nodes.any (Node.hasKey key) = true) (node : Node)
    (after : List Node) :
    ∃ next, (∀ key, key ∈ next ↔ (nodes ++ [node]).any (Node.hasKey key) = true) ∧
      mergeFrom seen (node :: after) =
        (if node.repeats nodes then [] else [node.gathered (nodes ++ node :: after)]) ++
          mergeFrom next after := by
  cases node with
  | declaration d => exact ⟨seen, by simpa [Node.hasKey] using hseen, rfl⟩
  | atRule n p c => exact ⟨seen, by simpa [Node.hasKey] using hseen, rfl⟩
  | rule s body =>
    have hkey (key : String) : (Node.rule s body).hasKey key = true ↔ key = blockKey body :=
      beq_iff_eq.trans eq_comm
    rw [mergeFrom_rule]
    cases hr : (Node.rule s body).repeats nodes with
    | true =>
      have hold : blockKey body ∈ seen := (hseen _).mpr hr
      refine ⟨seen, fun key => ?_, by rw [if_pos hold]; rfl⟩
      rw [List.any_append, Bool.or_eq_true, ← hseen, List.any_cons, List.any_nil, Bool.or_false,
        hkey]
      exact ⟨Or.inl, fun h => h.elim id fun he => he ▸ hold⟩
    | false =>
      have hnew : blockKey body ∉ seen := by
        rw [hseen]
        exact Bool.eq_false_iff.mp hr
      refine ⟨blockKey body :: seen, fun key => ?_, ?_⟩
      · rw [List.any_append, Bool.or_eq_true, ← hseen, List.any_cons, List.any_nil, Bool.or_false,
          hkey, List.mem_cons, or_comm]
      · rw [if_neg hnew, gathered_of_not_repeats hr]
        rfl

/-- merging the rest of a stylesheet behind the merged nodes before it -/
theorem map_gathered_append_mergeFrom {seen : List String} (before after : List Node)
    (hseen : ∀ key, key ∈ seen ↔ before.any (Node.hasKey key) = true) :
    (unrepeated before).map (Node.gathered (before ++ after)) ++ mergeFrom seen after =
      (unrepeated (before ++ after)).map (Node.gathered (before ++ after)) := by
  induction after generalizing seen before with
  | nil => rw [mergeFrom_nil, List.append_nil, List.append_nil]
  | cons node after ih =>
    have hsplit : before ++ node :: after = (before ++ [node]) ++ after := by simp
    obtain ⟨next, hnext, he⟩ := exists_mergeFrom_cons hseen node after
    have hrest := ih _ hnext
    rw [← hsplit, unrepeated_concat, List.map_append, apply_ite (List.map _), List.append_assoc]
      at hrest
    rw [he]
    exact hrest

theorem mergeDuplicates_eq_map_unrepeated (nodes : List Node) :
    mergeDuplicates nodes = (unrepeated nodes).map (Node.gathered nodes) :=
  map_gathered_append_mergeFrom [] nodes fun key => by simp

theorem pairwise_mergeDuplicates (nodes : List Node) :
    (mergeDuplicates nodes).Pairwise Node.Apart := by
  rw [mergeDuplicates_eq_map_unrepeated, List.pairwise_map]
  refine (pairwise_unrepeated nodes).imp fun h key hk => ?_
  rw [hasKey_gathered] at hk ⊢
  exact h key hk

end

end CssOptimizer
