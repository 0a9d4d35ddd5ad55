import CssOptimizer.Proofs.Sheet.Key

/-!
# What merging keeps

* `Node.hasKey`            whether a node is a rule with a given block key;
* `mem_mergeFrom`          the first rule with a block key stays and carries the selectors of the
                           later ones;
* `eq_of_mem_mergeFrom`    each block key is left on one rule;
* `exists_merged`          every rule is merged into such a rule;
* `exists_merged_read`     where bodies were read, this rule declares the same keys.
-/

namespace CssOptimizer

def Node.hasKey (key : String) : Node → Bool
  | .rule _ body => blockKey body == key
  | _ => false

theorem mem_selectorsWithKey {key selector : String} {nodes : List Node} :
    selector ∈ selectorsWithKey key nodes ↔
      ∃ body, Node.rule selector body ∈ nodes ∧ blockKey body = key := by
  induction nodes with
  | nil => simp [selectorsWithKey]
  | cons node nodes ih =>
    cases node with
    | declaration d => simpa [selectorsWithKey] using ih
    | atRule n p c => simpa [selectorsWithKey] using ih
    | rule s b =>
      rw [selectorsWithKey]
      constructor
      · intro h
        split at h
        · rename_i hb
          rcases List.mem_cons.mp h with rfl | h
          · exact ⟨b, List.mem_cons_self, hb⟩
          · obtain ⟨body, hm, hk⟩ := ih.mp h
            exact ⟨body, List.mem_cons_of_mem _ hm, hk⟩
        · obtain ⟨body, hm, hk⟩ := ih.mp h
          exact ⟨body, List.mem_cons_of_mem _ hm, hk⟩
      · intro ⟨body, hm, hk⟩
        rcases List.mem_cons.mp hm with he | hm
        · rw [Node.rule.injEq] at he
          rw [if_pos (by rw [← he.2, hk]), he.1]
          exact List.mem_cons_self
        · have hs := ih.mpr ⟨body, hm, hk⟩
          split
          · exact List.mem_cons_of_mem _ hs
          · exact hs

theorem mem_mergeFrom {before : List Node} {body : List Declaration}
    (hb : ∀ node ∈ before, node.hasKey (blockKey body) = false) {seen : List String}
    (hs : blockKey body ∉ seen) (selector : String) (after : List Node) :
    Node.rule (joinSelectors (selector :: selectorsWithKey (blockKey body) after)) body ∈
      mergeFrom seen (before ++ .rule selector body :: after) := by
  induction before generalizing seen with
  | nil =>
    rw [List.nil_append, mergeFrom_rule, if_neg hs]
    exact List.mem_cons_self
  | cons node before ih =>
    obtain ⟨hnode, hbefore⟩ := List.forall_mem_cons.mp hb
    rw [List.cons_append]
    cases node with
    | declaration d => exact List.mem_cons_of_mem _ (ih hbefore hs)
    | atRule n p c => exact List.mem_cons_of_mem _ (ih hbefore hs)
    | rule t b =>
      rw [mergeFrom_rule]
      split
      · exact ih hbefore hs
      · have hne : blockKey body ≠ blockKey b := by
          intro he
          rw [Node.hasKey, he, beq_self_eq_true] at hnode
          exact Bool.false_ne_true hnode.symm
        have hs' : blockKey body ∉ blockKey b :: seen := by
          intro hm
          rcases List.mem_cons.mp hm with he | hm
          · exact hne he
          · exact hs hm
        exact List.mem_cons_of_mem _ (ih hbefore hs')

theorem exists_merged {nodes : List Node} {selector : String} {body : List Declaration}
    (h : Node.rule selector body ∈ nodes) :
    ∃ selectors first, Node.rule (joinSelectors selectors) first ∈ mergeDuplicates nodes ∧
      (∃ t, Node.rule t first ∈ nodes) ∧ blockKey first = blockKey body ∧ selector ∈ selectors ∧
      ∀ s ∈ selectors, ∃ b, Node.rule s b ∈ nodes ∧ blockKey b = blockKey body := by
  have hfind : (nodes.find? (Node.hasKey (blockKey body))).isSome = true := by
    rw [List.find?_isSome]
    exact ⟨_, h, beq_self_eq_true _⟩
  obtain ⟨node, hnode⟩ := Option.isSome_iff_exists.mp hfind
  obtain ⟨hkey, before, after, rfl, hbefore⟩ := List.find?_eq_some_iff_append.mp hnode
  cases node with
  | declaration d => simp [Node.hasKey] at hkey
  | atRule n p c => simp [Node.hasKey] at hkey
  | rule t first =>
    have hk : blockKey first = blockKey body := eq_of_beq hkey
    have hb : ∀ node ∈ before, node.hasKey (blockKey first) = false := by
      intro node hm
      have := hbefore node hm
      rwa [hk, ← Bool.not_eq_true']
    refine ⟨t :: selectorsWithKey (blockKey first) after, first,
      mem_mergeFrom hb List.not_mem_nil t after,
      ⟨t, List.mem_append_right _ List.mem_cons_self⟩, hk, ?_, ?_⟩
    · rcases List.mem_append.mp h with hm | hm
      · have := hb _ hm
        rw [Node.hasKey, hk, beq_self_eq_true] at this
        exact absurd this.symm Bool.false_ne_true
      · rcases List.mem_cons.mp hm with he | hm
        · rw [Node.rule.injEq] at he
          rw [he.1]
          exact List.mem_cons_self
        · exact List.mem_cons_of_mem _ (mem_selectorsWithKey.mpr ⟨body, hm, hk.symm⟩)
    · intro s hs
      rcases List.mem_cons.mp hs with rfl | hs
      · exact ⟨first, List.mem_append_right _ List.mem_cons_self, hk⟩
      · obtain ⟨b, hm, hb'⟩ := mem_selectorsWithKey.mp hs
        exact ⟨b, List.mem_append_right _ (List.mem_cons_of_mem _ hm), hb'.trans hk⟩

theorem blockKey_not_mem_seen {seen : List String} {nodes : List Node} {selector : String}
    {body : List Declaration} (h : Node.rule selector body ∈ mergeFrom seen nodes) :
    blockKey body ∉ seen := by
  induction nodes generalizing seen with
  | nil => exact absurd h List.not_mem_nil
  | cons node nodes ih =>
    cases node with
    | declaration d => exact ih ((List.mem_cons.mp h).resolve_left Node.noConfusion)
    | atRule n p c => exact ih ((List.mem_cons.mp h).resolve_left Node.noConfusion)
    | rule t b =>
      rw [mergeFrom_rule] at h
      split at h
      · exact ih h
      · rename_i hnew
        rcases List.mem_cons.mp h with he | h
        · obtain ⟨-, rfl⟩ := Node.rule.inj he
          exact hnew
        · exact fun hseen => ih h (List.mem_cons_of_mem _ hseen)

theorem eq_of_mem_mergeFrom {seen : List String} {nodes : List Node} {s t : String}
    {a b : List Declaration} (ha : Node.rule s a ∈ mergeFrom seen nodes)
    (hb : Node.rule t b ∈ mergeFrom seen nodes) (h : blockKey a = blockKey b) : s = t := by
  induction nodes generalizing seen with
  | nil => exact absurd ha List.not_mem_nil
  | cons node nodes ih =>
    cases node with
    | declaration d =>
      exact ih ((List.mem_cons.mp ha).resolve_left Node.noConfusion)
        ((List.mem_cons.mp hb).resolve_left Node.noConfusion)
    | atRule n p c =>
      exact ih ((List.mem_cons.mp ha).resolve_left Node.noConfusion)
        ((List.mem_cons.mp hb).resolve_left Node.noConfusion)
    | rule u c =>
      rw [mergeFrom_rule] at ha hb
      split at ha
      · rename_i hseen
        rw [if_pos hseen] at hb
        exact ih ha hb
      · rename_i hseen
        rw [if_neg hseen] at hb
        rcases List.mem_cons.mp ha with hea | ha
        · obtain ⟨hs, rfl⟩ := Node.rule.inj hea
          rcases List.mem_cons.mp hb with heb | hb
          · exact hs.trans (Node.rule.inj heb).1.symm
          · rw [h] at hb
            exact absurd List.mem_cons_self (blockKey_not_mem_seen hb)
        · rcases List.mem_cons.mp hb with heb | hb
          · obtain ⟨-, rfl⟩ := Node.rule.inj heb
            rw [← h] at ha
            exact absurd List.mem_cons_self (blockKey_not_mem_seen ha)
          · exact ih ha hb

theorem exists_merged_read {nodes : List Node}
    (hread : ∀ s b, Node.rule s b ∈ nodes → ∀ d ∈ b, Declaration.Separate d) {selector : String}
    {body : List Declaration} (h : Node.rule selector body ∈ nodes) :
    ∃ selectors first, Node.rule (joinSelectors selectors) first ∈ mergeDuplicates nodes ∧
      first.map Declaration.key = body.map Declaration.key ∧ selector ∈ selectors ∧
      ∀ s ∈ selectors, ∃ b, Node.rule s b ∈ nodes := by
  obtain ⟨selectors, first, hout, ⟨t, ht⟩, hk, hsel, hall⟩ := exists_merged h
  have hkeys := (blockKey_eq_iff (hread t first ht) (hread selector body h)).mp hk
  refine ⟨selectors, first, hout, hkeys, hsel, fun s hs => ?_⟩
  obtain ⟨b, hb, -⟩ := hall s hs
  exact ⟨b, hb⟩

end CssOptimizer
