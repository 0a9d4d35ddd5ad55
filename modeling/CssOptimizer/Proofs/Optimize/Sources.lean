import Mathlib.Data.List.Forall2
import CssOptimizer.Proofs.Atomic.Lasting
import CssOptimizer.Proofs.Duplicates.Sources

/-!
# Where optimized nodes come from

* `Options.keepsNode`      whether a node stays when unused rules go;
* `Node.StemsFrom`         what may become of a node that stays;
* `exists_sources`         behind the atomic rules every node stems from one that stays, in order,
                           and the nodes that are no rules are those of the source.

Each step leaves some of the nodes before it, in order: the first leaves them as they are, the
second gathers selectors (`mergeStep_sublist`), the last takes declarations out of rules
(`exists_atomicStep`).
-/

namespace CssOptimizer

/-! ## what becomes of a node -/

def Options.keepsNode (options : Options) (usage : Option Usage) (node : Node) : Bool :=
  !options.purge || usage.all (·.keeps node)

/-- the selector of a rule when rules are merged: those of all rules that stay with its block key,
in document order -/
def Options.selectorAmong (options : Options) (kept : List Node) (selector : String)
    (body : List Declaration) : String :=
  if options.deduplicate then
    joinSelectors ((kept.filter (Node.hasKey (blockKey body))).filterMap Node.selector?)
  else selector

/-- a node of the outcome and the node it stems from: a rule carries the selectors it is merged
with, and loses declarations only where they are taken out for atomic classes -/
inductive Node.StemsFrom (options : Options) (kept : List Node) : Node → Node → Prop
  | other (node : Node) (h : node.isRule = false) : StemsFrom options kept node node
  | rule (selector : String) (left body : List Declaration) (hs : left.Sublist body)
      (hw : (options.atomic && options.stripAtomic) = false → left = body) :
      StemsFrom options kept (.rule (options.selectorAmong kept selector body) left)
        (.rule selector body)

section
variable {options : Options} {usage : Option Usage} {o : Optimized}

/-! ## unused rules -/

theorem purgeStep_nodes :
    (purgeStep options usage o).nodes = o.nodes.filter (options.keepsNode usage) := by
  have hall : o.nodes.filter (fun _ => true) = o.nodes :=
    List.filter_eq_self.mpr fun _ _ => rfl
  unfold purgeStep Options.keepsNode
  cases options.purge with
  | false => exact hall.symm
  | true =>
    cases usage with
    | none => exact hall.symm
    | some u => rfl

theorem filter_keepsNode (nodes : List Node) :
    (nodes.filter (options.keepsNode usage)).filter (!·.isRule) = nodes.filter (!·.isRule) := by
  rw [List.filter_filter]
  refine List.filter_congr fun node _ => ?_
  cases node with
  | rule s body => rfl
  | declaration d =>
    show (true && (!options.purge || usage.all fun _ => true)) = true
    cases usage <;> simp
  | atRule n p c =>
    show (true && (!options.purge || usage.all fun _ => true)) = true
    cases usage <;> simp

/-! ## merged rules -/

/-- a node with the selector that merging gives it -/
def Options.gathered (options : Options) (kept : List Node) : Node → Node
  | .rule selector body => .rule (options.selectorAmong kept selector body) body
  | node => node

theorem mergeStep_sublist :
    (mergeStep options o).nodes.Sublist (o.nodes.map (options.gathered o.nodes)) := by
  unfold mergeStep
  cases hd : options.deduplicate with
  | true =>
    have hsame : options.gathered o.nodes = Node.gathered o.nodes := by
      funext node
      cases node with
      | rule s body =>
        rw [Options.gathered, Node.gathered, Options.selectorAmong, if_pos hd,
          selectorsWithKey_eq_filterMap]
      | declaration d => rfl
      | atRule n p c => rfl
    rw [hsame]
    exact mergeDuplicates_sublist o.nodes
  | false =>
    have hsame : options.gathered o.nodes = id := by
      funext node
      cases node with
      | rule s body =>
        rw [Options.gathered, Options.selectorAmong, if_neg (by rw [hd]; exact Bool.false_ne_true)]
        rfl
      | declaration d => rfl
      | atRule n p c => rfl
    rw [hsame, List.map_id]
    exact List.Sublist.refl _

theorem filter_mergeStep :
    (mergeStep options o).nodes.filter (!·.isRule) = o.nodes.filter (!·.isRule) := by
  unfold mergeStep
  cases options.deduplicate with
  | true => exact filter_mergeDuplicates o.nodes
  | false => rfl

/-- a rule behind the merge step has the body of a rule before it -/
theorem exists_rule_of_mem_mergeStep {t : String} {body : List Declaration}
    (h : Node.rule t body ∈ (mergeStep options o).nodes) : ∃ s, Node.rule s body ∈ o.nodes := by
  obtain ⟨node, hm, hnode⟩ := List.mem_map.mp (mergeStep_sublist.subset h)
  cases node with
  | declaration d => exact absurd hnode (by simp [Options.gathered])
  | atRule n p c => exact absurd hnode (by simp [Options.gathered])
  | rule s b =>
    obtain ⟨-, rfl⟩ := Node.rule.inj hnode
    exact ⟨s, hm⟩

/-! ## atomic classes -/

/-- what the atomic step leaves of a node -/
def Options.Leaves (options : Options) (left node : Node) : Prop :=
  left = node ∨ (options.atomic && options.stripAtomic) = true ∧
    ∃ s body p, node = .rule s body ∧ left = .rule s (body.filter p)

theorem sublistForall₂_filterMap {α : Type} {R : α → α → Prop} {f : α → Option α}
    (h : ∀ x y, f x = some y → R y x) (xs : List α) :
    List.SublistForall₂ R (xs.filterMap f) xs := by
  induction xs with
  | nil => exact List.SublistForall₂.nil
  | cons x xs ih =>
    cases hx : f x with
    | none =>
      rw [List.filterMap_cons_none hx]
      exact ih.cons_right
    | some y =>
      rw [List.filterMap_cons_some hx]
      exact List.SublistForall₂.cons (h x y hx) ih

theorem exists_atomicStep (hash : String → String) (options : Options)
    (hzero : o.atomicCreated = 0) :
    ∃ atomic rest, (atomicStep hash options o).nodes = atomic ++ rest ∧
      atomic.length = (atomicStep hash options o).atomicCreated ∧
      (options.atomic = false → atomic = []) ∧
      (∀ node ∈ atomic, ∃ s key name, Declares o.nodes s key ∧ node = atomicRule (key, name)) ∧
      rest.filter (!·.isRule) = o.nodes.filter (!·.isRule) ∧
      List.SublistForall₂ options.Leaves rest o.nodes := by
  have hrefl : List.SublistForall₂ options.Leaves o.nodes o.nodes :=
    List.sublistForall₂_iff.mpr
      ⟨o.nodes, List.forall₂_same.mpr fun _ _ => Or.inl rfl, List.Sublist.refl _⟩
  unfold atomicStep
  cases ha : options.atomic with
  | false =>
    exact ⟨[], o.nodes, rfl, hzero.symm, fun _ => rfl, fun node hn => absurd hn List.not_mem_nil,
      rfl, hrefl⟩
  | true =>
    have hatomic : ∀ node ∈ (nameFrequent hash options.atomicNaming o.nodes).map atomicRule,
        ∃ s key name, Declares o.nodes s key ∧ node = atomicRule (key, name) := by
      intro node hn
      obtain ⟨⟨key, name⟩, hentry, rfl⟩ := List.mem_map.mp hn
      obtain ⟨s, _, _, _, hdeclares, -⟩ := exists_name_iff.mp ⟨name, hentry⟩
      exact ⟨s, key, name, hdeclares, rfl⟩
    have hnot : true = false → (nameFrequent hash options.atomicNaming o.nodes).map atomicRule =
        [] := fun h => absurd h.symm Bool.false_ne_true
    cases hs : options.stripAtomic with
    | false => exact ⟨_, o.nodes, rfl, rfl, hnot, hatomic, rfl, hrefl⟩
    | true =>
      refine ⟨_, _, rfl, rfl, hnot, hatomic, filter_withoutNamed _ _, ?_⟩
      refine sublistForall₂_filterMap (fun node left hleft => ?_) o.nodes
      rcases withoutNamed_cases hleft with rfl | ⟨s, body, rfl, rfl⟩
      · exact Or.inl rfl
      · exact Or.inr ⟨by rw [ha, hs]; rfl, s, body, _, rfl, rfl⟩

/-- what is left of a node with its new selector stems from the node -/
theorem Options.Leaves.stemsFrom {kept : List Node} {left node : Node}
    (h : options.Leaves left (options.gathered kept node)) :
    Node.StemsFrom options kept left node := by
  cases node with
  | declaration d =>
    rcases h with rfl | ⟨-, s, body, p, he, -⟩
    · exact Node.StemsFrom.other _ rfl
    · exact absurd he (by simp [Options.gathered])
  | atRule n p c =>
    rcases h with rfl | ⟨-, s, body, q, he, -⟩
    · exact Node.StemsFrom.other _ rfl
    · exact absurd he (by simp [Options.gathered])
  | rule selector body =>
    rcases h with rfl | ⟨hstrip, s, b, p, he, rfl⟩
    · exact Node.StemsFrom.rule selector body body (List.Sublist.refl _) fun _ => rfl
    · obtain ⟨rfl, rfl⟩ := Node.rule.inj he
      refine Node.StemsFrom.rule selector _ body List.filter_sublist fun hno => ?_
      exact absurd (hno.symm.trans hstrip) Bool.false_ne_true

end

/-! ## all steps -/

theorem atomicCreated_mergeStep (options : Options) (usage : Option Usage) (o : Optimized) :
    (mergeStep options (purgeStep options usage o)).atomicCreated = o.atomicCreated := by
  unfold mergeStep purgeStep
  cases options.deduplicate <;> cases options.purge <;> cases usage <;> rfl

/-- nothing is made up: behind the atomic rules, which declare keys of rules that stay, every node
stems from one node that stays, in the order of the source; and the nodes that are no rules are
those of the source -/
theorem exists_sources (hash : String → String) (options : Options) (usage : Option Usage)
    (css : String) :
    let kept := (parse css).filter (options.keepsNode usage)
    let o := optimizeNodes hash options usage (parse css)
    o.nodes.filter (!·.isRule) = (parse css).filter (!·.isRule) ∧
      ∃ atomic rest, o.nodes = atomic ++ rest ∧ atomic.length = o.atomicCreated ∧
        (options.atomic = false → atomic = []) ∧
        (∀ node ∈ atomic, ∃ s body, Node.rule s body ∈ kept ∧
          ∃ d ∈ body, ∃ name, node = atomicRule (d.key, name)) ∧
        ∃ sources, sources.Sublist kept ∧
          List.Forall₂ (Node.StemsFrom options kept) rest sources := by
  intro kept o
  let purged := purgeStep options usage { nodes := parse css }
  let merged := mergeStep options purged
  have hpurged : purged.nodes = kept := purgeStep_nodes
  have hmerged : merged.nodes.Sublist (kept.map (options.gathered kept)) := by
    rw [← hpurged]
    exact mergeStep_sublist
  have hzero : merged.atomicCreated = 0 := atomicCreated_mergeStep options usage _
  have hothers : merged.nodes.filter (!·.isRule) = (parse css).filter (!·.isRule) := by
    calc merged.nodes.filter (!·.isRule)
        = purged.nodes.filter (!·.isRule) := filter_mergeStep
      _ = kept.filter (!·.isRule) := by rw [hpurged]
      _ = (parse css).filter (!·.isRule) := filter_keepsNode (parse css)
  obtain ⟨atomic, rest, hnodes, hlength, hnot, hatomic, hrest, hleft⟩ :=
    exists_atomicStep hash options hzero
  have hnone : atomic.filter (!·.isRule) = [] := by
    refine List.filter_eq_nil_iff.mpr fun node hn => ?_
    obtain ⟨s, key, name, -, rfl⟩ := hatomic node hn
    exact Bool.false_ne_true
  refine ⟨?_, atomic, rest, hnodes, hlength, hnot, fun node hn => ?_, ?_⟩
  · calc o.nodes.filter (!·.isRule)
        = atomic.filter (!·.isRule) ++ rest.filter (!·.isRule) := by
          rw [← List.filter_append, ← hnodes]
          rfl
      _ = (parse css).filter (!·.isRule) := by rw [hnone, List.nil_append, hrest, hothers]
  · obtain ⟨t, key, name, ⟨body, hbody, d, hd, rfl⟩, rfl⟩ := hatomic node hn
    obtain ⟨s, hs⟩ := exists_rule_of_mem_mergeStep hbody
    exact ⟨s, body, hpurged ▸ hs, d, hd, name, rfl⟩
  · obtain ⟨gathered, hforall, hsub⟩ := List.sublistForall₂_iff.mp hleft
    obtain ⟨sources, hsources, rfl⟩ := List.sublist_map_iff.mp (hsub.trans hmerged)
    refine ⟨sources, hsources, ?_⟩
    exact (List.forall₂_map_right_iff.mp hforall).imp fun _ _ h => h.stemsFrom

end CssOptimizer
