import CssOptimizer.Proofs.Usage.Tags
import Mathlib.Data.List.Induction
import Mathlib.Data.List.Perm.Basic

/-!
# Unions of usages

* `merge_comm`, `merge_assoc`, `empty_merge`   merging is a union, so the order of usages does not
                                               matter (`mergeAll_perm`);
* `keeps_merge`, `keeps_mergeAll`   a node stays under a union exactly if it does under a part;
* `Markup.eq_mergeAll_of_scanned`   however the usages of sources are merged, their union comes out;
* `keepsByUnion`   what this means for the rules that are removed.
-/

namespace CssOptimizer

namespace NameSet

theorem union_comm (s t : NameSet) : s ∪ t = t ∪ s :=
  ext_mem fun _ => by rw [mem_union, mem_union, or_comm]

theorem union_assoc (s t r : NameSet) : s ∪ t ∪ r = s ∪ (t ∪ r) :=
  ext_mem fun _ => by simp only [mem_union, or_assoc]

theorem empty_union (s : NameSet) : ∅ ∪ s = s :=
  ext_mem fun a => mem_union.trans (or_iff_right (not_mem_empty a))

theorem contains_union (s t : NameSet) (a : String) :
    (s ∪ t).contains a = (s.contains a || t.contains a) := by
  rw [Bool.eq_iff_iff, Bool.or_eq_true, contains_iff, contains_iff, contains_iff, mem_union]

theorem any_contains_union (names : List String) (s t : NameSet) :
    names.any (s ∪ t).contains = (names.any s.contains || names.any t.contains) := by
  rw [Bool.eq_iff_iff, Bool.or_eq_true]
  simp only [List.any_eq_true, contains_union, Bool.or_eq_true, and_or_left, exists_or]

end NameSet

namespace Usage

/-! ## unions -/

theorem merge_comm (u v : Usage) : u.merge v = v.merge u := by
  simp only [merge, NameSet.union_comm u.classes, NameSet.union_comm u.ids,
    NameSet.union_comm u.tags, NameSet.union_comm u.attributes]

theorem merge_assoc (u v w : Usage) : (u.merge v).merge w = u.merge (v.merge w) := by
  simp only [merge, NameSet.union_assoc]

theorem empty_merge (u : Usage) : empty.merge u = u := by
  simp only [merge, empty, NameSet.empty_union]

theorem merge_right_comm (u v w : Usage) : (u.merge v).merge w = (u.merge w).merge v := by
  rw [merge_assoc, merge_comm v w, ← merge_assoc]

theorem mergeAll_concat (us : List Usage) (u : Usage) :
    mergeAll (us ++ [u]) = (mergeAll us).merge u := List.foldl_append

theorem mergeAll_append (us vs : List Usage) :
    mergeAll (us ++ vs) = (mergeAll us).merge (mergeAll vs) := by
  induction vs using List.reverseRecOn with
  | nil =>
    rw [List.append_nil, merge_comm]
    exact (empty_merge _).symm
  | append_singleton vs v ih =>
    rw [← List.append_assoc, mergeAll_concat, ih, mergeAll_concat, merge_assoc]

theorem mergeAll_perm {us vs : List Usage} (h : us.Perm vs) : mergeAll us = mergeAll vs :=
  h.foldl_eq' (fun v _ w _ u => merge_right_comm u v w) empty

/-! ## what stays -/

/-- each kind of evidence for a component comes from one part of the union -/
theorem coversComponent_merge (u v : Usage) (component : String) :
    (u.merge v).coversComponent component =
      (u.coversComponent component || v.coversComponent component) := by
  have hclasses := NameSet.any_contains_union (Selector.classes component) u.classes v.classes
  have hids := NameSet.any_contains_union (Selector.ids component) u.ids v.ids
  have htag : (Selector.tag? component).any (u.tags ∪ v.tags).contains =
      ((Selector.tag? component).any u.tags.contains ||
        (Selector.tag? component).any v.tags.contains) := by
    cases Selector.tag? component with
    | none => rfl
    | some tag => exact NameSet.contains_union u.tags v.tags tag
  have hdata := NameSet.any_contains_union (Selector.dataAttributes component) u.attributes
    v.attributes
  simp only [coversComponent, merge, hclasses, hids, htag, hdata]
  cases Selector.isGlobal component with
  | true => simp only [Bool.true_or]
  | false =>
    simp only [Bool.false_or]
    ac_rfl

theorem covers_merge (u v : Usage) (selector : String) :
    (u.merge v).covers selector = true ↔
      u.covers selector = true ∨ v.covers selector = true := by
  simp only [covers, List.any_eq_true, coversComponent_merge, Bool.or_eq_true, and_or_left,
    exists_or]

theorem keeps_merge (u v : Usage) (node : Node) :
    (u.merge v).keeps node = (u.keeps node || v.keeps node) := by
  cases node with
  | declaration d => rfl
  | atRule n p c => rfl
  | rule s body =>
    rw [Bool.eq_iff_iff, Bool.or_eq_true]
    exact covers_merge u v s

theorem keeps_mergeAll (us : List Usage) (node : Node) :
    (mergeAll us).keeps node = (empty.keeps node || us.any (·.keeps node)) := by
  induction us using List.reverseRecOn with
  | nil => exact (Bool.or_false _).symm
  | append_singleton us u ih =>
    rw [mergeAll_concat, keeps_merge, ih, List.any_append, List.any_cons, List.any_nil,
      Bool.or_false, Bool.or_assoc]

end Usage

/-! ## markup -/

namespace Markup

theorem eq_mergeAll_of_scanned {ms : List Markup} {u : Usage} (h : Scanned ms u) :
    u = Usage.mergeAll (ms.map usage) := by
  induction h with
  | empty => rfl
  | source m => exact (Usage.empty_merge _).symm
  | merge left right ihl ihr => rw [List.map_append, Usage.mergeAll_append, ← ihl, ← ihr]

/-- with more sources more nodes stay -/
theorem keeps_of_scanned {ms ns : List Markup} {u v : Usage} (hu : Scanned ms u)
    (hv : Scanned ns v) (h : ms ⊆ ns) {node : Node} (hnode : u.keeps node = true) :
    v.keeps node = true := by
  rw [eq_mergeAll_of_scanned hu, Usage.keeps_mergeAll, Bool.or_eq_true, List.any_eq_true] at hnode
  rw [eq_mergeAll_of_scanned hv, Usage.keeps_mergeAll, Bool.or_eq_true, List.any_eq_true]
  refine hnode.imp id fun ⟨w, hw, hkeeps⟩ => ⟨w, List.map_subset _ h hw, hkeeps⟩

end Markup

/-! ## what is removed -/

/-- how the rules of a stylesheet that stay depend on the usage -/
structure KeepsByUnion (nodes : List Node) : Prop where
  /-- a node stays under a union of two usages if it stays under one of them -/
  merged : ∀ u v : Usage, removeUnused (u.merge v) nodes =
    nodes.filter fun node => u.keeps node || v.keeps node
  mem_merged : ∀ (u v : Usage) (node : Node), node ∈ removeUnused (u.merge v) nodes ↔
    node ∈ removeUnused u nodes ∨ node ∈ removeUnused v nodes
  /-- it stays under two usages, one after the other, if it stays under both -/
  chained : ∀ u v : Usage, removeUnused v (removeUnused u nodes) =
    nodes.filter fun node => u.keeps node && v.keeps node
  mem_chained : ∀ (u v : Usage) (node : Node), node ∈ removeUnused v (removeUnused u nodes) ↔
    node ∈ removeUnused u nodes ∧ node ∈ removeUnused v nodes
  /-- what stays does so in order, and other nodes than rules always stay -/
  sublist : ∀ u, (removeUnused u nodes).Sublist nodes
  others : ∀ u, (removeUnused u nodes).filter (!·.isRule) = nodes.filter (!·.isRule)
  /-- more sources take no rule away, however their usages are merged -/
  grows : ∀ ms ns u v, Markup.Scanned ms u → Markup.Scanned ns v → ms ⊆ ns →
    (removeUnused u nodes).Sublist (removeUnused v nodes)
  /-- the order in which they are merged does not matter -/
  ordered : ∀ ms ns u v, Markup.Scanned ms u → Markup.Scanned ns v → ms.Perm ns →
    u = v ∧ removeUnused u nodes = removeUnused v nodes

theorem removeUnused_merge (u v : Usage) (nodes : List Node) :
    removeUnused (u.merge v) nodes = nodes.filter fun node => u.keeps node || v.keeps node :=
  List.filter_congr fun node _ => Usage.keeps_merge u v node

theorem removeUnused_removeUnused (u v : Usage) (nodes : List Node) :
    removeUnused v (removeUnused u nodes) =
      nodes.filter fun node => u.keeps node && v.keeps node := by
  rw [removeUnused, removeUnused, List.filter_filter]
  exact List.filter_congr fun node _ => Bool.and_comm ..

theorem mem_removeUnused {u : Usage} {nodes : List Node} {node : Node} :
    node ∈ removeUnused u nodes ↔ node ∈ nodes ∧ u.keeps node = true := List.mem_filter

theorem filter_removeUnused (u : Usage) (nodes : List Node) :
    (removeUnused u nodes).filter (!·.isRule) = nodes.filter (!·.isRule) := by
  rw [removeUnused, List.filter_filter]
  refine List.filter_congr fun node _ => ?_
  cases node with
  | declaration d => rfl
  | atRule n p c => rfl
  | rule s body => rfl

theorem keepsByUnion (nodes : List Node) : KeepsByUnion nodes where
  merged u v := removeUnused_merge u v nodes
  mem_merged u v node := by
    rw [mem_removeUnused, mem_removeUnused, mem_removeUnused, Usage.keeps_merge, Bool.or_eq_true,
      and_or_left]
  chained u v := removeUnused_removeUnused u v nodes
  mem_chained u v node := by
    rw [mem_removeUnused, mem_removeUnused, mem_removeUnused, and_assoc, and_and_left, and_assoc]
  sublist u := removeUnused_sublist u nodes
  others u := filter_removeUnused u nodes
  grows ms ns u v hu hv h :=
    List.monotone_filter_right nodes fun node => Markup.keeps_of_scanned hu hv h
  ordered ms ns u v hu hv h := by
    have huv : u = v := by
      rw [Markup.eq_mergeAll_of_scanned hu, Markup.eq_mergeAll_of_scanned hv]
      exact Usage.mergeAll_perm (h.map Markup.usage)
    exact ⟨huv, by rw [huv]⟩

/-- a page and a component -/
def cardPage : Markup := .html "<p class=\x22card\x22>"
def rowItem : Markup := .component "<li className=\x22row\x22/>"

/-- rules for one source each, for both and for none, and others that stay in any case -/
def listSheet : List Node :=
  [.rule ".card, .gone" [], .rule ".gone" [], .rule ".row" [], .rule "li.card" [],
    .atRule "media" "print" [.rule ".gone" []], .rule ":root" []]

theorem keepsByUnion_listSheet :
    Markup.Scanned [cardPage, rowItem] (cardPage.usage.merge rowItem.usage) ∧
    Markup.Scanned [rowItem, cardPage] (rowItem.usage.merge cardPage.usage) ∧
    removeUnused (cardPage.usage.merge rowItem.usage) listSheet =
      [.rule ".card, .gone" [], .rule ".row" [], .rule "li.card" [],
        .atRule "media" "print" [.rule ".gone" []], .rule ":root" []] ∧
    removeUnused (rowItem.usage.merge cardPage.usage) listSheet =
      removeUnused (cardPage.usage.merge rowItem.usage) listSheet ∧
    (removeUnused rowItem.usage listSheet).Sublist
      (removeUnused (cardPage.usage.merge rowItem.usage) listSheet) ∧
    removeUnused rowItem.usage (removeUnused cardPage.usage listSheet) =
      [.rule "li.card" [], .atRule "media" "print" [.rule ".gone" []], .rule ":root" []] := by
  have h := keepsByUnion listSheet
  have hone : Markup.Scanned [rowItem] rowItem.usage := .source rowItem
  have hboth : Markup.Scanned [cardPage, rowItem] (cardPage.usage.merge rowItem.usage) :=
    .merge (.source cardPage) hone
  have hswap : Markup.Scanned [rowItem, cardPage] (rowItem.usage.merge cardPage.usage) :=
    .merge hone (.source cardPage)
  refine ⟨hboth, hswap, ?_, ?_, ?_, ?_⟩
  · rw [h.merged]
    decide +kernel
  · exact (h.ordered _ _ _ _ hswap hboth (List.Perm.swap ..)).2
  · exact h.grows _ _ _ _ hone hboth (List.subset_cons_self ..)
  · rw [h.chained]
    decide +kernel

end CssOptimizer
