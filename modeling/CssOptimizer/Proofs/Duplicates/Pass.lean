import CssOptimizer.Collection.NameMap
import CssOptimizer.Proofs.Atomic.Cascade
import CssOptimizer.Proofs.Duplicates.Again
import CssOptimizer.Proofs.Duplicates.Unrepeated

/-!
# Merging in one pass

Duplicates can be merged without looking ahead: a rule with a new block key is written, and the
selector of a later one is added to the rule that was written, whose place is kept with the key.

* `MergePass`            the nodes written so far and the place of each block key among them;
* `MergePass.run`        a pass over a stylesheet;
* `MergePass.Follows`    what holds of a pass after each node;
* `mergePlaces`          the place where the pass leaves each node;
* `PlainProperties`      stylesheets in which only values hold semicolons.

Main statement: a pass writes the merged stylesheet, each rule is left in the one that carries all
selectors of its block key, and two rules that were read are left in one place exactly if their
bodies are the same (`mergedByKey`).
-/

namespace CssOptimizer

/-! ## the pass -/

/-- changing the one image that a predicate finds -/
theorem modify_map_findIdx? {α β : Type} {p : α → Bool} {f g : α → β} {change : β → β} {l : List α}
    (hl : l.Pairwise fun a b => p a = true → p b = false) {i : Nat} (hi : l.findIdx? p = some i)
    (hyes : ∀ a ∈ l, p a = true → g a = change (f a))
    (hno : ∀ a ∈ l, p a = false → g a = f a) : (l.map f).modify i change = l.map g := by
  induction l generalizing i with
  | nil => exact absurd hi (by simp)
  | cons a l ih =>
    obtain ⟨ha, hl⟩ := List.pairwise_cons.mp hl
    obtain ⟨hya, hyes⟩ := List.forall_mem_cons.mp hyes
    obtain ⟨hna, hno⟩ := List.forall_mem_cons.mp hno
    rw [List.findIdx?_cons] at hi
    cases hp : p a with
    | true =>
      rw [hp, if_pos rfl, Option.some.injEq] at hi
      have hrest : l.map f = l.map g :=
        List.map_congr_left fun b hb => (hno b hb (ha b hb hp)).symm
      rw [← hi, List.map_cons, List.modify_zero_cons, List.map_cons, hya hp, hrest]
    | false =>
      rw [hp, if_neg Bool.false_ne_true] at hi
      obtain ⟨j, hj, rfl⟩ := Option.map_eq_some_iff.mp hi
      rw [List.map_cons, List.modify_succ_cons, List.map_cons, hna hp, ih hl hj hyes hno]

/-- a rule with one more selector -/
def Node.carry (more : String) : Node → Node
  | .rule selector body => .rule (selector ++ ", " ++ more) body
  | node => node

/-- the nodes written so far, and where among them the rule with a block key stands -/
structure MergePass where
  output : List Node := []
  places : NameMap Nat := ∅

namespace MergePass

/-- where a node goes: a rule to the one with its block key, and else behind what is written -/
def place (p : MergePass) : Node → Nat
  | .rule _ body => (p.places.get? (blockKey body)).getD p.output.length
  | _ => p.output.length

def step (p : MergePass) : Node → MergePass
  | .rule selector body =>
    match p.places.get? (blockKey body) with
    | some i => { p with output := p.output.modify i (Node.carry selector) }
    | none => ⟨p.output ++ [.rule selector body], p.places.insert (blockKey body) p.output.length⟩
  | node => { p with output := p.output ++ [node] }

theorem step_old {p : MergePass} {body : List Declaration} {i : Nat}
    (h : p.places.get? (blockKey body) = some i) (s : String) :
    p.step (.rule s body) = { p with output := p.output.modify i (Node.carry s) } := by
  simp only [step, h]

theorem step_new {p : MergePass} {body : List Declaration}
    (h : p.places.get? (blockKey body) = none) (s : String) :
    p.step (.rule s body) =
      ⟨p.output ++ [.rule s body], p.places.insert (blockKey body) p.output.length⟩ := by
  simp only [step, h]

def run (nodes : List Node) : MergePass := nodes.foldl step {}

theorem run_concat (nodes : List Node) (node : Node) :
    run (nodes ++ [node]) = (run nodes).step node := by
  rw [run, List.foldl_append]
  rfl

/-- after some nodes the pass has written the unrepeated ones with their selectors so far, and
knows the place of each block key -/
structure Follows (p : MergePass) (nodes : List Node) : Prop where
  output : p.output = (unrepeated nodes).map (Node.gathered nodes)
  places : ∀ key, p.places.get? key = (unrepeated nodes).findIdx? (Node.hasKey key)

section
variable {p : MergePass} {nodes : List Node} (h : p.Follows nodes)
include h

/-- a node that repeats none before it comes to stand behind them -/
theorem Follows.written {node : Node} (hr : node.repeats nodes = false) :
    p.output ++ [node] =
      (unrepeated (nodes ++ [node])).map (Node.gathered (nodes ++ [node])) := by
  have hall := pairwise_unrepeated (nodes ++ [node])
  rw [unrepeated_concat_new hr, List.pairwise_append] at hall
  have hbefore : (unrepeated nodes).map (Node.gathered nodes) =
      (unrepeated nodes).map (Node.gathered (nodes ++ [node])) := by
    refine List.map_congr_left fun m hm => ?_
    have hapart : m.Apart node := hall.2.2 m hm node (List.mem_singleton_self node)
    exact (hapart.gathered_concat nodes).symm
  have hself : node.gathered (nodes ++ [node]) = node := by
    cases node with
    | declaration d => rfl
    | atRule n p c => rfl
    | rule s body =>
      rw [gathered_of_not_repeats hr, selectorsWithKey, Selector.joinSelectors_singleton]
  rw [unrepeated_concat_new hr, List.map_append, List.map_singleton, hself, ← hbefore, h.output]

theorem Follows.repeats_eq {s : String} {body : List Declaration} :
    (Node.rule s body).repeats nodes = (p.places.get? (blockKey body)).isSome := by
  rw [h.places, List.findIdx?_isSome, any_unrepeated]
  rfl

/-- a rule with an old block key adds its selector to the rule that stands for it -/
theorem Follows.carried {s : String} {body : List Declaration} {i : Nat}
    (hi : p.places.get? (blockKey body) = some i) :
    p.output.modify i (Node.carry s) =
      (unrepeated nodes).map (Node.gathered (nodes ++ [.rule s body])) := by
  rw [h.output]
  rw [h.places] at hi
  refine modify_map_findIdx? ?_ hi ?_ ?_
  · exact (pairwise_unrepeated nodes).imp fun hapart => hapart _
  · intro m hm hk
    obtain ⟨t, b, rfl, hb⟩ := Node.exists_of_hasKey hk
    have hne : selectorsWithKey (blockKey b) nodes ≠ [] := by
      rw [ne_eq, selectorsWithKey_eq_nil_iff, ← any_unrepeated, Bool.not_eq_false, hb]
      exact List.any_eq_true.mpr ⟨_, hm, hk⟩
    have hone : selectorsWithKey (blockKey b) [Node.rule s body] = [s] := if_pos hb.symm
    rw [Node.gathered, Node.gathered, selectorsWithKey_append, hone,
      Selector.joinSelectors_concat hne]
    rfl
  · intro m _ hk
    refine Node.Apart.gathered_concat (fun key hkey => ?_) nodes
    rw [Bool.eq_false_iff]
    intro hbody
    rw [← eq_of_beq hbody] at hkey
    exact Bool.false_ne_true (hk.symm.trans hkey)

/-- the places of the block keys with a node that repeats none before it -/
theorem Follows.findIdx?_written {node : Node} (hr : node.repeats nodes = false) (key : String) :
    (unrepeated (nodes ++ [node])).findIdx? (Node.hasKey key) =
      if node.hasKey key then some p.output.length else p.places.get? key := by
  have hlength : p.output.length = (unrepeated nodes).length := by
    rw [h.output, List.length_map]
  rw [unrepeated_concat_new hr, List.findIdx?_append, ← h.places, List.findIdx?_singleton, hlength]
  cases hk : node.hasKey key with
  | false => simp
  | true =>
    obtain ⟨s, body, rfl, rfl⟩ := Node.exists_of_hasKey hk
    have hnone : p.places.get? (blockKey body) = none := by
      rwa [h.repeats_eq, Option.isSome_eq_false_iff, Option.isNone_iff_eq_none] at hr
    simp [hnone]

theorem Follows.step (node : Node) : (p.step node).Follows (nodes ++ [node]) := by
  have hother (hr : node.repeats nodes = false) (hk : ∀ key, node.hasKey key = false) :
      Follows { p with output := p.output ++ [node] } (nodes ++ [node]) := by
    refine ⟨h.written hr, fun key => ?_⟩
    rw [h.findIdx?_written hr, hk, if_neg Bool.false_ne_true]
  cases node with
  | declaration d => exact hother rfl fun _ => rfl
  | atRule n q c => exact hother rfl fun _ => rfl
  | rule s body =>
    cases hi : p.places.get? (blockKey body) with
    | some i =>
      have hsame : unrepeated (nodes ++ [.rule s body]) = unrepeated nodes := by
        rw [unrepeated_concat, h.repeats_eq, hi, Option.isSome_some, if_pos rfl, List.append_nil]
      rw [step_old hi]
      refine ⟨?_, fun key => ?_⟩
      · rw [hsame]
        exact h.carried hi
      · rw [hsame]
        exact h.places key
    | none =>
      have hr : (Node.rule s body).repeats nodes = false := by
        rw [h.repeats_eq, hi]
        rfl
      rw [step_new hi]
      refine ⟨h.written hr, fun key => ?_⟩
      rw [h.findIdx?_written hr, Node.hasKey, NameMap.get?_insert]
      simp only [beq_iff_eq]

end

theorem follows_run (nodes : List Node) : (run nodes).Follows nodes := by
  induction nodes using List.reverseRecOn with
  | nil => exact ⟨rfl, fun _ => rfl⟩
  | append_singleton nodes node ih =>
    rw [run_concat]
    exact ih.step node

/-- the place where a pass leaves a rule is known to it from then on -/
theorem get?_step_place (p : MergePass) (s : String) (body : List Declaration) :
    (p.step (.rule s body)).places.get? (blockKey body) = some (p.place (.rule s body)) := by
  cases hi : p.places.get? (blockKey body) with
  | some i => rw [step_old hi, place, hi, Option.getD_some]
  | none => rw [step_new hi, NameMap.get?_insert, if_pos rfl, place, hi, Option.getD_none]

end MergePass

def mergePlaces (nodes : List Node) : List Nat :=
  nodes.mapIdx fun i node => (MergePass.run (nodes.take i)).place node

/-- a rule is left where the first rule with its block key is -/
theorem getElem?_mergePlaces {nodes : List Node} {i : Nat} {s : String} {body : List Declaration}
    (h : nodes[i]? = some (.rule s body)) :
    (mergePlaces nodes)[i]? = (unrepeated nodes).findIdx? (Node.hasKey (blockKey body)) := by
  obtain ⟨hi, hnode⟩ := List.getElem?_eq_some_iff.mp h
  have hnext : nodes.take i ++ [.rule s body] = nodes.take (i + 1) := by
    rw [← hnode, List.take_append_getElem]
  have hplace : (unrepeated (nodes.take (i + 1))).findIdx? (Node.hasKey (blockKey body)) =
      some ((MergePass.run (nodes.take i)).place (.rule s body)) := by
    rw [← MergePass.get?_step_place, ← MergePass.run_concat, hnext,
      (MergePass.follows_run _).places]
  have hprefix : unrepeated (nodes.take (i + 1)) <+: unrepeated nodes := by
    have := unrepeated_prefix (nodes.take (i + 1)) (nodes.drop (i + 1))
    rwa [List.take_append_drop] at this
  rw [mergePlaces, List.getElem?_mapIdx, h, hprefix.findIdx?_eq_some hplace]
  rfl

/-- each rule is left in the rule that carries all selectors of its block key -/
theorem exists_mergePlaces {nodes : List Node} {i : Nat} {s : String} {body : List Declaration}
    (h : nodes[i]? = some (.rule s body)) :
    ∃ k first, (mergePlaces nodes)[i]? = some k ∧
      (mergeDuplicates nodes)[k]? =
        some (.rule (joinSelectors (selectorsWithKey (blockKey body) nodes)) first) ∧
      blockKey first = blockKey body := by
  have hsome : ((unrepeated nodes).findIdx? (Node.hasKey (blockKey body))).isSome = true := by
    rw [List.findIdx?_isSome, any_unrepeated]
    exact List.any_eq_true.mpr ⟨_, List.mem_of_getElem? h, beq_self_eq_true _⟩
  obtain ⟨k, hk⟩ := Option.isSome_iff_exists.mp hsome
  obtain ⟨hlt, hkey, -⟩ := List.findIdx?_eq_some_iff_getElem.mp hk
  obtain ⟨t, first, hnode, hfirst⟩ := Node.exists_of_hasKey hkey
  refine ⟨k, first, (getElem?_mergePlaces h).trans hk, ?_, hfirst⟩
  rw [mergeDuplicates_eq_map_unrepeated, List.getElem?_map, List.getElem?_eq_getElem hlt, hnode,
    Option.map_some, Node.gathered, hfirst]

section
variable {nodes : List Node} {i j : Nat} {s t : String} {a b : List Declaration}

theorem mergePlaces_eq_iff (hi : nodes[i]? = some (.rule s a)) (hj : nodes[j]? = some (.rule t b)) :
    (mergePlaces nodes)[i]? = (mergePlaces nodes)[j]? ↔ blockKey a = blockKey b := by
  constructor
  · intro h
    obtain ⟨k, first, hk, hfirst, ha⟩ := exists_mergePlaces hi
    obtain ⟨l, second, hl, hsecond, hb⟩ := exists_mergePlaces hj
    rw [hk, hl, Option.some.injEq] at h
    rw [h, hsecond, Option.some.injEq, Node.rule.injEq] at hfirst
    rw [← ha, ← hb, hfirst.2]
  · intro h
    rw [getElem?_mergePlaces hi, getElem?_mergePlaces hj, h]

/-! ## stylesheets that were read -/

def PlainProperties (nodes : List Node) : Prop :=
  ∀ s body, Node.rule s body ∈ nodes → ∀ d ∈ body, ';' ∉ d.property.toList

theorem declarations_of_keys {body : List Declaration} (h : ∀ d ∈ body, d.Separate)
    (hp : ∀ d ∈ body, ';' ∉ d.property.toList) :
    (body.map Declaration.key).map DeclarationKey.declaration = body := by
  have hback : ∀ d ∈ body, d.key.declaration = id d := by
    intro d hd
    rw [(h d hd).key_eq (hp d hd)]
    rfl
  rw [List.map_map]
  exact (List.map_congr_left hback).trans (List.map_id body)

theorem blockKey_eq_iff_of_read (hread : MeetsAll .read nodes) (hp : PlainProperties nodes)
    (ha : Node.rule s a ∈ nodes) (hb : Node.rule t b ∈ nodes) :
    blockKey a = blockKey b ↔ a = b := by
  have hsa := separate_of_read hread ha
  have hsb := separate_of_read hread hb
  rw [blockKey_eq_iff hsa hsb]
  constructor
  · intro h
    rw [← declarations_of_keys hsa (hp s a ha), h, declarations_of_keys hsb (hp t b hb)]
  · exact congrArg _

end

/-- how rules are merged -/
structure MergedByKey (nodes : List Node) : Prop where
  reference : mergeDuplicates nodes = (unrepeated nodes).map (Node.gathered nodes)
  onePass : (MergePass.run nodes).output = mergeDuplicates nodes
  apart : (mergeDuplicates nodes).Pairwise Node.Apart
  again : mergeDuplicates (mergeDuplicates nodes) = mergeDuplicates nodes
  placed : ∀ (i : Nat) s body, nodes[i]? = some (Node.rule s body) → ∃ k first,
    (mergePlaces nodes)[i]? = some k ∧
      (mergeDuplicates nodes)[k]? =
        some (Node.rule (joinSelectors (selectorsWithKey (blockKey body) nodes)) first) ∧
      blockKey first = blockKey body
  sameBody : ∀ css, nodes = parse css → PlainProperties nodes → ∀ (i j : Nat) s t a b,
    nodes[i]? = some (Node.rule s a) → nodes[j]? = some (Node.rule t b) →
      ((mergePlaces nodes)[i]? = (mergePlaces nodes)[j]? ↔ a = b)

/-- rules are merged by their block keys, which tell the bodies of rules that were read apart -/
theorem mergedByKey (nodes : List Node) : MergedByKey nodes where
  reference := mergeDuplicates_eq_map_unrepeated nodes
  onePass := by rw [(MergePass.follows_run nodes).output, mergeDuplicates_eq_map_unrepeated]
  apart := pairwise_mergeDuplicates nodes
  again := mergeDuplicates_mergeDuplicates nodes
  placed _ _ _ h := exists_mergePlaces h
  sameBody css hcss hp i j s t a b hi hj := by
    have hread : MeetsAll .read nodes := hcss ▸ read_parse css
    rw [mergePlaces_eq_iff hi hj]
    exact blockKey_eq_iff_of_read hread hp (List.mem_of_getElem? hi) (List.mem_of_getElem? hj)

/-- values with the delimiters of a block key in their strings and parentheses -/
def quotedSheet : String :=
  ".a\x7bp:\x22x;q:1\x22\x7d@media print\x7b.m\x7bp:1\x7d\x7d.b\x7bp:\x22x;q:1\x22\x7d" ++
    ".c\x7bp:u(;:);q:1\x7d.d\x7bp:u(;:)\x7d.e\x7bp:u(;:);q:1\x7d"

theorem mergedByKey_quotedSheet :
    PlainProperties (parse quotedSheet) ∧
    mergePlaces (parse quotedSheet) = [0, 1, 0, 2, 3, 2] ∧
    MergedByKey (parse quotedSheet) := by
  have hplain : PlainProperties (parse quotedSheet) := by
    have hall : ∀ node ∈ parse quotedSheet, ∀ d ∈ node.body, ';' ∉ d.property.toList := by
      decide +kernel
    exact fun s body hm => hall _ hm
  have hplaces : mergePlaces (parse quotedSheet) = [0, 1, 0, 2, 3, 2] := by decide +kernel
  exact ⟨hplain, hplaces, mergedByKey _⟩

/-- a semicolon at the end of a property is none of its key, so these two are merged -/
example : mergePlaces (parse ".a\x7bx(;:1)\x7d.b\x7bx(:1)\x7d") = [0, 0] := by decide +kernel

end CssOptimizer
