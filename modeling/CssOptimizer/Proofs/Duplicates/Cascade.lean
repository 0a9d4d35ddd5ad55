import CssOptimizer.Proofs.Atomic.Cascade
import CssOptimizer.Proofs.Duplicates
import CssOptimizer.Proofs.Selector.Components

/-!
# Merged rules and the last declaration

Among the rules that apply to an element the last one that declares a property decides it.  A
rule that is merged stands where the first rule with its block key stands, so that rules between
the two come to stand behind it.

* `Node.applies`                   whether a component of the selector is one of those that match
                                   the element;
* `resolved`                       the value that a property gets;
* `firstBodies`                    the bodies that stay, in order of first appearance;
* `reaches`                        whether a rule with the same block key applies;
* `KeepsLastWord`                  when the value that won still does.

Main statement: a property keeps its value exactly in this case (`resolved_mergeDuplicates_iff`).
-/

namespace CssOptimizer

section
variable (matched : String → Bool)

def Node.applies : Node → Bool
  | .rule selector _ => (Selector.components selector).any matched
  | _ => false

def resolved (property : String) (nodes : List Node) : Option String :=
  lastValue property ((nodes.filter (Node.applies matched)).flatMap Node.body)

def firstBodies (seen : List String) : List Node → List (List Declaration)
  | [] => []
  | .rule _ body :: nodes =>
    if blockKey body ∈ seen then firstBodies seen nodes
    else body :: firstBodies (blockKey body :: seen) nodes
  | _ :: nodes => firstBodies seen nodes

def reaches (nodes : List Node) (body : List Declaration) : Bool :=
  nodes.any fun node => node.applies matched && node.hasKey (blockKey body)

/-- the value that won is given by a body that reaches the element, and no body behind this one
gives another value; where no value won, no body gives one -/
structure KeepsLastWord (property : String) (nodes : List Node) : Prop where
  some : ∀ v, resolved matched property nodes = some v →
    ∃ before body after, firstBodies [] nodes = before ++ body :: after ∧
      reaches matched nodes body = true ∧ lastValue property body = some v ∧
      ∀ b ∈ after, reaches matched nodes b = true → ∀ w, lastValue property b = some w → w = v
  none : resolved matched property nodes = none →
    ∀ body ∈ firstBodies [] nodes, reaches matched nodes body = true →
      lastValue property body = none

/-! ## the rules that stay -/

theorem applies_merged {selector : String} {body : List Declaration} {nodes : List Node}
    (h : ∀ s b, Node.rule s b ∈ Node.rule selector body :: nodes → Selector.Level s.toList) :
    (Node.rule (joinSelectors (selector :: selectorsWithKey (blockKey body) nodes)) body).applies
        matched = reaches matched (.rule selector body :: nodes) body := by
  have hlevel : ∀ s ∈ selector :: selectorsWithKey (blockKey body) nodes,
      Selector.Level s.toList := by
    intro s hs
    rcases List.mem_cons.mp hs with rfl | hs
    · exact h s body List.mem_cons_self
    · obtain ⟨b, hb, -⟩ := mem_selectorsWithKey.mp hs
      exact h s b (List.mem_cons_of_mem _ hb)
  have hwith : (selectorsWithKey (blockKey body) nodes).any
        (fun s => (Selector.components s).any matched) = reaches matched nodes body := by
    rw [Bool.eq_iff_iff, reaches, List.any_eq_true, List.any_eq_true]
    constructor
    · rintro ⟨s, hs, ha⟩
      obtain ⟨b, hb, hk⟩ := mem_selectorsWithKey.mp hs
      refine ⟨.rule s b, hb, ?_⟩
      rw [Node.applies, ha, Node.hasKey, hk, beq_self_eq_true]
      rfl
    · rintro ⟨node, hn, ha⟩
      rw [Bool.and_eq_true] at ha
      cases node with
      | rule s b => exact ⟨s, mem_selectorsWithKey.mpr ⟨b, hn, eq_of_beq ha.2⟩, ha.1⟩
      | declaration d => exact absurd ha.1 Bool.false_ne_true
      | atRule n p c => exact absurd ha.1 Bool.false_ne_true
  rw [Node.applies, Selector.components_joinSelectors hlevel, List.any_flatMap, List.any_cons,
    hwith, reaches, reaches, List.any_cons, Node.applies, Node.hasKey, beq_self_eq_true,
    Bool.and_true]

theorem not_mem_seen {seen : List String} {nodes : List Node} {body : List Declaration}
    (h : body ∈ firstBodies seen nodes) : blockKey body ∉ seen := by
  induction nodes generalizing seen with
  | nil => exact absurd h List.not_mem_nil
  | cons node nodes ih =>
    cases node with
    | declaration d => exact ih h
    | atRule n p c => exact ih h
    | rule s b =>
      rw [firstBodies] at h
      split at h
      · exact ih h
      · rename_i hs
        rcases List.mem_cons.mp h with rfl | h
        · exact hs
        · exact fun hm => ih h (List.mem_cons_of_mem _ hm)

/-- a rule whose block key is not that of a body does not bring it to the element -/
theorem reaches_cons_of_seen {seen : List String} {nodes : List Node} {node : Node}
    {body : List Declaration} (hb : body ∈ firstBodies seen nodes)
    (hn : node.applies matched = false ∨ blockKey node.body ∈ seen) :
    reaches matched (node :: nodes) body = reaches matched nodes body := by
  have hnode : (node.applies matched && node.hasKey (blockKey body)) = false := by
    rcases hn with ha | hk
    · rw [ha, Bool.false_and]
    · cases node with
      | declaration d => rfl
      | atRule n p c => rfl
      | rule s b =>
        have hne : blockKey b ≠ blockKey body := by
          intro he
          apply not_mem_seen hb
          rw [← he]
          exact hk
        rw [Node.hasKey, beq_eq_false_iff_ne.mpr hne, Bool.and_false]
  rw [reaches, List.any_cons, hnode, Bool.false_or, reaches]

/-- what applies after merging are the first bodies that reach the element -/
theorem declarations_mergeFrom {seen : List String} {nodes : List Node}
    (h : ∀ s b, Node.rule s b ∈ nodes → Selector.Level s.toList) :
    ((mergeFrom seen nodes).filter (Node.applies matched)).flatMap Node.body =
      ((firstBodies seen nodes).filter (reaches matched nodes)).flatten := by
  induction nodes generalizing seen with
  | nil => rfl
  | cons node nodes ih =>
    have htail : ∀ s b, Node.rule s b ∈ nodes → Selector.Level s.toList :=
      fun s b hm => h s b (List.mem_cons_of_mem _ hm)
    have hskip {seen : List String}
        (hn : node.applies matched = false ∨ blockKey node.body ∈ seen) :
        (firstBodies seen nodes).filter (reaches matched (node :: nodes)) =
          (firstBodies seen nodes).filter (reaches matched nodes) :=
      List.filter_congr fun body hb => reaches_cons_of_seen matched hb hn
    cases node with
    | declaration d => exact (ih htail).trans (congrArg List.flatten (hskip (Or.inl rfl)).symm)
    | atRule n p c => exact (ih htail).trans (congrArg List.flatten (hskip (Or.inl rfl)).symm)
    | rule s b =>
      rw [mergeFrom_rule, firstBodies]
      split
      · rename_i hs
        exact (ih htail).trans (congrArg List.flatten (hskip (Or.inr hs)).symm)
      · have hrest : (firstBodies (blockKey b :: seen) nodes).filter
              (reaches matched (.rule s b :: nodes)) =
            (firstBodies (blockKey b :: seen) nodes).filter (reaches matched nodes) :=
          hskip (Or.inr List.mem_cons_self)
        rw [List.filter_cons, List.filter_cons, applies_merged matched h, hrest]
        split
        · rw [List.flatMap_cons, ih htail]
          rfl
        · exact ih htail

end

/-! ## the last word -/

section
variable {property : String}

theorem lastValue_append (a b : List Declaration) :
    lastValue property (a ++ b) = (lastValue property b).or (lastValue property a) := by
  rw [lastValue, ofProperty_append, List.getLast?_append, Option.map_or]
  rfl

theorem lastValue_flatten_cons (body : List Declaration) (bodies : List (List Declaration)) :
    lastValue property (body :: bodies).flatten =
      (lastValue property bodies.flatten).or (lastValue property body) :=
  lastValue_append body bodies.flatten

theorem lastValue_flatten_eq_none_iff {bodies : List (List Declaration)} :
    lastValue property bodies.flatten = none ↔ ∀ b ∈ bodies, lastValue property b = none := by
  induction bodies with
  | nil => exact ⟨fun _ b hb => absurd hb List.not_mem_nil, fun _ => rfl⟩
  | cons body bodies ih =>
    rw [lastValue_flatten_cons, Option.or_eq_none_iff, ih, List.forall_mem_cons, and_comm]

theorem exists_of_lastValue_flatten {bodies : List (List Declaration)} {v : String}
    (h : lastValue property bodies.flatten = some v) :
    ∃ before body after, bodies = before ++ body :: after ∧ lastValue property body = some v ∧
      lastValue property after.flatten = none := by
  induction bodies with
  | nil => exact absurd h (by simp [lastValue, ofProperty])
  | cons body bodies ih =>
    rw [lastValue_flatten_cons] at h
    cases hrest : lastValue property bodies.flatten with
    | none =>
      rw [hrest, Option.none_or] at h
      exact ⟨[], body, bodies, rfl, h, hrest⟩
    | some w =>
      rw [hrest, Option.some_or] at h
      obtain ⟨before, b, after, he, hb, hafter⟩ := ih (hrest.trans h)
      exact ⟨body :: before, b, after, by rw [he, List.cons_append], hb, hafter⟩

/-- among the bodies that count, the last that declares the property gives a value exactly if one
gives it and none behind this one gives another -/
theorem lastValue_filter_iff (counts : List Declaration → Bool) {bodies : List (List Declaration)}
    {v : String} :
    lastValue property (bodies.filter counts).flatten = some v ↔
      ∃ before body after, bodies = before ++ body :: after ∧ counts body = true ∧
        lastValue property body = some v ∧
        ∀ b ∈ after, counts b = true → ∀ w, lastValue property b = some w → w = v := by
  constructor
  · intro h
    obtain ⟨before, body, after, he, hb, hafter⟩ := exists_of_lastValue_flatten h
    rw [List.filter_eq_append_iff] at he
    obtain ⟨front, back, rfl, -, hback⟩ := he
    obtain ⟨skipped, rest, rfl, -, hcounts, rfl⟩ := List.filter_eq_cons_iff.mp hback
    refine ⟨front ++ skipped, body, rest, by rw [List.append_assoc], hcounts, hb, ?_⟩
    intro b hm hc w hw
    have hnone := lastValue_flatten_eq_none_iff.mp hafter b (List.mem_filter.mpr ⟨hm, hc⟩)
    rw [hnone] at hw
    exact absurd hw (by simp)
  · rintro ⟨before, body, after, he, hc, hb, hafter⟩
    rw [he, List.filter_append, List.filter_cons_of_pos hc, List.flatten_append, lastValue_append,
      lastValue_flatten_cons, hb]
    cases hlast : lastValue property (after.filter counts).flatten with
    | none => rfl
    | some w =>
      obtain ⟨x, b, y, hx, hw, -⟩ := exists_of_lastValue_flatten hlast
      have hm : b ∈ after.filter counts := by
        rw [hx]
        exact List.mem_append_right _ List.mem_cons_self
      obtain ⟨hm, hcb⟩ := List.mem_filter.mp hm
      rw [hafter b hm hcb w hw]
      rfl

end

/-- merging keeps the value of a property exactly if the value that won still has the last word -/
theorem resolved_mergeDuplicates_iff {nodes : List Node}
    (h : ∀ s b, Node.rule s b ∈ nodes → Selector.Level s.toList) (matched : String → Bool)
    (property : String) :
    resolved matched property (mergeDuplicates nodes) = resolved matched property nodes ↔
      KeepsLastWord matched property nodes := by
  have hmerged : resolved matched property (mergeDuplicates nodes) =
      lastValue property ((firstBodies [] nodes).filter (reaches matched nodes)).flatten :=
    congrArg (lastValue property) (declarations_mergeFrom matched h)
  rw [hmerged]
  cases hv : resolved matched property nodes with
  | none =>
    rw [lastValue_flatten_eq_none_iff]
    constructor
    · intro hall
      refine ⟨fun v hs => absurd (hv.symm.trans hs) (by simp), fun _ body hm hr => ?_⟩
      exact hall body (List.mem_filter.mpr ⟨hm, hr⟩)
    · intro hk body hm
      obtain ⟨hm, hr⟩ := List.mem_filter.mp hm
      exact hk.none hv body hm hr
  | some v =>
    rw [lastValue_filter_iff]
    constructor
    · intro hex
      refine ⟨fun w hw => ?_, fun hn => absurd (hn.symm.trans hv) (by simp)⟩
      rw [← Option.some.inj (hv.symm.trans hw)]
      exact hex
    · exact fun hk => hk.some v hv

/-- a rule that overrides another one, and a third one with the declarations of the first -/
def crossedSheet : List Node :=
  [.rule ".a" [⟨"p", "1"⟩], .rule ".b" [⟨"p", "2"⟩], .rule ".c" [⟨"p", "1"⟩]]

theorem resolved_mergeDuplicates_crossedSheet :
    (∀ s b, Node.rule s b ∈ crossedSheet → Selector.Level s.toList) ∧
    (resolved (· ∈ [".a", ".b"]) "p" (mergeDuplicates crossedSheet) =
        resolved (· ∈ [".a", ".b"]) "p" crossedSheet ↔
      KeepsLastWord (· ∈ [".a", ".b"]) "p" crossedSheet) := by
  have hlevel : ∀ s b, Node.rule s b ∈ crossedSheet → Selector.Level s.toList := by
    have hall : ∀ node ∈ crossedSheet, ∀ s ∈ node.selector?, Selector.Level s.toList := by
      decide +kernel
    exact fun s b hm => hall _ hm s rfl
  exact ⟨hlevel, resolved_mergeDuplicates_iff hlevel _ _⟩

/-- two rules with the same declarations; the bracket in the string of the first one is left open -/
def openSheet : List Node :=
  [.rule "[x=\x22(\x22]" [⟨"p", "1"⟩], .rule ".b" [⟨"p", "1"⟩]]

/-- the overridden value comes to stand last, and an open bracket swallows the joined selector -/
theorem resolved_crossedSheet_openSheet :
    ((crossedSheet ++ openSheet).all fun node =>
      node.selector?.any fun s => Selector.components s == [s]) = true ∧
    resolved (· ∈ [".b", ".c"]) "p" crossedSheet = some "1" ∧
    resolved (· ∈ [".b", ".c"]) "p" (mergeDuplicates crossedSheet) = some "2" ∧
    resolved (· ∈ [".b"]) "p" openSheet = some "1" ∧
    resolved (· ∈ [".b"]) "p" (mergeDuplicates openSheet) = none := by
  decide +kernel

end CssOptimizer
