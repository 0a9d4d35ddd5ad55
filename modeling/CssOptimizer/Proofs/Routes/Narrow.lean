import CssOptimizer.Proofs.Sheet.Condition
import CssOptimizer.RouteChunk

/-!
# What a chunk holds

A stylesheet is told by its entries: each node with the headers of the at-rules around it, in
document order.  Narrowing takes entries away and changes neither their order nor their headers.

* `Entry`, `entries`              a node at some depth, and all of them in order;
* `inResource`                    whether one of the at-rules around defines a resource;
* `entries_narrow_sublist`        narrowing keeps the order;
* `filter_isRule_narrow`          the rules that stay, in order.
-/

namespace CssOptimizer

/-! ## entries -/

abbrev AtHeader := String × String

/-- a node with the headers of the at-rules around it, the outermost one first; an at-rule is an
entry of its own, without its children -/
structure Entry where
  around : List AtHeader
  node : Node
  deriving DecidableEq

/-- whether an entry is a rule with a given property of the headers around and its selector -/
def Entry.isRuleWhere (p : List AtHeader → String → Bool) (e : Entry) : Bool :=
  match e.node with
  | .rule selector _ => p e.around selector
  | _ => false

def Entry.isRule (e : Entry) : Bool := e.isRuleWhere fun _ _ => true

def Entry.under (header : AtHeader) (e : Entry) : Entry := ⟨header :: e.around, e.node⟩

mutual

def Node.entries : Node → List Entry
  | .declaration d => [⟨[], .declaration d⟩]
  | .rule selector body => [⟨[], .rule selector body⟩]
  | .atRule name params children =>
    ⟨[], .atRule name params []⟩ :: (entries children).map (Entry.under (name, params))

def entries : List Node → List Entry
  | [] => []
  | node :: nodes => node.entries ++ entries nodes

end

theorem entries_cons (node : Node) (nodes : List Node) :
    entries (node :: nodes) = node.entries ++ entries nodes := rfl

theorem entries_append (a b : List Node) : entries (a ++ b) = entries a ++ entries b := by
  induction a with
  | nil => rfl
  | cons node a ih => rw [List.cons_append, entries_cons, entries_cons, ih, List.append_assoc]

theorem entries_singleton (node : Node) : entries [node] = node.entries := List.append_nil _

/-- the entries without headers are the nodes of the list, at-rules apart -/
theorem mem_entries_top {nodes : List Node} {node : Node}
    (hnode : ∀ name params children, node ≠ .atRule name params children) :
    ⟨[], node⟩ ∈ entries nodes ↔ node ∈ nodes := by
  induction nodes with
  | nil => exact ⟨fun h => absurd h List.not_mem_nil, fun h => absurd h List.not_mem_nil⟩
  | cons first nodes ih =>
    rw [entries_cons, List.mem_append, List.mem_cons, ih]
    refine or_congr_left ?_
    cases first with
    | declaration d => simp [Node.entries]
    | rule s b => simp [Node.entries]
    | atRule n p c => simp [Node.entries, Entry.under, hnode]

def isResourceHeader (header : AtHeader) : Bool :=
  Node.isResource (.atRule header.1 header.2 [])

def inResource (around : List AtHeader) : Bool := around.any isResourceHeader

theorem isDeclaration_of_mem_entries {nodes : List Node}
    (h : nodes.all Node.isDeclaration = true) {e : Entry} (he : e ∈ entries nodes) :
    e.node.isDeclaration = true := by
  induction nodes with
  | nil => exact absurd he List.not_mem_nil
  | cons node nodes ih =>
    rw [List.all_cons, Bool.and_eq_true] at h
    rw [entries_cons] at he
    rcases List.mem_append.mp he with he | he
    · cases node with
      | declaration d =>
        rw [List.mem_singleton.mp he]
        rfl
      | rule s b => exact absurd h.1 Bool.false_ne_true
      | atRule n p c => exact absurd h.1 Bool.false_ne_true
    · exact ih h.2 he

theorem mem_of_filter_isRule {nodes kept : List Node} {p : List AtHeader → String → Bool}
    (hkept : (entries kept).filter Entry.isRule = (entries nodes).filter (Entry.isRuleWhere p))
    {around : List AtHeader} {selector : String} {body : List Declaration}
    (he : ⟨around, .rule selector body⟩ ∈ entries nodes) (h : p around selector = true) :
    ⟨around, .rule selector body⟩ ∈ entries kept := by
  have hmem : ⟨around, .rule selector body⟩ ∈ (entries nodes).filter (Entry.isRuleWhere p) :=
    List.mem_filter.mpr ⟨he, h⟩
  rw [← hkept] at hmem
  exact (List.mem_filter.mp hmem).1

/-! ## narrowing -/

namespace RouteChunk

section
variable (resources : Bool) (keep : String → Bool)

theorem narrow_cons (node : Node) (nodes : List Node) :
    narrow resources keep (node :: nodes) =
      (narrowNode resources keep node).toList ++ narrow resources keep nodes := rfl

/-- whether an at-rule stays or goes as a whole -/
def isWhole (name params : String) (children : List Node) : Bool :=
  Node.isResource (.atRule name params children) || children.all Node.isDeclaration

theorem narrowNode_whole {name params : String} {children : List Node}
    (h : isWhole name params children = true) :
    narrowNode resources keep (.atRule name params children) =
      if resources then some (.atRule name params children) else none := if_pos h

theorem narrowNode_inner {name params : String} {children : List Node}
    (h : isWhole name params children = false) :
    narrowNode resources keep (.atRule name params children) =
      if narrow resources keep children = [] then none
      else some (.atRule name params (narrow resources keep children)) := by
  rw [narrowNode, if_neg (by rw [← isWhole, h]; exact Bool.false_ne_true)]
  cases narrow resources keep children <;> rfl

theorem entries_narrow_sublist (nodes : List Node) :
    (entries (narrow resources keep nodes)).Sublist (entries nodes) := by
  induction nodes using sheetInduction with
  | nil => exact List.Sublist.refl []
  | declaration d nodes ih => exact ih.cons _
  | rule s b nodes ih =>
    rw [narrow_cons, entries_append]
    refine List.Sublist.append ?_ ih
    rw [narrowNode]
    split
    · exact List.Sublist.refl _
    · exact List.nil_sublist _
  | atRule n p children nodes ihc ih =>
    rw [narrow_cons, entries_append]
    refine List.Sublist.append ?_ ih
    cases hw : isWhole n p children with
    | true =>
      rw [narrowNode_whole resources keep hw]
      split
      · simp only [Option.toList_some, entries_singleton, List.Sublist.refl]
      · exact List.nil_sublist _
    | false =>
      rw [narrowNode_inner resources keep hw]
      split
      · exact List.nil_sublist _
      · rw [Option.toList_some, entries_singleton]
        exact (ihc.map _).cons_cons _

/-- which rules stay: inside resources all or none, and elsewhere those that pass the test -/
def stays (around : List AtHeader) (selector : String) : Bool :=
  if inResource around then resources else keep selector

theorem stays_true :
    stays true keep = fun around selector => inResource around || keep selector := by
  funext around selector
  rw [stays]
  cases inResource around <;> rfl

theorem stays_false :
    stays false keep = fun around selector => !inResource around && keep selector := by
  funext around selector
  rw [stays]
  cases inResource around <;> rfl

theorem stays_under_resource {header : AtHeader} (h : isResourceHeader header = true) (e : Entry) :
    (e.under header).isRuleWhere (stays resources keep) = (e.isRule && resources) := by
  have hin : inResource (e.under header).around = true := by
    rw [Entry.under, inResource, List.any_cons, h, Bool.true_or]
  obtain ⟨around, node⟩ := e
  cases node with
  | rule s b => exact if_pos hin
  | declaration d => rfl
  | atRule n p c => rfl

theorem stays_under {header : AtHeader} (h : isResourceHeader header = false) (e : Entry) :
    (e.under header).isRuleWhere (stays resources keep) =
      e.isRuleWhere (stays resources keep) := by
  have hin : inResource (e.under header).around = inResource e.around := by
    rw [Entry.under, inResource, List.any_cons, h, Bool.false_or, inResource]
  obtain ⟨around, node⟩ := e
  cases node with
  | rule s b =>
    show stays resources keep _ s = stays resources keep _ s
    rw [stays, stays, hin]
  | declaration d => rfl
  | atRule n p c => rfl

/-- the rules inside an at-rule that stays or goes as a whole -/
theorem filter_stays_whole {name params : String} {children : List Node}
    (h : isWhole name params children = true) :
    ((entries children).map (Entry.under (name, params))).filter
        (Entry.isRuleWhere (stays resources keep)) =
      ((entries children).map (Entry.under (name, params))).filter (·.isRule && resources) := by
  refine List.filter_congr fun e hmem => ?_
  obtain ⟨e, he, rfl⟩ := List.mem_map.mp hmem
  cases hr : isResourceHeader (name, params) with
  | true => exact stays_under_resource resources keep hr e
  | false =>
    have hd : children.all Node.isDeclaration = true := by
      rw [isWhole, Bool.or_eq_true] at h
      refine h.resolve_left fun h => ?_
      exact Bool.false_ne_true (hr.symm.trans h)
    have hnode := isDeclaration_of_mem_entries hd he
    obtain ⟨around, node⟩ := e
    cases node with
    | declaration d => rfl
    | rule s b => exact absurd hnode Bool.false_ne_true
    | atRule n p c => exact absurd hnode Bool.false_ne_true

theorem filter_isRule_narrow (nodes : List Node) :
    (entries (narrow resources keep nodes)).filter Entry.isRule =
      (entries nodes).filter (Entry.isRuleWhere (stays resources keep)) := by
  induction nodes using sheetInduction with
  | nil => rfl
  | declaration d nodes ih => exact ih
  | rule s b nodes ih =>
    rw [narrow_cons, entries_append, entries_cons, List.filter_append, List.filter_append, ih]
    refine congrArg (· ++ _) ?_
    have hstays : Entry.isRuleWhere (stays resources keep) ⟨[], .rule s b⟩ = keep s := rfl
    rw [narrowNode, Node.entries, List.filter_cons, List.filter_nil, hstays]
    cases keep s <;> rfl
  | atRule n p children nodes ihc ih =>
    rw [narrow_cons, entries_append, entries_cons, List.filter_append, List.filter_append, ih]
    refine congrArg (· ++ _) ?_
    rw [Node.entries, List.filter_cons_of_neg Bool.false_ne_true]
    cases hw : isWhole n p children with
    | true =>
      rw [narrowNode_whole resources keep hw, filter_stays_whole resources keep hw]
      cases resources with
      | true =>
        rw [if_pos rfl, Option.toList_some, entries_singleton, Node.entries,
          List.filter_cons_of_neg Bool.false_ne_true]
        exact List.filter_congr fun e _ => (Bool.and_true _).symm
      | false =>
        have hnone : ∀ e : Entry, ¬(e.isRule && false) = true := fun e => by simp
        rw [if_neg Bool.false_ne_true, List.filter_eq_nil_iff.mpr fun e _ => hnone e]
        rfl
    | false =>
      have hr : isResourceHeader (n, p) = false := (Bool.or_eq_false_iff.mp hw).1
      have hchildren : ((entries children).map (Entry.under (n, p))).filter
            (Entry.isRuleWhere (stays resources keep)) =
          ((entries (narrow resources keep children)).filter Entry.isRule).map
            (Entry.under (n, p)) := by
        rw [List.filter_map, ihc]
        refine congrArg (List.map _) (List.filter_congr fun e _ => ?_)
        exact stays_under resources keep hr e
      rw [narrowNode_inner resources keep hw, hchildren]
      split
      · rename_i hnil
        rw [hnil]
        rfl
      · rw [Option.toList_some, entries_singleton, Node.entries,
          List.filter_cons_of_neg Bool.false_ne_true, List.filter_map]
        rfl

end
end RouteChunk
end CssOptimizer
