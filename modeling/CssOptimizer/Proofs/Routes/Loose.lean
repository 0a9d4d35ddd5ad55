import CssOptimizer.Proofs.Routes.Narrow

/-!
# Loose declarations in chunks

A declaration is loose if it stands in an at-rule and not in a style rule: a descriptor of
`@font-face`, or a margin of `@page`.

* `Loose`, `looseIn`         loose declarations with what stands around and beside them;
* `mem_entries_iff_loose`    they are the declarations among the entries under headers;
* `looseIn_narrow_true`      a chunk that takes resources keeps the loose declarations of resources
                             and of at-rules that hold nothing else;
* `looseIn_narrow_false`     other chunks keep none;
* `looseIn_split`            the loose declarations of all chunks of a stylesheet.
-/

namespace CssOptimizer

/-! ## loose declarations -/

/-- a loose declaration with the headers of the at-rules around it, the outermost one first, and
all children of the innermost one -/
structure Loose where
  around : List AtHeader
  siblings : List Node
  declaration : Declaration

/-- where a loose declaration stands and what it says -/
def Loose.entry (l : Loose) : Entry := ⟨l.around, .declaration l.declaration⟩

def Loose.under (header : AtHeader) (l : Loose) : Loose := { l with around := header :: l.around }

def Node.declaration? : Node → Option Declaration
  | .declaration d => some d
  | _ => none

mutual

def Node.looseIn : Node → List Loose
  | .declaration _ => []
  | .rule _ _ => []
  | .atRule name params children =>
    (children.filterMap Node.declaration?).map (Loose.mk [(name, params)] children) ++
      (looseIn children).map (Loose.under (name, params))

def looseIn : List Node → List Loose
  | [] => []
  | node :: nodes => node.looseIn ++ looseIn nodes

end

theorem looseIn_cons (node : Node) (nodes : List Node) :
    looseIn (node :: nodes) = node.looseIn ++ looseIn nodes := rfl

theorem looseIn_append (a b : List Node) : looseIn (a ++ b) = looseIn a ++ looseIn b := by
  induction a with
  | nil => rfl
  | cons node a ih => rw [List.cons_append, looseIn_cons, looseIn_cons, ih, List.append_assoc]

theorem looseIn_singleton (node : Node) : looseIn [node] = node.looseIn := List.append_nil _

/-- declarations alone hold no at-rule -/
theorem looseIn_declarations {nodes : List Node} (h : nodes.all Node.isDeclaration = true) :
    looseIn nodes = [] := by
  induction nodes with
  | nil => rfl
  | cons node nodes ih =>
    rw [List.all_cons, Bool.and_eq_true] at h
    rw [looseIn_cons, ih h.2, List.append_nil]
    cases node with
    | declaration d => rfl
    | rule s b => rfl
    | atRule n p c => exact absurd h.1 Bool.false_ne_true

theorem mem_declarations_iff {nodes : List Node} {d : Declaration} :
    d ∈ nodes.filterMap Node.declaration? ↔ .declaration d ∈ nodes := by
  rw [List.mem_filterMap]
  constructor
  · rintro ⟨node, hnode, hd⟩
    cases node with
    | declaration d' =>
      obtain rfl : d' = d := Option.some.inj hd
      exact hnode
    | rule s b => exact absurd hd (Option.some_ne_none d).symm
    | atRule n p c => exact absurd hd (Option.some_ne_none d).symm
  · intro h
    exact ⟨.declaration d, h, rfl⟩

theorem mem_looseIn_atRule {name params : String} {children : List Node} {l : Loose} :
    l ∈ (Node.atRule name params children).looseIn ↔
      (∃ d, .declaration d ∈ children ∧ Loose.mk [(name, params)] children d = l) ∨
        ∃ inner ∈ looseIn children, inner.under (name, params) = l := by
  rw [Node.looseIn, List.mem_append, List.mem_map, List.mem_map]
  refine or_congr_left (exists_congr fun d => and_congr_left fun _ => ?_)
  exact mem_declarations_iff

theorem mem_entries_declaration {nodes : List Node} {d : Declaration} :
    ⟨[], .declaration d⟩ ∈ entries nodes ↔ .declaration d ∈ nodes :=
  mem_entries_top fun _ _ _ => Node.noConfusion

theorem entry_mem_of_mem_looseIn {nodes : List Node} {l : Loose} (h : l ∈ looseIn nodes) :
    l.entry ∈ entries nodes := by
  induction nodes using sheetInduction generalizing l with
  | nil => exact absurd h List.not_mem_nil
  | declaration d nodes ih => exact List.mem_append_right _ (ih h)
  | rule s b nodes ih => exact List.mem_append_right _ (ih h)
  | atRule n p children nodes ihc ih =>
    rw [entries_cons, Node.entries]
    rcases List.mem_append.mp h with h | h
    · refine List.mem_append_left _ (List.mem_cons_of_mem _ (List.mem_map.mpr ?_))
      rcases mem_looseIn_atRule.mp h with ⟨d, hd, rfl⟩ | ⟨inner, hinner, rfl⟩
      · exact ⟨⟨[], .declaration d⟩, mem_entries_declaration.mpr hd, rfl⟩
      · exact ⟨inner.entry, ihc hinner, rfl⟩
    · exact List.mem_append_right _ (ih h)

theorem exists_loose_of_mem_entries {nodes : List Node} {header : AtHeader}
    {around : List AtHeader} {d : Declaration}
    (h : ⟨header :: around, .declaration d⟩ ∈ entries nodes) :
    ∃ l ∈ looseIn nodes, l.entry = ⟨header :: around, .declaration d⟩ := by
  induction nodes using sheetInduction generalizing header around with
  | nil => exact absurd h List.not_mem_nil
  | declaration d' nodes ih =>
    rw [entries_cons, List.mem_append] at h
    exact ih (h.resolve_left (by simp [Node.entries]))
  | rule s b nodes ih =>
    rw [entries_cons, List.mem_append] at h
    exact ih (h.resolve_left (by simp [Node.entries]))
  | atRule n p children nodes ihc ih =>
    rw [entries_cons, Node.entries, List.mem_append, List.mem_cons, List.mem_map] at h
    rw [looseIn_cons]
    rcases h with (h | ⟨⟨inner, node⟩, he, hunder⟩) | h
    · simp at h
    · rw [Entry.under, Entry.mk.injEq, List.cons.injEq] at hunder
      obtain ⟨⟨rfl, rfl⟩, rfl⟩ := hunder
      obtain ⟨l, hl, hentry⟩ : ∃ l ∈ (Node.atRule n p children).looseIn,
          l.entry = ⟨(n, p) :: inner, .declaration d⟩ := by
        cases inner with
        | nil =>
          have hd : .declaration d ∈ children := mem_entries_declaration.mp he
          exact ⟨_, mem_looseIn_atRule.mpr (Or.inl ⟨d, hd, rfl⟩), rfl⟩
        | cons header inner =>
          obtain ⟨l, hl, hentry⟩ := ihc he
          refine ⟨l.under (n, p), mem_looseIn_atRule.mpr (Or.inr ⟨l, hl, rfl⟩), ?_⟩
          exact congrArg (Entry.under (n, p)) hentry
      exact ⟨l, List.mem_append_left _ hl, hentry⟩
    · obtain ⟨l, hl, hentry⟩ := ih h
      exact ⟨l, List.mem_append_right _ hl, hentry⟩

theorem mem_entries_iff_loose {nodes : List Node} {header : AtHeader} {around : List AtHeader}
    {d : Declaration} :
    ⟨header :: around, .declaration d⟩ ∈ entries nodes ↔
      ∃ l ∈ looseIn nodes, l.entry = ⟨header :: around, .declaration d⟩ := by
  refine ⟨exists_loose_of_mem_entries, ?_⟩
  rintro ⟨l, hl, hentry⟩
  rw [← hentry]
  exact entry_mem_of_mem_looseIn hl

/-! ## narrowing -/

/-- a loose declaration in a resource or in an at-rule that holds nothing but declarations -/
def Loose.stays (l : Loose) : Bool := inResource l.around || l.siblings.all Node.isDeclaration

namespace RouteChunk

section
variable (resources : Bool) (keep : String → Bool)

theorem filterMap_declaration_narrow (nodes : List Node) :
    (narrow resources keep nodes).filterMap Node.declaration? = [] := by
  induction nodes with
  | nil => rfl
  | cons node nodes ih =>
    rw [narrow_cons, List.filterMap_append, ih, List.append_nil]
    cases node with
    | declaration d => rfl
    | rule s b =>
      rw [narrowNode]
      split <;> rfl
    | atRule n p children =>
      rw [narrowNode]
      split <;> split <;> rfl

/-- inside a resource or an at-rule of nothing but declarations, each loose declaration stays -/
theorem stays_of_whole {name params : String} {children : List Node}
    (h : isWhole name params children = true) {l : Loose}
    (hl : l ∈ (Node.atRule name params children).looseIn) : l.stays = true := by
  rw [isWhole, Bool.or_eq_true] at h
  rw [mem_looseIn_atRule] at hl
  rw [Loose.stays, Bool.or_eq_true]
  rcases h with hr | hd
  · have hheader : isResourceHeader (name, params) = true := hr
    left
    rcases hl with ⟨d, -, rfl⟩ | ⟨l, -, rfl⟩
    · rw [inResource, List.any_cons, hheader, Bool.true_or]
    · rw [Loose.under, inResource, List.any_cons, hheader, Bool.true_or]
  · right
    rcases hl with ⟨d, -, rfl⟩ | ⟨l, hl, -⟩
    · exact hd
    · rw [looseIn_declarations hd] at hl
      exact absurd hl List.not_mem_nil

theorem stays_under_inner {name params : String} {children : List Node}
    (h : isWhole name params children = false) (l : Loose) :
    (l.under (name, params)).stays = l.stays := by
  have hheader : isResourceHeader (name, params) = false := (Bool.or_eq_false_iff.mp h).1
  rw [Loose.stays, Loose.under, inResource, List.any_cons, hheader, Bool.false_or, Loose.stays,
    inResource]

/-- an at-rule of mixed children drops its own declarations and keeps those further inside -/
theorem filter_stays_inner {name params : String} {children : List Node}
    (h : isWhole name params children = false) :
    (Node.atRule name params children).looseIn.filter Loose.stays =
      ((looseIn children).filter Loose.stays).map (Loose.under (name, params)) := by
  obtain ⟨hr, hd⟩ := Bool.or_eq_false_iff.mp h
  have hheader : isResourceHeader (name, params) = false := hr
  have hown (l : Loose) (hl : l ∈ (children.filterMap Node.declaration?).map
      (Loose.mk [(name, params)] children)) : ¬l.stays = true := by
    obtain ⟨d, -, rfl⟩ := List.mem_map.mp hl
    rw [Loose.stays, inResource, List.any_cons, hheader, hd]
    exact Bool.false_ne_true
  rw [Node.looseIn, List.filter_append, List.filter_eq_nil_iff.mpr hown, List.nil_append,
    List.filter_map]
  exact congrArg (List.map _) (List.filter_congr fun l _ => stays_under_inner h l)

theorem looseIn_inner {name params : String} {children : List Node}
    (h : isWhole name params children = false) :
    looseIn (narrowNode resources keep (.atRule name params children)).toList =
      (looseIn (narrow resources keep children)).map (Loose.under (name, params)) := by
  rw [narrowNode_inner resources keep h]
  split
  · rename_i hnil
    rw [hnil]
    rfl
  · rw [Option.toList_some, looseIn_singleton, Node.looseIn, filterMap_declaration_narrow]
    rfl

theorem looseIn_narrow_true (nodes : List Node) :
    looseIn (narrow true keep nodes) = (looseIn nodes).filter Loose.stays := by
  induction nodes using sheetInduction with
  | nil => rfl
  | declaration d nodes ih => exact ih
  | rule s b nodes ih =>
    rw [narrow_cons, looseIn_append, ih, narrowNode]
    split <;> rfl
  | atRule n p children nodes ihc ih =>
    rw [narrow_cons, looseIn_append, looseIn_cons, List.filter_append, ih]
    refine congrArg (· ++ _) ?_
    cases hw : isWhole n p children with
    | true =>
      rw [narrowNode_whole true keep hw, if_pos rfl, Option.toList_some, looseIn_singleton]
      exact (List.filter_eq_self.mpr fun l hl => stays_of_whole hw hl).symm
    | false => rw [looseIn_inner true keep hw, ihc, filter_stays_inner hw]

theorem looseIn_narrow_false (nodes : List Node) : looseIn (narrow false keep nodes) = [] := by
  induction nodes using sheetInduction with
  | nil => rfl
  | declaration d nodes ih => exact ih
  | rule s b nodes ih =>
    rw [narrow_cons, looseIn_append, ih, narrowNode]
    split <;> rfl
  | atRule n p children nodes ihc ih =>
    rw [narrow_cons, looseIn_append, ih, List.append_nil]
    cases hw : isWhole n p children with
    | true =>
      rw [narrowNode_whole false keep hw]
      rfl
    | false => rw [looseIn_inner false keep hw, ihc, List.map_nil]

end

/-! ## chunks -/

/-- the shared chunk holds the loose declarations of resources and of at-rules that hold nothing
else, each as often as before and in the same order, under the same headers and beside the same
nodes; so it holds no other declaration, and the chunks of the routes hold none -/
theorem looseIn_split (routes : RouteMap) (css : String) :
    ∃ shared own, split routes css = shared :: own ∧ shared.name = sharedName ∧
      looseIn shared.nodes = (looseIn (parse css)).filter Loose.stays ∧
      (∀ header around d, ⟨header :: around, .declaration d⟩ ∈ entries shared.nodes ↔
        ∃ l ∈ looseIn (parse css), l.entry = ⟨header :: around, .declaration d⟩ ∧
          (inResource (header :: around) = true ∨
            l.siblings.all Node.isDeclaration = true)) ∧
      ∀ chunk ∈ own, looseIn chunk.nodes = [] := by
  have hshared : looseIn (shared (sharedNames routes) (parse css)).nodes =
      (looseIn (parse css)).filter Loose.stays := looseIn_narrow_true _ _
  refine ⟨_, _, rfl, rfl, hshared, fun header around d => ?_, fun chunk hchunk => ?_⟩
  · rw [mem_entries_iff_loose, hshared]
    refine exists_congr fun l => ?_
    rw [List.mem_filter, Loose.stays, Bool.or_eq_true, and_assoc]
    refine and_congr_right fun _ => and_comm.trans (and_congr_right fun hentry => ?_)
    have haround : l.around = header :: around := congrArg Entry.around hentry
    rw [haround]
  · obtain ⟨route, -, rfl⟩ := List.mem_map.mp hchunk
    exact looseIn_narrow_false _ _

/-- a page with a margin and a box in it -/
def marginBox : String := "@page\x7bmargin:1in;@top-left\x7bcontent:\x22x\x22\x7d\x7d"

/-- a loose declaration may be in no chunk at all: the margin beside the box is lost -/
theorem margin_beside_box_lost :
    ⟨[("page", "")], .declaration ⟨"margin", "1in"⟩⟩ ∈ entries (parse marginBox) ∧
      ∀ chunk ∈ split .empty marginBox,
        ⟨[("page", "")], .declaration ⟨"margin", "1in"⟩⟩ ∉ entries chunk.nodes := by
  decide +kernel

end RouteChunk
end CssOptimizer
