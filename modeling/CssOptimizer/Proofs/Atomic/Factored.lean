import CssOptimizer.Proofs.Atomic.Lasting

/-!
# What factoring makes of a stylesheet

* `selectorsWhere`        the selectors of the rules with a declaration of some kind, in order;
* `sharedKeys`            the keys under at least three of them, in order of first appearance;
* `classOf`               the class of such a key;
* `rules_eq`, `composition_eq`   the atomic rules and the composition, entry by entry;
* `Rewritten`             what is left of the rules when the shared keys are taken out;
* `factorFrequent_meets`  all of this for every stylesheet, where classes are distinct.
-/

namespace CssOptimizer

/-! ## reading a stylesheet -/

/-- the declarations of all rules at the top -/
def declared (nodes : List Node) : List Declaration := nodes.flatMap Node.body

/-- the different selectors of the rules with a declaration in `p`, in order of the first such
rule -/
def selectorsWhere (p : Declaration → Bool) (nodes : List Node) : List String :=
  ((nodes.filter (·.body.any p)).filterMap Node.selector?).eraseDups

/-- the keys that at least three different selectors declare, in order of first appearance -/
def sharedKeys (nodes : List Node) : List DeclarationKey :=
  ((declared nodes).map Declaration.key).eraseDups.filter fun key =>
    minimumSelectors ≤ (selectorsWhere (·.key = key) nodes).length

def keysUnder (selector : String) (nodes : List Node) : List DeclarationKey :=
  (declarationsUnder selector nodes).map Declaration.key

theorem declares_iff {nodes : List Node} {selector : String} {key : DeclarationKey} :
    Declares nodes selector key ↔ key ∈ keysUnder selector nodes := by
  rw [keysUnder, List.mem_map]
  constructor
  · rintro ⟨body, hm, d, hd, rfl⟩
    exact ⟨d, mem_declarationsUnder.mpr ⟨body, hm, hd⟩, rfl⟩
  · rintro ⟨d, hd, rfl⟩
    obtain ⟨body, hm, hd⟩ := mem_declarationsUnder.mp hd
    exact ⟨body, hm, d, hd, rfl⟩

section
variable (nodes : List Node)

theorem map_snd_uses : (uses nodes).map Prod.snd = declared nodes := by
  rw [uses, declared, List.map_flatMap]
  refine List.flatMap_congr fun node _ => ?_
  cases node with
  | declaration d => rfl
  | atRule n p c => rfl
  | rule s body =>
    rw [Node.uses, List.map_map]
    exact List.map_id body

theorem declarationsUnder_eq_uses (selector : String) :
    declarationsUnder selector nodes =
      ((uses nodes).filter (·.1 = selector)).map Prod.snd := by
  induction nodes with
  | nil => rfl
  | cons node nodes ih =>
    rw [declarationsUnder_cons, ih, uses, uses, List.flatMap_cons, List.filter_append,
      List.map_append]
    refine congrArg (· ++ _) ?_
    cases node with
    | declaration d => rfl
    | atRule n p c => rfl
    | rule s body =>
      rw [Node.uses, Node.selector?, List.filter_map, List.map_map]
      by_cases hs : s = selector
      · have hall : body.filter ((fun u : String × Declaration => decide (u.1 = selector)) ∘
            fun d => (s, d)) = body := List.filter_eq_self.mpr fun d _ => decide_eq_true hs
        rw [if_pos (by rw [hs]), hall]
        exact (List.map_id body).symm
      · have hnone : body.filter ((fun u : String × Declaration => decide (u.1 = selector)) ∘
            fun d => (s, d)) = [] :=
          List.filter_eq_nil_iff.mpr fun d _ => by simpa using hs
        rw [if_neg (by simpa using hs), hnone]
        rfl

/-- the selectors of uses with some property -/
theorem selectorsWhere_eq_uses (p : Declaration → Bool) :
    selectorsWhere p nodes = (((uses nodes).filter fun u => p u.2).map Prod.fst).eraseDups := by
  have hrules : (nodes.filter (·.body.any p)).filterMap Node.selector? =
      nodes.flatMap fun node => if node.body.any p then node.selector?.toList else [] := by
    induction nodes with
    | nil => rfl
    | cons node nodes ih =>
      rw [List.flatMap_cons, ← ih, List.filter_cons]
      split
      · cases hs : node.selector? with
        | none =>
          rw [List.filterMap_cons_none hs]
          rfl
        | some s =>
          rw [List.filterMap_cons_some hs]
          rfl
      · rfl
  -- a rule counts once here and once for each declaration in `p` there, which `eraseDups` evens out
  rw [selectorsWhere, hrules, uses, List.filter_flatMap, List.map_flatMap]
  refine eraseDups_flatMap_congr (fun node => ?_) nodes
  cases node with
  | declaration d => rfl
  | atRule n q c => rfl
  | rule s body =>
    rw [Node.uses, List.filter_map, List.map_map]
    by_cases hp : body.any p = true
    · rw [Node.body, if_pos hp]
      obtain ⟨d, hd, hpd⟩ := List.any_eq_true.mp hp
      refine (eraseDups_eq_singleton (fun t ht => ?_) ?_).symm
      · obtain ⟨e, -, rfl⟩ := List.mem_map.mp ht
        rfl
      · refine List.ne_nil_of_mem (List.mem_map.mpr ⟨d, List.mem_filter.mpr ⟨hd, hpd⟩, rfl⟩)
    · have hnone : body.filter ((fun u : String × Declaration => p u.2) ∘ fun d => (s, d)) = [] :=
        List.filter_eq_nil_iff.mpr fun d hd h => hp (List.any_eq_true.mpr ⟨d, hd, h⟩)
      rw [Node.body, if_neg hp, hnone]
      rfl

end

/-! ## shared keys -/

theorem nodup_sharedKeys (nodes : List Node) : (sharedKeys nodes).Nodup :=
  (nodup_eraseDups _).filter _

section
variable (nodes : List Node)

theorem itemsOf_keys (key : DeclarationKey) :
    InsertionMap.itemsOf ((uses nodes).map fun u => (u.2.key, u.1)) key =
      selectorsWhere (·.key = key) nodes := by
  rw [InsertionMap.itemsOf, selectorsWhere_eq_uses]
  simp only [List.filter_map, List.map_map, Function.comp_def]

theorem frequentKeys_tally : frequentKeys (tally nodes) = sharedKeys nodes := by
  have hkeys : ((uses nodes).map fun u => (u.2.key, u.1)).map Prod.fst =
      (declared nodes).map Declaration.key := by
    rw [← map_snd_uses]
    simp only [List.map_map, Function.comp_def]
  rw [frequentKeys, tally_eq_group, InsertionMap.group_eq, hkeys, sharedKeys]
  simp only [List.filter_map, List.map_map, Function.comp_def, itemsOf_keys, List.map_id']

variable {nodes}

theorem mem_sharedKeys {key : DeclarationKey} : key ∈ sharedKeys nodes ↔ Shared nodes key := by
  rw [← frequentKeys_tally, mem_frequentKeys_iff]

theorem mem_sharedKeys_iff_length {key : DeclarationKey} :
    key ∈ sharedKeys nodes ↔ minimumSelectors ≤ (selectorsWhere (·.key = key) nodes).length := by
  rw [← frequentKeys_tally, mem_frequentKeys (nodup_keys_tally nodes), selectors_tally,
    itemsOf_keys]

theorem sharedKeys_eq_filter (nodes : List Node) :
    sharedKeys nodes =
      ((declared nodes).map Declaration.key).eraseDups.filter (· ∈ sharedKeys nodes) :=
  List.filter_congr fun _ _ => decide_eq_decide.mpr mem_sharedKeys_iff_length.symm

end

/-! ## classes -/

section
variable (hash : String → String) (naming : ClassNaming) (nodes : List Node)

def classOf (key : DeclarationKey) : String :=
  ((nameFrequent hash naming nodes).at? key).getD ""

/-- names are drawn for the shared keys, and for nothing else -/
theorem nameFrequent_eq_drawAll :
    nameFrequent hash naming nodes = NameSupply.drawAll hash naming {} (sharedKeys nodes) := by
  rw [nameFrequent, frequentKeys_tally]

theorem keys_nameFrequent : (nameFrequent hash naming nodes).keys = sharedKeys nodes := by
  rw [nameFrequent_eq_drawAll, NameSupply.keys_drawAll]

theorem nodup_keys_nameFrequent : (nameFrequent hash naming nodes).keys.Nodup := by
  rw [keys_nameFrequent]
  exact nodup_sharedKeys nodes

theorem nameFrequent_eq :
    nameFrequent hash naming nodes =
      (sharedKeys nodes).map fun key => (key, classOf hash naming nodes key) := by
  rw [← keys_nameFrequent hash naming]
  exact InsertionMap.eq_map_keys (nodup_keys_nameFrequent hash naming nodes) ""

theorem at?_nameFrequent_eq (key : DeclarationKey) :
    (nameFrequent hash naming nodes).at? key =
      if key ∈ sharedKeys nodes then some (classOf hash naming nodes key) else none := by
  rw [← keys_nameFrequent hash naming]
  split
  · rename_i h
    cases hat : (nameFrequent hash naming nodes).at? key with
    | none => exact absurd h (InsertionMap.at?_eq_none_iff.mp hat)
    | some name => rw [classOf, hat, Option.getD_some]
  · rename_i h
    exact InsertionMap.at?_eq_none_iff.mpr h

/-! ## the factored stylesheet -/

theorem rules_eq (strip : Bool) :
    (factorFrequent hash naming strip nodes).rules =
      (sharedKeys nodes).map fun key =>
        .rule ("." ++ classOf hash naming nodes key) [key.declaration] := by
  show (nameFrequent hash naming nodes).map atomicRule = _
  rw [nameFrequent_eq, List.map_map]
  rfl

theorem filterMap_eq_map_filter {α β : Type} {f : α → Option β} {p : α → Bool} {g : α → β}
    (h : ∀ x, f x = if p x then some (g x) else none) (xs : List α) :
    xs.filterMap f = (xs.filter p).map g := by
  induction xs with
  | nil => rfl
  | cons x xs ih =>
    rw [List.filter_cons]
    split
    · rename_i hp
      rw [List.filterMap_cons_some (by rw [h, if_pos hp]), ih, List.map_cons]
    · rename_i hp
      rw [List.filterMap_cons_none (by rw [h, if_neg hp]), ih]

theorem composedUses_eq :
    composedUses (nameFrequent hash naming nodes) nodes =
      ((uses nodes).filter (·.2.key ∈ sharedKeys nodes)).map fun u =>
        (u.1, classOf hash naming nodes u.2.key) := by
  refine filterMap_eq_map_filter (fun u => ?_) _
  rw [at?_nameFrequent_eq]
  by_cases h : u.2.key ∈ sharedKeys nodes
  · rw [if_pos h, if_pos (decide_eq_true h)]
    rfl
  · rw [if_neg h, if_neg (by simpa using h)]
    rfl

/-- the classes of a selector are those of its shared keys, in order of first use -/
theorem itemsOf_composedUses (selector : String) :
    InsertionMap.itemsOf (composedUses (nameFrequent hash naming nodes) nodes) selector =
      (((keysUnder selector nodes).filter (· ∈ sharedKeys nodes)).map
        (classOf hash naming nodes)).eraseDups := by
  rw [InsertionMap.itemsOf, composedUses_eq, keysUnder, declarationsUnder_eq_uses]
  simp only [List.filter_map, List.map_map, List.filter_filter, Function.comp_def]
  simp only [Bool.and_comm]

theorem composition_eq (strip : Bool) :
    (factorFrequent hash naming strip nodes).composition =
      (selectorsWhere (·.key ∈ sharedKeys nodes) nodes).map fun s =>
        (s, (((keysUnder s nodes).filter (· ∈ sharedKeys nodes)).map
          (classOf hash naming nodes)).eraseDups) := by
  have hselectors : ((composedUses (nameFrequent hash naming nodes) nodes).map
        Prod.fst).eraseDups = selectorsWhere (·.key ∈ sharedKeys nodes) nodes := by
    rw [composedUses_eq, selectorsWhere_eq_uses]
    simp only [List.map_map, Function.comp_def]
  show compose _ nodes = _
  rw [compose_eq_group, InsertionMap.group_eq, hselectors]
  exact List.map_congr_left fun s _ => by rw [itemsOf_composedUses]

/-! ## taking shared keys out -/

theorem keysUnder_left (selector : String) :
    keysUnder selector (nodes.filterMap (withoutNamed (nameFrequent hash naming nodes))) =
      (keysUnder selector nodes).filter (· ∉ sharedKeys nodes) := by
  rw [keysUnder, keysUnder, declarationsUnder_withoutNamed, List.filter_map]
  refine congrArg _ (List.filter_congr fun d _ => ?_)
  rw [Bool.eq_iff_iff, isNone_at?_nameFrequent, ← mem_sharedKeys]
  exact decide_eq_true_iff.symm

theorem mem_classes_composition {strip : Bool} {selector name : String} :
    name ∈ (factorFrequent hash naming strip nodes).composition.classes selector ↔
      ∃ key ∈ keysUnder selector nodes, key ∈ sharedKeys nodes ∧
        classOf hash naming nodes key = name := by
  show name ∈ Composition.classes (compose _ nodes) selector ↔ _
  rw [Composition.classes, compose_eq_group, InsertionMap.getD_at?_group, itemsOf_composedUses,
    List.mem_eraseDups, List.mem_map]
  simp only [List.mem_filter, decide_eq_true_eq, and_assoc]

end

/-- the keys whose classes are composed for a selector -/
def Factored.composedKeys (e : Factored) (shared : List DeclarationKey)
    (name : DeclarationKey → String) (selector : String) : List DeclarationKey :=
  shared.filter fun key => name key ∈ e.composition.classes selector

/-- a stylesheet without its shared keys: the keys of each selector are those left in its rules and
those of its classes, none of them in both places, and nodes that are no rules stay -/
structure Rewritten (nodes left : List Node) (shared : List DeclarationKey)
    (composed : String → List DeclarationKey) : Prop where
  others : left.filter (!·.isRule) = nodes.filter (!·.isRule)
  none_left : ∀ d ∈ declared left, d.key ∉ shared
  disjoint : ∀ selector, (keysUnder selector left).Disjoint (composed selector)
  together : ∀ selector key, key ∈ keysUnder selector nodes ↔
    key ∈ keysUnder selector left ∨ key ∈ composed selector

section
variable {hash : String → String} {naming : ClassNaming} {nodes : List Node}

theorem DeclarationKey.declaration_inj {a b : DeclarationKey} :
    a.declaration = b.declaration ↔ a = b := by
  cases a
  cases b
  rw [declaration, declaration, Declaration.mk.injEq, DeclarationKey.mk.injEq]

/-- where classes are distinct, the classes of a selector stand for its own shared keys -/
theorem mem_composedKeys (hn : ((nameFrequent hash naming nodes).map Prod.snd).Nodup)
    {strip : Bool} {selector : String} {key : DeclarationKey} :
    key ∈ (factorFrequent hash naming strip nodes).composedKeys (sharedKeys nodes)
        (classOf hash naming nodes) selector ↔
      key ∈ keysUnder selector nodes ∧ key ∈ sharedKeys nodes := by
  have hinj {a b : DeclarationKey} (ha : a ∈ sharedKeys nodes) (hb : b ∈ sharedKeys nodes)
      (he : classOf hash naming nodes a = classOf hash naming nodes b) : a = b := by
    rw [nameFrequent_eq, List.map_map] at hn
    exact List.inj_on_of_nodup_map hn ha hb he
  rw [Factored.composedKeys, List.mem_filter, decide_eq_true_eq, mem_classes_composition]
  constructor
  · rintro ⟨hshared, other, hunder, hother, he⟩
    rw [hinj hother hshared he] at hunder
    exact ⟨hunder, hshared⟩
  · rintro ⟨hunder, hshared⟩
    exact ⟨hshared, key, hunder, hshared, rfl⟩

theorem rewritten_factorFrequent (hn : ((nameFrequent hash naming nodes).map Prod.snd).Nodup)
    (strip : Bool) :
    Rewritten nodes (nodes.filterMap (withoutNamed (nameFrequent hash naming nodes)))
      (sharedKeys nodes) ((factorFrequent hash naming strip nodes).composedKeys (sharedKeys nodes)
        (classOf hash naming nodes)) where
  others := filter_withoutNamed _ _
  none_left := by
    intro d hd hshared
    obtain ⟨node, hm, hbody⟩ := List.mem_flatMap.mp hd
    cases node with
    | declaration e => exact absurd hbody List.not_mem_nil
    | atRule n p c => exact absurd hbody List.not_mem_nil
    | rule s body => exact not_declares_left (mem_sharedKeys.mp hshared) s ⟨body, hm, d, hbody, rfl⟩
  disjoint := by
    intro selector key hleft hcomposed
    rw [keysUnder_left] at hleft
    exact of_decide_eq_true (List.mem_filter.mp hleft).2 ((mem_composedKeys hn).mp hcomposed).2
  together := by
    intro selector key
    rw [keysUnder_left, mem_composedKeys hn, List.mem_filter, decide_eq_true_eq, ← and_or_left]
    exact (and_iff_left (Decidable.em _).symm).symm

/-- the keys with an atomic rule are those under three selectors, each with one rule, in order of
first appearance; the composition lists the selectors of rules with such a key, in order, with the
classes of their keys in order of first use; and rewriting moves exactly these keys from the rules
of a selector to its classes -/
theorem factorFrequent_meets (hn : ((nameFrequent hash naming nodes).map Prod.snd).Nodup)
    (strip : Bool) :
    let e := factorFrequent hash naming strip nodes
    let name := classOf hash naming nodes
    (∀ key, (∃ c, Node.rule ("." ++ c) [key.declaration] ∈ e.rules) ↔ Shared nodes key) ∧
      (∀ key, Shared nodes key → e.rules.countP (·.body = [key.declaration]) = 1) ∧
      e.rules = (sharedKeys nodes).map (fun key => .rule ("." ++ name key) [key.declaration]) ∧
      e.composition = (selectorsWhere (·.key ∈ sharedKeys nodes) nodes).map (fun s =>
        (s, (((keysUnder s nodes).filter (· ∈ sharedKeys nodes)).map name).eraseDups)) ∧
      (strip = true → ∃ left, e.stripped = some left ∧
        Rewritten nodes left (sharedKeys nodes) (e.composedKeys (sharedKeys nodes) name)) := by
  intro e name
  have hrules : e.rules = (sharedKeys nodes).map fun key =>
      .rule ("." ++ name key) [key.declaration] := rules_eq hash naming nodes strip
  refine ⟨fun key => ?_, fun key hshared => ?_, hrules, composition_eq hash naming nodes strip,
    fun hs => ?_⟩
  · rw [hrules, ← mem_sharedKeys]
    constructor
    · rintro ⟨c, hm⟩
      obtain ⟨other, hother, he⟩ := List.mem_map.mp hm
      rw [← DeclarationKey.declaration_inj.mp (List.cons.inj (Node.rule.inj he).2).1]
      exact hother
    · exact fun hm => ⟨name key, List.mem_map.mpr ⟨key, hm, rfl⟩⟩
  · have hcount : ∀ other ∈ sharedKeys nodes,
        decide ([other.declaration] = [key.declaration]) = true ↔ (other == key) = true := by
      intro other _
      rw [decide_eq_true_iff, beq_iff_eq, List.cons.injEq, DeclarationKey.declaration_inj]
      exact and_iff_left rfl
    rw [hrules, List.countP_map]
    exact (List.countP_congr hcount).trans
      (List.count_eq_one_of_mem (nodup_sharedKeys nodes) (mem_sharedKeys.mpr hshared))
  · subst hs
    exact ⟨_, rfl, rewritten_factorFrequent hn true⟩

end

/-- two keys under three selectors, spelled in several ways and with an at-rule between -/
def mixedSheet : List Node :=
  [.rule ".a" [⟨"m", "0"⟩, ⟨"p", "1"⟩, ⟨"m", "0;"⟩],
    .atRule "media" "print" [.rule ".d" [⟨"p", "1"⟩]],
    .rule ".b" [⟨"p", "1"⟩, ⟨"m", "0"⟩], .rule ".a" [⟨"c", "red"⟩],
    .rule ".c" [⟨"p", " 1 "⟩, ⟨"m", "0"⟩]]

theorem factorFrequent_meets_mixedSheet :
    let e := factorFrequent Digest.hexDigest .byContent true mixedSheet
    let name := classOf Digest.hexDigest .byContent mixedSheet
    ((nameFrequent Digest.hexDigest .byContent mixedSheet).map Prod.snd).Nodup ∧
      e.composition = [(".a", ["_9b523227", "_aba6e55b"]), (".b", ["_aba6e55b", "_9b523227"]),
        (".c", ["_aba6e55b", "_9b523227"])] ∧
      e.rules = [.rule "._9b523227" [⟨"m", "0"⟩], .rule "._aba6e55b" [⟨"p", "1"⟩]] ∧
      ∃ left, e.stripped = some left ∧
        Rewritten mixedSheet left (sharedKeys mixedSheet)
          (e.composedKeys (sharedKeys mixedSheet) name) := by
  have hnamed : nameFrequent Digest.hexDigest .byContent mixedSheet =
      [(⟨"m", "0"⟩, "_9b523227"), (⟨"p", "1"⟩, "_aba6e55b")] := by decide +kernel
  have hn : ((nameFrequent Digest.hexDigest .byContent mixedSheet).map Prod.snd).Nodup := by
    rw [hnamed]
    decide
  have hclass : classOf Digest.hexDigest .byContent mixedSheet = fun key =>
      (InsertionMap.at? [(⟨"m", "0"⟩, "_9b523227"), (⟨"p", "1"⟩, "_aba6e55b")] key).getD "" := by
    funext key
    rw [classOf, hnamed]
  obtain ⟨-, -, hrules, hcomposition, hstripped⟩ := factorFrequent_meets hn true
  rw [hclass] at hrules hcomposition
  exact ⟨hn, hcomposition.trans (by decide +kernel), hrules.trans (by decide +kernel),
    hstripped rfl⟩

end CssOptimizer
