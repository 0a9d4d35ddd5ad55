import CssOptimizer.Proofs.Atomic.Factored
import CssOptimizer.Proofs.Atomic.Naming
import CssOptimizer.Proofs.Routes.Narrow

/-!
# Atomic classes beside the classes of a stylesheet

Names are drawn without a look at the stylesheet, so that it may use one of them already.

* `Entry.classes`, `usedClasses`   the class tokens of selectors, at any depth;
* `rulesOf`                        the rules at any depth that a class has;
* `Reserves`                       the names that a run may draw, which no stylesheet should use;
* `rulesOf_rules`                  an atomic rule is one of the class it was drawn for alone;
* `sharedKeys_behind_rules`, `sharedKeys_taken_out`   what a second run finds: the same keys as
                                   the first, or none if they were taken out;
* `rulesOf_nodes`                  so classes keep their rules, and new ones come in front of them
                                   for names that were drawn.
-/

namespace CssOptimizer
open NameSupply

/-! ## classes in use -/

def Entry.classes (e : Entry) : List String :=
  match e.node with
  | .rule selector _ => Selector.classes selector
  | _ => []

def usedClasses (nodes : List Node) : List String := (entries nodes).flatMap Entry.classes

def rulesOf (name : String) (nodes : List Node) : List Entry :=
  (entries nodes).filter (name ∈ ·.classes)

theorem rulesOf_append (name : String) (a b : List Node) :
    rulesOf name (a ++ b) = rulesOf name a ++ rulesOf name b := by
  rw [rulesOf, entries_append, List.filter_append]
  rfl

/-! ## reserved names -/

inductive ClassNaming.Reserves : ClassNaming → List DeclarationKey → String → Prop
  | number {keys : List DeclarationKey} {i : Nat} (h : i < keys.length) :
      Reserves .inSequence keys ("_" ++ toString i)
  | digits {keys : List DeclarationKey} {key : DeclarationKey} {m : Nat} (hkey : key ∈ keys)
      (hleast : shortLength ≤ m) (hmost : m ≤ digestLength) (heven : Even m) :
      Reserves .byContent keys (contentName ((Digest.hexDigest key.text).toList.take m))

section
variable {naming : ClassNaming} {nodes : List Node} {key : DeclarationKey} {name : String}

theorem reserves_nameFrequent
    (h : (key, name) ∈ nameFrequent Digest.hexDigest naming nodes) :
    naming.Reserves (sharedKeys nodes) name := by
  rw [nameFrequent_eq_drawAll] at h
  cases naming with
  | inSequence =>
    have hnames := List.mem_map_of_mem (f := Prod.snd) h
    rw [drawAll_inSequence, List.mem_map] at hnames
    obtain ⟨i, hi, rfl⟩ := hnames
    exact .number (by simpa using (List.mem_range'_1.mp hi).2)
  | byContent =>
    obtain ⟨earlier, later, hrun⟩ := List.append_of_mem h
    obtain ⟨m, hm, -⟩ := shortPrefix_drawAll (nodup_sharedKeys nodes)
      (fun key _ => Digest.length_hexDigest key.text) hrun
    have hkey : key ∈ sharedKeys nodes := by
      rw [← keys_drawAll Digest.hexDigest .byContent {} (sharedKeys nodes)]
      exact List.mem_map_of_mem h
    rw [hm.name_eq]
    exact .digits hkey hm.least hm.most hm.even

theorem ne_nil_of_reserves {keys : List DeclarationKey} (h : naming.Reserves keys name) :
    name.toList ≠ [] := by
  cases h with
  | number h =>
    rw [String.toList_append]
    exact List.cons_ne_nil _ _
  | digits hkey hleast hmost heven =>
    rw [contentName, String.toList_ofList]
    exact List.cons_ne_nil _ _

/-! ## atomic rules -/

theorem classes_atomicRule (h : (key, name) ∈ nameFrequent Digest.hexDigest naming nodes) :
    Entry.classes ⟨[], atomicRule (key, name)⟩ = [name] :=
  classes_dot (isName_drawAll isName_hexDigest _ _ _ _ h)
    (ne_nil_of_reserves (reserves_nameFrequent h))

theorem entries_atomicRules (named : InsertionMap DeclarationKey String) :
    entries (named.map atomicRule) = named.map fun entry => ⟨[], atomicRule entry⟩ := by
  induction named with
  | nil => rfl
  | cons entry named ih =>
    rw [List.map_cons, entries_cons, ih]
    rfl

theorem rulesOf_rules (strip : Bool) (c : String) :
    rulesOf c (factorFrequent Digest.hexDigest naming strip nodes).rules =
      ((nameFrequent Digest.hexDigest naming nodes).filter (·.2 = c)).map fun entry =>
        ⟨[], atomicRule entry⟩ := by
  show rulesOf c ((nameFrequent Digest.hexDigest naming nodes).map atomicRule) = _
  rw [rulesOf, entries_atomicRules, List.filter_map]
  refine congrArg _ (List.filter_congr fun entry hm => ?_)
  rw [Function.comp_apply, classes_atomicRule hm]
  simp only [List.mem_singleton, eq_comm]

end

/-! ## a second run -/

/-- the atomic rules of a run depend on nothing but the shared keys -/
theorem rules_of_sharedKeys (hash : String → String) (naming : ClassNaming) (strip : Bool)
    (nodes : List Node) :
    (factorFrequent hash naming strip nodes).rules =
      (drawAll hash naming {} (sharedKeys nodes)).map atomicRule :=
  congrArg _ (nameFrequent_eq_drawAll hash naming nodes)

section
variable {hash : String → String} {naming : ClassNaming} {nodes left : List Node}
  {strip : Bool} {key : DeclarationKey} {selector : String}
  (hkeys : ∀ key ∈ sharedKeys nodes, key.declaration.key = key)
include hkeys

/-- where keys are read back as they are, the rule of a key declares this key -/
theorem keys_rules :
    (declared (factorFrequent hash naming strip nodes).rules).map Declaration.key =
      sharedKeys nodes := by
  have hbodies : declared (factorFrequent hash naming strip nodes).rules =
      (sharedKeys nodes).map DeclarationKey.declaration := by
    rw [declared, rules_eq, List.flatMap_map, List.map_eq_flatMap]
    rfl
  rw [hbodies, List.map_map]
  exact (List.map_congr_left hkeys).trans (List.map_id _)

theorem declares_rules (h : Declares (factorFrequent hash naming strip nodes).rules selector key) :
    key ∈ sharedKeys nodes ∧ selector = "." ++ classOf hash naming nodes key := by
  obtain ⟨body, hm, d, hd, rfl⟩ := h
  rw [rules_eq] at hm
  obtain ⟨other, hother, he⟩ := List.mem_map.mp hm
  obtain ⟨rfl, rfl⟩ := Node.rule.inj he
  rw [List.mem_singleton.mp hd, hkeys other hother]
  exact ⟨hother, rfl⟩

/-- atomic rules in front of a stylesheet make none of the other keys shared -/
theorem shared_behind_rules (hkey : key ∉ sharedKeys nodes) :
    Shared ((factorFrequent hash naming strip nodes).rules ++ left) key ↔ Shared left key := by
  have hdeclares (s : String) :
      Declares ((factorFrequent hash naming strip nodes).rules ++ left) s key ↔
        Declares left s key := by
    rw [declares_append]
    exact or_iff_right fun h => hkey (declares_rules hkeys h).1
  simp only [Shared, hdeclares]

theorem mem_sharedKeys_behind_rules :
    key ∈ sharedKeys ((factorFrequent hash naming strip nodes).rules ++ nodes) ↔
      key ∈ sharedKeys nodes := by
  by_cases hkey : key ∈ sharedKeys nodes
  · refine iff_of_true (mem_sharedKeys.mpr ?_) hkey
    obtain ⟨s, t, u, hne, hs, ht, hu⟩ := mem_sharedKeys.mp hkey
    exact ⟨s, t, u, hne, declares_append.mpr (.inr hs), declares_append.mpr (.inr ht),
      declares_append.mpr (.inr hu)⟩
  · rw [mem_sharedKeys, shared_behind_rules hkeys hkey, mem_sharedKeys]

theorem sharedKeys_behind_rules :
    sharedKeys ((factorFrequent hash naming strip nodes).rules ++ nodes) = sharedKeys nodes := by
  have hdeclared : (declared ((factorFrequent hash naming strip nodes).rules ++ nodes)).map
        Declaration.key =
      sharedKeys nodes ++ (declared nodes).map Declaration.key := by
    rw [declared, List.flatMap_append, List.map_append, ← declared, keys_rules hkeys]
    rfl
  have hbehind : (((declared nodes).map Declaration.key).removeAll
      (sharedKeys nodes)).eraseDups.filter (· ∈ sharedKeys nodes) = [] := by
    refine List.filter_eq_nil_iff.mpr fun key hkey hshared => ?_
    have hnot := (List.mem_filter.mp (List.mem_eraseDups.mp hkey)).2
    rw [List.elem_eq_true_of_mem (of_decide_eq_true hshared)] at hnot
    exact absurd hnot (by decide)
  rw [sharedKeys_eq_filter]
  simp only [mem_sharedKeys_behind_rules hkeys]
  rw [hdeclared, List.eraseDups_append, List.filter_append, hbehind, List.append_nil,
    eraseDups_of_nodup (nodup_sharedKeys nodes)]
  exact List.filter_eq_self.mpr fun key hkey => decide_eq_true hkey

theorem sharedKeys_taken_out :
    sharedKeys ((factorFrequent hash naming strip nodes).rules ++
      nodes.filterMap (withoutNamed (nameFrequent hash naming nodes))) = [] := by
  have hleft (s : String) (key : DeclarationKey) :
      Declares (nodes.filterMap (withoutNamed (nameFrequent hash naming nodes))) s key ↔
        Declares nodes s key ∧ key ∉ sharedKeys nodes := by
    rw [declares_iff, declares_iff, keysUnder_left, List.mem_filter, decide_eq_true_eq]
  rw [List.eq_nil_iff_forall_not_mem]
  intro key hmem
  have hshared := mem_sharedKeys.mp hmem
  by_cases hkey : key ∈ sharedKeys nodes
  · obtain ⟨s, t, u, ⟨hst, -⟩, hs, ht, -⟩ := hshared
    have hclass {r : String} (hr : Declares ((factorFrequent hash naming strip nodes).rules ++
        nodes.filterMap (withoutNamed (nameFrequent hash naming nodes))) r key) :
        r = "." ++ classOf hash naming nodes key := by
      rcases declares_append.mp hr with hr | hr
      · exact (declares_rules hkeys hr).2
      · exact absurd hkey ((hleft r key).mp hr).2
    exact hst ((hclass hs).trans (hclass ht).symm)
  · obtain ⟨s, t, u, hne, hs, ht, hu⟩ := (shared_behind_rules hkeys hkey).mp hshared
    exact hkey (mem_sharedKeys.mpr ⟨s, t, u, hne, ((hleft s key).mp hs).1, ((hleft t key).mp ht).1,
      ((hleft u key).mp hu).1⟩)

end

/-! ## freshness -/

/-- the names a run draws are reserved, so that they are new to a stylesheet that uses no reserved
name; whatever it uses, the rules of a class stay behind the atomic rules drawn under its name; and
a second run draws nothing if the shared keys were taken out, and what a run over the first
stylesheet draws if they were not -/
theorem rulesOf_nodes (naming : ClassNaming) (strip : Bool) (nodes : List Node) :
    let named := nameFrequent Digest.hexDigest naming nodes
    let e := factorFrequent Digest.hexDigest naming strip nodes
    (∀ c ∈ named.map Prod.snd, naming.Reserves (sharedKeys nodes) c) ∧
      ((∀ c ∈ usedClasses nodes, ¬ naming.Reserves (sharedKeys nodes) c) →
        (∀ c ∈ named.map Prod.snd, c ∉ usedClasses nodes) ∧
          ∀ c ∈ usedClasses nodes,
            rulesOf c (e.nodes nodes) = rulesOf c (e.stripped.getD nodes)) ∧
      (∀ c, rulesOf c (e.nodes nodes) =
        (named.filter (·.2 = c)).map (fun entry => ⟨[], atomicRule entry⟩) ++
          rulesOf c (e.stripped.getD nodes)) ∧
      ((∀ key ∈ sharedKeys nodes, key.declaration.key = key) → ∀ again strip',
        (factorFrequent Digest.hexDigest again strip' (e.nodes nodes)).rules =
          if strip then [] else (factorFrequent Digest.hexDigest again strip' nodes).rules) := by
  intro named e
  have hreserved : ∀ c ∈ named.map Prod.snd, naming.Reserves (sharedKeys nodes) c := by
    intro c hc
    obtain ⟨⟨key, name⟩, hentry, rfl⟩ := List.mem_map.mp hc
    exact reserves_nameFrequent hentry
  have hrules (c : String) : rulesOf c (e.nodes nodes) =
      (named.filter (·.2 = c)).map (fun entry => ⟨[], atomicRule entry⟩) ++
        rulesOf c (e.stripped.getD nodes) := by
    rw [Factored.nodes, rulesOf_append, rulesOf_rules]
  refine ⟨hreserved, fun hfree => ⟨fun c hc hused => hfree c hused (hreserved c hc), ?_⟩, hrules,
    fun hkeys again strip' => ?_⟩
  · intro c hused
    have hnone : named.filter (·.2 = c) = [] := by
      refine List.filter_eq_nil_iff.mpr fun entry hentry he => hfree c hused ?_
      exact hreserved c (List.mem_map.mpr ⟨entry, hentry, of_decide_eq_true he⟩)
    rw [hrules, hnone]
    rfl
  · rw [rules_of_sharedKeys]
    cases strip with
    | true =>
      have hnodes : e.nodes nodes = e.rules ++ nodes.filterMap (withoutNamed named) := rfl
      rw [hnodes, sharedKeys_taken_out hkeys]
      rfl
    | false =>
      have hnodes : e.nodes nodes = e.rules ++ nodes := rfl
      rw [hnodes, sharedKeys_behind_rules hkeys, ← rules_of_sharedKeys]
      rfl

/-- no class of this stylesheet starts as a name does -/
def plainSheet : List Node :=
  [.atRule "media" "print" [.rule ".w:hover" [⟨"p", "1"⟩]], .rule ".x" [⟨"p", "1"⟩],
    .rule ".y" [⟨"p", "1 "⟩], .rule "div .z" [⟨"p", "1;"⟩, ⟨"q", "2"⟩]]

theorem rulesOf_nodes_plainSheet :
    let e := factorFrequent Digest.hexDigest .inSequence true plainSheet
    ((∀ c ∈ usedClasses plainSheet, ¬ ClassNaming.inSequence.Reserves (sharedKeys plainSheet) c) ∧
      ∀ key ∈ sharedKeys plainSheet, key.declaration.key = key) ∧
      (usedClasses plainSheet = ["w", "x", "y", "z"] ∧
        (nameFrequent Digest.hexDigest .inSequence plainSheet).map Prod.snd = ["_0"]) ∧
      "_0" ∉ usedClasses plainSheet ∧
      rulesOf "z" (e.nodes plainSheet) = rulesOf "z" (e.stripped.getD plainSheet) ∧
      (factorFrequent Digest.hexDigest .byContent true (e.nodes plainSheet)).rules = [] := by
  intro e
  have hused : usedClasses plainSheet = ["w", "x", "y", "z"] := by decide +kernel
  have hdrawn : (nameFrequent Digest.hexDigest .inSequence plainSheet).map Prod.snd = ["_0"] := by
    decide +kernel
  have hfree : ∀ c ∈ usedClasses plainSheet,
      ¬ ClassNaming.inSequence.Reserves (sharedKeys plainSheet) c := by
    rw [hused]
    rintro c hc (⟨hi⟩ | _)
    have hhead : ∀ c ∈ ["w", "x", "y", "z"], c.toList.head? ≠ some '_' := by decide
    exact hhead _ hc (by rw [String.toList_append]; rfl)
  have hkeys : ∀ key ∈ sharedKeys plainSheet, key.declaration.key = key := by decide +kernel
  obtain ⟨-, hfresh, -, hagain⟩ := rulesOf_nodes .inSequence true plainSheet
  obtain ⟨hnew, hsame⟩ := hfresh hfree
  refine ⟨⟨hfree, hkeys⟩, ⟨hused, hdrawn⟩, hnew "_0" ?_, hsame "z" ?_, hagain hkeys _ _⟩
  · rw [hdrawn]
    exact List.mem_singleton_self _
  · rw [hused]
    decide

/-- a stylesheet with a class that has the first name in sequence -/
def numberedSheet : List Node :=
  [.rule "._0" [⟨"a", "b"⟩], .rule ".x" [⟨"p", "1"⟩], .rule ".y" [⟨"p", "1"⟩],
    .rule ".z" [⟨"p", "1"⟩]]

/-- its class gets the declaration of an atomic rule, and names by content are drawn again by a
second run -/
theorem drawn_numberedSheet :
    let counted := factorFrequent Digest.hexDigest .inSequence false numberedSheet
    let once := (factorFrequent Digest.hexDigest .byContent false numberedSheet).nodes numberedSheet
    ("_0" ∈ usedClasses numberedSheet ∧
        "_0" ∈ (nameFrequent Digest.hexDigest .inSequence numberedSheet).map Prod.snd) ∧
      rulesOf "_0" (counted.nodes numberedSheet) =
        [⟨[], .rule "._0" [⟨"p", "1"⟩]⟩, ⟨[], .rule "._0" [⟨"a", "b"⟩]⟩] ∧
      "_aba6e55b" ∈ usedClasses once ∧
      "_aba6e55b" ∈ (nameFrequent Digest.hexDigest .byContent once).map Prod.snd := by
  decide +kernel

end CssOptimizer
