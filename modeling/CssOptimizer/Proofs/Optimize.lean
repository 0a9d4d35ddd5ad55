import CssOptimizer.Optimize
import CssOptimizer.Proofs.Atomic.Compose
import CssOptimizer.Proofs.Duplicates

/-!
# No declaration is lost

* `Options.Keeps`             whether the rules with a selector stay when unused rules go;
* `Optimized.Declares`        a rule with the selector declares the key;
* `Optimized.Composes`        an atomic class composed for the selector declares it;
* `exists_retains`            one or the other holds of every declaration of a rule that stays,
                              for a selector list that the selector of the rule is in.

Each step keeps what is declared: the first drops whole rules, the second leaves one rule of those
with the same keys, and the last takes a declaration out of a rule only if it has noted the class
for its selector.
-/

namespace CssOptimizer

def Options.Keeps (options : Options) (usage : Option Usage) (selector : String) : Prop :=
  options.purge = true → ∀ u ∈ usage, u.covers selector = true

namespace Optimized

def Declares (o : Optimized) (selector : String) (key : DeclarationKey) : Prop :=
  ∃ body, Node.rule selector body ∈ o.nodes ∧ ∃ d ∈ body, d.key = key

def Composes (o : Optimized) (selector : String) (key : DeclarationKey) : Prop :=
  ∃ classes, InsertionMap.at? o.composition selector = some classes ∧ ∃ c ∈ classes,
    Node.rule ("." ++ c) [⟨key.property, key.value⟩] ∈ o.nodes

/-- the key is declared for the selector; by an atomic class only where declarations are taken out
of their rules -/
def Retains (o : Optimized) (options : Options) (selector : String) (key : DeclarationKey) : Prop :=
  o.Declares selector key ∨
    (options.atomic = true ∧ options.stripAtomic = true) ∧ o.Composes selector key

end Optimized

/-! ## the steps -/

section
variable {options : Options} {usage : Option Usage}

theorem mem_purgeStep {o : Optimized} {selector : String} {body : List Declaration} :
    Node.rule selector body ∈ (purgeStep options usage o).nodes ↔
      Node.rule selector body ∈ o.nodes ∧ options.Keeps usage selector := by
  unfold purgeStep Options.Keeps
  cases hp : options.purge with
  | false => simp
  | true =>
    cases usage with
    | none => simp
    | some u =>
      show Node.rule selector body ∈ o.nodes.filter u.keeps ↔ _
      rw [List.mem_filter]
      simp [Usage.keeps]

/-- the rule that a rule is merged into, if rules are merged at all -/
theorem exists_mergeStep {o : Optimized}
    (hread : ∀ s b, Node.rule s b ∈ o.nodes → ∀ d ∈ b, Declaration.Separate d) {selector : String}
    {body : List Declaration} (h : Node.rule selector body ∈ o.nodes) :
    ∃ selectors first, Node.rule (joinSelectors selectors) first ∈ (mergeStep options o).nodes ∧
      first.map Declaration.key = body.map Declaration.key ∧ selector ∈ selectors ∧
      (options.deduplicate = false → selectors = [selector]) ∧
      ∀ s ∈ selectors, ∃ b, Node.rule s b ∈ o.nodes := by
  unfold mergeStep
  cases hd : options.deduplicate with
  | true =>
    obtain ⟨selectors, first, hout, hkeys, hsel, hall⟩ := exists_merged_read hread h
    exact ⟨selectors, first, hout, hkeys, hsel, fun hf => absurd hf (by simp), hall⟩
  | false =>
    refine ⟨[selector], body, ?_, rfl, List.mem_singleton_self _, fun _ => rfl, ?_⟩
    · have hj : joinSelectors [selector] = selector := String.intercalate_singleton
      rw [hj]
      exact h
    · intro s hs
      rw [List.mem_singleton.mp hs]
      exact ⟨body, h⟩

/-- what a rule declares is left in place or noted for its selector -/
theorem atomicStep_keeps (hash : String → String) {o : Optimized} {selector : String}
    {body : List Declaration} (h : Node.rule selector body ∈ o.nodes) {d : Declaration}
    (hd : d ∈ body) :
    (atomicStep hash options o).Retains options selector d.key := by
  unfold atomicStep Optimized.Retains
  cases ha : options.atomic with
  | false => exact Or.inl ⟨body, h, d, hd, rfl⟩
  | true =>
    cases hs : options.stripAtomic with
    | false => exact Or.inl ⟨body, List.mem_append_right _ h, d, hd, rfl⟩
    | true =>
      let named := nameFrequent hash options.atomicNaming o.nodes
      cases hn : named.at? d.key with
      | none =>
        have hleft : d ∈ body.filter fun d => (named.at? d.key).isNone := by
          rw [List.mem_filter, hn]
          exact ⟨hd, rfl⟩
        refine Or.inl ⟨_, List.mem_append_right _ ?_, d, hleft, rfl⟩
        refine List.mem_filterMap.mpr ⟨_, h, ?_⟩
        have hne : (body.filter fun d => (named.at? d.key).isNone).isEmpty = false :=
          List.isEmpty_eq_false_iff.mpr (List.ne_nil_of_mem hleft)
        show (if (body.filter fun d => (named.at? d.key).isNone).isEmpty = true then none
          else some _) = some _
        rw [hne, if_neg Bool.false_ne_true]
      | some c =>
        have hc : c ∈ (compose named o.nodes).classes selector :=
          (mem_classes_compose named o.nodes).mpr ⟨body, h, d, hd, hn⟩
        obtain ⟨classes, hat, hmem⟩ := Composition.at?_of_mem_classes hc
        refine Or.inr ⟨⟨rfl, rfl⟩, classes, hat, c, hmem, List.mem_append_left _ ?_⟩
        exact List.mem_map.mpr ⟨(d.key, c), InsertionMap.mem_of_at? hn, rfl⟩

end

/-! ## all steps -/

/-- no declaration of a rule that stays is lost: it stands under a selector list with the selector
of its rule, or in an atomic class that is composed for this selector list -/
theorem exists_retains (hash : String → String) (options : Options)
    (usage : Option Usage) (css : String) {selector : String} {body : List Declaration}
    (h : Node.rule selector body ∈ parse css) (hk : options.Keeps usage selector)
    {d : Declaration} (hd : d ∈ body) :
    ∃ selectors, selector ∈ selectors ∧ (options.deduplicate = false → selectors = [selector]) ∧
      (∀ s ∈ selectors, options.Keeps usage s ∧ ∃ b, Node.rule s b ∈ parse css) ∧
      (optimizeNodes hash options usage (parse css)).Retains options (joinSelectors selectors)
        d.key := by
  let purged := purgeStep options usage { nodes := parse css }
  have hpurged : Node.rule selector body ∈ purged.nodes := mem_purgeStep.mpr ⟨h, hk⟩
  have hread : ∀ s b, Node.rule s b ∈ purged.nodes → ∀ d ∈ b, Declaration.Separate d := by
    intro s b hm
    exact separate_of_read (read_parse css) (mem_purgeStep.mp hm).1
  obtain ⟨selectors, first, hfirst, hkeys, hsel, hone, hall⟩ := exists_mergeStep hread hpurged
  obtain ⟨e, he, hkey⟩ : ∃ e ∈ first, e.key = d.key := by
    have hm : d.key ∈ first.map Declaration.key := hkeys ▸ List.mem_map_of_mem hd
    exact List.mem_map.mp hm
  refine ⟨selectors, hsel, hone, ?_, ?_⟩
  · intro s hs
    obtain ⟨b, hb⟩ := hall s hs
    exact ⟨(mem_purgeStep.mp hb).2, b, (mem_purgeStep.mp hb).1⟩
  · rw [← hkey]
    exact atomicStep_keeps hash hfirst he

/-- a stylesheet, a usage and options for which every step has something to do -/
def sharedSheet : String :=
  ".a\x7bp:1\x7d.b\x7bp: 1 ;\x7d.c\x7bp:1;q:2\x7d.d\x7bp:1;r:3\x7d.e\x7bs:4\x7d"

def sharedUsage : Usage := { classes := NameSet.ofList ["a", "b", "c", "d"] }

def sharedOptions : Options := { Options.production with stripAtomic := true }

theorem exists_retains_shared :
    Node.rule ".b" [⟨"p", "1"⟩] ∈ parse sharedSheet ∧
    sharedOptions.Keeps (some sharedUsage) ".b" ∧
    ∃ selectors, ".b" ∈ selectors ∧ (sharedOptions.deduplicate = false → selectors = [".b"]) ∧
      (∀ s ∈ selectors, sharedOptions.Keeps (some sharedUsage) s ∧
        ∃ b, Node.rule s b ∈ parse sharedSheet) ∧
      (optimizeNodes Digest.hexDigest sharedOptions (some sharedUsage) (parse sharedSheet)).Retains
        sharedOptions (joinSelectors selectors) (Declaration.key ⟨"p", "1"⟩) := by
  have hmem : Node.rule ".b" [⟨"p", "1"⟩] ∈ parse sharedSheet := by decide +kernel
  have hkeep : sharedOptions.Keeps (some sharedUsage) ".b" := by
    intro _ u hu
    rw [← Option.some.inj hu]
    decide +kernel
  exact ⟨hmem, hkeep, exists_retains Digest.hexDigest sharedOptions (some sharedUsage) sharedSheet
    hmem hkeep List.mem_cons_self⟩

end CssOptimizer
