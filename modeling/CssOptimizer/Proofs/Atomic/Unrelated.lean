import CssOptimizer.Proofs.Atomic.Factored
import CssOptimizer.Proofs.Atomic.Naming

/-!
# Names by content under unrelated edits

* `UnrelatedEdit`           rules with new selectors and new keys are inserted, and nodes that are
                            no rules come and go;
* `filter_uses`             the uses of the old selectors and keys stay as they are;
* `StartsApart`             the digests of shared keys differ in the digits of a short name;
* `composition_of_edit`     then selectors and keys that the edit does not bring keep their classes.
-/

namespace CssOptimizer

/-! ## edits -/

/-- a stylesheet becomes another one by inserting rules that share neither their selector nor a key
with the rules of `source`, and by inserting and removing nodes that are no rules -/
inductive UnrelatedEdit (source : List Node) : List Node → List Node → Prop
  | nil : UnrelatedEdit source [] []
  | keep {before after : List Node} (node : Node) (h : UnrelatedEdit source before after) :
      UnrelatedEdit source (node :: before) (node :: after)
  | insertRule {before after : List Node} (selector : String) (body : List Declaration)
      (hs : selector ∉ source.filterMap Node.selector?)
      (hb : ∀ d ∈ body, d.key ∉ (declared source).map Declaration.key)
      (h : UnrelatedEdit source before after) :
      UnrelatedEdit source before (.rule selector body :: after)
  | insertOther {before after : List Node} (node : Node) (hnode : node.isRule = false)
      (h : UnrelatedEdit source before after) : UnrelatedEdit source before (node :: after)
  | removeOther {before after : List Node} (node : Node) (hnode : node.isRule = false)
      (h : UnrelatedEdit source before after) : UnrelatedEdit source (node :: before) after

theorem Node.uses_of_not_rule {node : Node} (h : node.isRule = false) : node.uses = [] := by
  cases node with
  | declaration d => rfl
  | atRule n p c => rfl
  | rule s body => exact absurd h.symm Bool.false_ne_true

theorem uses_cons (node : Node) (nodes : List Node) :
    uses (node :: nodes) = node.uses ++ uses nodes := List.flatMap_cons

theorem mem_declared_of_mem_uses {nodes : List Node} {u : String × Declaration}
    (h : u ∈ uses nodes) : u.2 ∈ declared nodes :=
  map_snd_uses nodes ▸ List.mem_map_of_mem h

theorem mem_selectors_of_mem_uses {nodes : List Node} {u : String × Declaration}
    (h : u ∈ uses nodes) : u.1 ∈ nodes.filterMap Node.selector? := by
  obtain ⟨body, hm, -⟩ := mem_uses.mp h
  exact List.mem_filterMap.mpr ⟨_, hm, rfl⟩

section
variable {source before after : List Node}

theorem UnrelatedEdit.filter_uses (h : UnrelatedEdit source before after)
    {p : String × Declaration → Bool}
    (hp : ∀ u ∈ uses after, p u = true →
      u.1 ∈ source.filterMap Node.selector? ∨ u.2.key ∈ (declared source).map Declaration.key) :
    (uses after).filter p = (uses before).filter p := by
  induction h with
  | nil => rfl
  | keep node h ih =>
    rw [uses_cons, List.forall_mem_append] at hp
    rw [uses_cons, uses_cons, List.filter_append, List.filter_append, ih hp.2]
  | insertRule selector body hs hb h ih =>
    rw [uses_cons, List.forall_mem_append] at hp
    have hnone : (Node.rule selector body).uses.filter p = [] := by
      refine List.filter_eq_nil_iff.mpr fun u hu hpu => ?_
      obtain ⟨d, hd, rfl⟩ := List.mem_map.mp hu
      exact (hp.1 _ hu hpu).elim hs (hb d hd)
    rw [uses_cons, List.filter_append, hnone, List.nil_append, ih hp.2]
  | insertOther node hnode h ih =>
    rw [uses_cons, Node.uses_of_not_rule hnode, List.nil_append] at hp ⊢
    exact ih hp
  | removeOther node hnode h ih =>
    rw [uses_cons, Node.uses_of_not_rule hnode, List.nil_append, ih hp]

end

/-! ## names -/

/-- no two keys that get a class have digests that start with the digits of one short name -/
def StartsApart (hash : String → String) (nodes : List Node) : Prop :=
  ∀ a ∈ sharedKeys nodes, ∀ b ∈ sharedKeys nodes,
    (hash a.text).toList.take NameSupply.shortLength =
      (hash b.text).toList.take NameSupply.shortLength → a = b

instance (hash : String → String) (nodes : List Node) : Decidable (StartsApart hash nodes) :=
  inferInstanceAs (Decidable (∀ _ ∈ _, ∀ _ ∈ _, _ → _))

section
variable {hash : String → String} {nodes : List Node}

/-- a name by content is then short, so that it depends on nothing but its key -/
theorem StartsApart.at?_nameFrequent (h : StartsApart hash nodes) (key : DeclarationKey) :
    (nameFrequent hash .byContent nodes).at? key =
      if key ∈ sharedKeys nodes then some (NameSupply.shortName hash key) else none := by
  have hnodup : ((sharedKeys nodes).map (NameSupply.shortName hash)).Nodup :=
    (nodup_sharedKeys nodes).map_on fun a ha b hb he =>
      h a ha b hb (NameSupply.contentName_inj.mp he)
  have hnamed : nameFrequent hash .byContent nodes =
      (sharedKeys nodes).map fun key => (key, NameSupply.shortName hash key) := by
    rw [nameFrequent_eq_drawAll]
    exact NameSupply.drawAll_eq_short hnodup
  split
  · rename_i hkey
    refine InsertionMap.at?_of_mem (nodup_keys_nameFrequent ..) ?_
    rw [hnamed]
    exact List.mem_map_of_mem hkey
  · rename_i hkey
    rw [InsertionMap.at?_eq_none_iff, keys_nameFrequent]
    exact hkey

end

/-! ## both runs -/

/-- what a grouping has under a key depends on nothing but the pairs with this key -/
theorem InsertionMap.at?_group_congr {κ α : Type} [DecidableEq κ] [DecidableEq α]
    {es es' : List (κ × α)} {k : κ} (h : es.filter (·.1 = k) = es'.filter (·.1 = k)) :
    (group es).at? k = (group es').at? k := by
  have hmem (es : List (κ × α)) : k ∈ es.map Prod.fst ↔ es.filter (·.1 = k) ≠ [] := by
    rw [List.mem_map, ne_eq, List.filter_eq_nil_iff]
    simp
  rw [at?_group, at?_group, itemsOf, itemsOf, h]
  exact if_congr ((hmem es).trans (h ▸ (hmem es').symm)) rfl rfl

theorem filter_composedUses (named : InsertionMap DeclarationKey String) (nodes : List Node)
    (selector : String) :
    (composedUses named nodes).filter (·.1 = selector) =
      ((uses nodes).filter (·.1 = selector)).filterMap fun u =>
        (named.at? u.2.key).map fun name => (u.1, name) := by
  rw [composedUses, List.filter_filterMap, List.filterMap_filter]
  refine List.filterMap_congr fun u _ => ?_
  cases named.at? u.2.key with
  | none => simp
  | some name => by_cases hs : u.1 = selector <;> simp [hs, Option.filter]

theorem mem_rules {hash : String → String} {naming : ClassNaming} {strip : Bool}
    {nodes : List Node} {key : DeclarationKey} {name : String} :
    atomicRule (key, name) ∈ (factorFrequent hash naming strip nodes).rules ↔
      (nameFrequent hash naming nodes).at? key = some name := by
  constructor
  · intro hm
    obtain ⟨⟨other, name'⟩, hentry, he⟩ := List.mem_map.mp hm
    obtain ⟨hname, hbody⟩ := Node.rule.inj he
    obtain rfl : other = key := DeclarationKey.declaration_inj.mp (List.cons.inj hbody).1
    obtain rfl : name' = name := String.append_right_inj "." |>.mp hname
    exact InsertionMap.at?_of_mem (nodup_keys_nameFrequent hash naming nodes) hentry
  · exact fun hat => List.mem_map.mpr ⟨_, InsertionMap.mem_of_at? hat, rfl⟩

section
variable {hash : String → String} {before after : List Node}

/-- an edit does not change which of the old keys are shared -/
theorem UnrelatedEdit.mem_sharedKeys (h : UnrelatedEdit before before after) {key : DeclarationKey}
    (hkey : key ∈ (declared after).map Declaration.key →
      key ∈ (declared before).map Declaration.key) :
    key ∈ sharedKeys after ↔ key ∈ sharedKeys before := by
  have huses : (uses after).filter (fun u => decide (u.2.key = key)) =
      (uses before).filter fun u => decide (u.2.key = key) := by
    refine h.filter_uses fun u hu he => Or.inr ?_
    obtain rfl := of_decide_eq_true he
    exact hkey (List.mem_map_of_mem (mem_declared_of_mem_uses hu))
  rw [mem_sharedKeys_iff_length, mem_sharedKeys_iff_length, selectorsWhere_eq_uses,
    selectorsWhere_eq_uses, huses]

/-- so the keys that get a class before an edit get one after it, and are apart there -/
theorem UnrelatedEdit.startsApart (h : UnrelatedEdit before before after)
    (hapart : StartsApart hash after) : StartsApart hash before := by
  have hshared {key : DeclarationKey} (hkey : key ∈ sharedKeys before) :
      key ∈ sharedKeys after := by
    refine (h.mem_sharedKeys fun _ => ?_).mpr hkey
    exact List.mem_eraseDups.mp (List.mem_filter.mp hkey).1
  exact fun a ha b hb => hapart a (hshared ha) b (hshared hb)

theorem UnrelatedEdit.at?_nameFrequent (h : UnrelatedEdit before before after)
    (hapart : StartsApart hash after) {key : DeclarationKey}
    (hkey : key ∈ (declared after).map Declaration.key →
      key ∈ (declared before).map Declaration.key) :
    (nameFrequent hash .byContent after).at? key =
      (nameFrequent hash .byContent before).at? key := by
  rw [hapart.at?_nameFrequent, (h.startsApart hapart).at?_nameFrequent]
  exact if_congr (h.mem_sharedKeys hkey) rfl rfl

/-- a selector that an edit does not bring keeps its classes, and a key that it does not bring
keeps its atomic rule, if it has one -/
theorem composition_of_edit (h : UnrelatedEdit before before after)
    (hapart : StartsApart hash after) (strip : Bool) :
    let e := factorFrequent hash .byContent strip before
    let e' := factorFrequent hash .byContent strip after
    (∀ s, (s ∈ after.filterMap Node.selector? → s ∈ before.filterMap Node.selector?) →
        InsertionMap.at? e'.composition s = InsertionMap.at? e.composition s) ∧
      ∀ key, (key ∈ (declared after).map Declaration.key →
          key ∈ (declared before).map Declaration.key) →
        ∀ name, atomicRule (key, name) ∈ e'.rules ↔ atomicRule (key, name) ∈ e.rules := by
  intro e e'
  refine ⟨fun s hs => ?_, fun key hkey name => ?_⟩
  · have huses : (uses after).filter (fun u => decide (u.1 = s)) =
        (uses before).filter fun u => decide (u.1 = s) := by
      refine h.filter_uses fun u hu he => Or.inl ?_
      obtain rfl := of_decide_eq_true he
      exact hs (mem_selectors_of_mem_uses hu)
    show InsertionMap.at? (compose _ after) s = InsertionMap.at? (compose _ before) s
    rw [compose_eq_group, compose_eq_group]
    refine InsertionMap.at?_group_congr ?_
    rw [filter_composedUses, filter_composedUses, huses]
    refine List.filterMap_congr fun u hu => ?_
    have hold : u.2.key ∈ (declared before).map Declaration.key :=
      List.mem_map_of_mem (mem_declared_of_mem_uses (List.mem_filter.mp hu).1)
    rw [h.at?_nameFrequent hapart fun _ => hold]
  · rw [mem_rules, mem_rules, h.at?_nameFrequent hapart hkey]

end

/-- rules around an at-rule that goes, and another one that comes, with a key that gets a class -/
theorem composition_of_edit_newKey :
    let before : List Node := [.rule ".a" [⟨"m", "0"⟩, ⟨"p", "1"⟩], .atRule "media" "print" [],
      .rule ".b" [⟨"p", "1"⟩], .rule ".c" [⟨"p", "1"⟩]]
    let after : List Node := [.rule ".x" [⟨"q", "2"⟩], .rule ".a" [⟨"m", "0"⟩, ⟨"p", "1"⟩],
      .rule ".y" [⟨"q", "2"⟩], .rule ".b" [⟨"p", "1"⟩], .atRule "media" "screen" [],
      .rule ".z" [⟨"q", "2"⟩], .rule ".c" [⟨"p", "1"⟩]]
    let e := factorFrequent Digest.hexDigest .byContent true before
    let e' := factorFrequent Digest.hexDigest .byContent true after
    (UnrelatedEdit before before after ∧ StartsApart Digest.hexDigest after) ∧
      e.rules.length = 1 ∧ e'.rules.length = 2 ∧
      InsertionMap.at? e'.composition ".a" = InsertionMap.at? e.composition ".a" ∧
      InsertionMap.at? e.composition ".a" = some ["_aba6e55b"] ∧
      atomicRule (⟨"p", "1"⟩, "_aba6e55b") ∈ e'.rules := by
  intro before after e e'
  have hedit : UnrelatedEdit before before after :=
    .insertRule _ _ (by decide) (by decide) <| .keep _ <| .removeOther _ rfl <|
      .insertRule _ _ (by decide) (by decide) <| .keep _ <| .insertOther _ rfl <|
      .insertRule _ _ (by decide) (by decide) <| .keep _ .nil
  have hapart : StartsApart Digest.hexDigest after := by decide +kernel
  obtain ⟨hcomposition, hrules⟩ := composition_of_edit hedit hapart true
  refine ⟨⟨hedit, hapart⟩, by decide +kernel, by decide +kernel,
    hcomposition ".a" fun _ => by decide, by decide +kernel, ?_⟩
  exact (hrules ⟨"p", "1"⟩ (fun _ => by decide) "_aba6e55b").mpr (by decide +kernel)

end CssOptimizer
