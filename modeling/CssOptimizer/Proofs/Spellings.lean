import CssOptimizer.Proofs.Atomic.Uses
import CssOptimizer.Proofs.Registry.Bodies
import CssOptimizer.Proofs.Sheet.Respelled

/-!
# Spellings of declarations in the passes

Merging rules, making atomic classes and registering look at declarations through their keys, so
that they do the same for two stylesheets of which the declarations have the same keys one by one.

* `Node.Related R`       nodes whose declarations are related by `R`, one by one;
* `mergeFrom_related`    merging related stylesheets gives related ones;
* `Factored.Related R`   the results of factoring with the same classes and related nodes;
* `related_factorFrequent`   these are made of related stylesheets;
* `Registry.addStyle_again`  a body whose declarations have the keys of one that was registered is
                         not registered again;
* `DeclarationKey.NormalForm`   when a key is in normal form;
* `keys_of_spellings`    which spellings have the same key, and what follows for the passes
                         (`KeyedAlike`).
-/

namespace CssOptimizer
open Text

/-! ## related stylesheets -/

/-- nodes whose declarations are related one by one; at-rules, which no pass looks into here, are
the same -/
inductive Node.Related (R : Declaration → Declaration → Prop) : Node → Node → Prop
  | declaration {d e : Declaration} (h : R d e) : Related R (.declaration d) (.declaration e)
  | rule (selector : String) {a b : List Declaration} (h : List.Forall₂ R a b) :
    Related R (.rule selector a) (.rule selector b)
  | atRule (name params : String) (children : List Node) :
    Related R (.atRule name params children) (.atRule name params children)

/-- results of factoring with the same classes and the same composition, where what is left of the
nodes is related -/
structure Factored.Related (R : Declaration → Declaration → Prop) (e e' : Factored) : Prop where
  rules : e.rules = e'.rules
  composition : e.composition = e'.composition
  stripped : Option.Rel (List.Forall₂ (Node.Related R)) e.stripped e'.stripped

section
variable {R : Declaration → Declaration → Prop} (hR : ∀ d e, R d e → d.key = e.key)
include hR

theorem keys_related {a b : List Declaration} (h : List.Forall₂ R a b) :
    a.map Declaration.key = b.map Declaration.key := by
  induction h with
  | nil => rfl
  | cons hde _ ih => rw [List.map_cons, List.map_cons, hR _ _ hde, ih]

theorem blockKey_related {a b : List Declaration} (h : List.Forall₂ R a b) :
    blockKey a = blockKey b := blockKey_congr (keys_related hR h)

/-! ## merging -/

theorem selectorsWithKey_related (key : String) {nodes nodes' : List Node}
    (h : List.Forall₂ (Node.Related R) nodes nodes') :
    selectorsWithKey key nodes = selectorsWithKey key nodes' := by
  induction h with
  | nil => rfl
  | cons hn _ ih =>
    cases hn with
    | declaration _ => exact ih
    | atRule _ _ _ => exact ih
    | rule selector hb => rw [selectorsWithKey, selectorsWithKey, blockKey_related hR hb, ih]

theorem mergeFrom_related (seen : List String) {nodes nodes' : List Node}
    (h : List.Forall₂ (Node.Related R) nodes nodes') :
    List.Forall₂ (Node.Related R) (mergeFrom seen nodes) (mergeFrom seen nodes') := by
  induction h generalizing seen with
  | nil => exact .nil
  | cons hn hrest ih =>
    cases hn with
    | declaration hd => exact .cons (.declaration hd) (ih seen)
    | atRule name params children => exact .cons (.atRule name params children) (ih seen)
    | rule selector hb =>
      rw [mergeFrom_rule, mergeFrom_rule, blockKey_related hR hb,
        selectorsWithKey_related hR _ hrest]
      split
      · exact ih seen
      · exact .cons (.rule _ hb) (ih _)

/-! ## factoring -/

/-- the keys of related stylesheets stand under the same selectors, in the same order -/
theorem uses_related {nodes nodes' : List Node} (h : List.Forall₂ (Node.Related R) nodes nodes') :
    (uses nodes).map (fun u => (u.2.key, u.1)) = (uses nodes').map fun u => (u.2.key, u.1) := by
  induction h with
  | nil => rfl
  | cons hn _ ih =>
    rw [uses, uses, List.flatMap_cons, List.flatMap_cons, List.map_append, List.map_append]
    refine congrArg₂ _ ?_ ih
    cases hn with
    | declaration _ => rfl
    | atRule _ _ _ => rfl
    | rule selector hb =>
      have hkeys := congrArg (List.map fun key => (key, selector)) (keys_related hR hb)
      rw [List.map_map, List.map_map] at hkeys
      rw [Node.uses, Node.uses, List.map_map, List.map_map]
      exact hkeys

theorem nameFrequent_related (hash : String → String) (naming : ClassNaming)
    {nodes nodes' : List Node} (h : List.Forall₂ (Node.Related R) nodes nodes') :
    nameFrequent hash naming nodes = nameFrequent hash naming nodes' := by
  rw [nameFrequent, nameFrequent, tally_eq_group, tally_eq_group, uses_related hR h]

theorem compose_related (named : InsertionMap DeclarationKey String) {nodes nodes' : List Node}
    (h : List.Forall₂ (Node.Related R) nodes nodes') :
    compose named nodes = compose named nodes' := by
  have hkeyed (ns : List Node) : composedUses named ns =
      ((uses ns).map fun u => (u.2.key, u.1)).filterMap fun u =>
        (named.at? u.1).map fun name => (u.2, name) := by
    rw [composedUses, List.filterMap_map]
    rfl
  rw [compose_eq_group, compose_eq_group, hkeyed, hkeyed, uses_related hR h]

theorem withoutNamed_related (named : InsertionMap DeclarationKey String) {node node' : Node}
    (h : node.Related R node') :
    Option.Rel (Node.Related R) (withoutNamed named node) (withoutNamed named node') := by
  cases h with
  | declaration hd => exact .some (.declaration hd)
  | atRule name params children => exact .some (.atRule name params children)
  | @rule selector a b hb =>
    have hleft : List.Forall₂ R (a.filter fun d => (named.at? d.key).isNone)
        (b.filter fun d => (named.at? d.key).isNone) := by
      refine List.rel_filter (fun d e hde => ?_) hb
      show (named.at? d.key).isNone = true ↔ (named.at? e.key).isNone = true
      rw [hR d e hde]
    rw [withoutNamed, withoutNamed]
    generalize (a.filter fun d => (named.at? d.key).isNone) = left at hleft ⊢
    generalize (b.filter fun d => (named.at? d.key).isNone) = left' at hleft ⊢
    cases hleft with
    | nil => exact .none
    | cons hd hrest => exact .some (.rule selector (.cons hd hrest))

theorem related_factorFrequent (hash : String → String) (naming : ClassNaming) (strip : Bool)
    {nodes nodes' : List Node} (h : List.Forall₂ (Node.Related R) nodes nodes') :
    (factorFrequent hash naming strip nodes).Related R
      (factorFrequent hash naming strip nodes') := by
  have hnamed := nameFrequent_related hR hash naming h
  constructor
  · exact congrArg (List.map atomicRule) hnamed
  · show compose _ _ = compose _ _
    rw [hnamed, compose_related hR _ h]
  · show Option.Rel _ (if strip then _ else _) (if strip then _ else _)
    cases strip with
    | false => exact .none
    | true =>
      refine .some ?_
      rw [hnamed]
      exact List.rel_filterMap (fun _ _ hn => withoutNamed_related hR _ hn) h

end

/-! ## registering -/

namespace Registry

theorem findOrPush_of_find? {r : Registry} {key : StyleKey} {entry : RegisteredBlock}
    (h : r.find? key = some entry) (className : Option String) (nodes : List Node) :
    r.findOrPush key className nodes = (entry, r) := by
  rw [findOrPush, h]

/-- what was found or made is found again -/
theorem findOrPush_again (r : Registry) (key : StyleKey) (className className' : Option String)
    (nodes nodes' : List Node) :
    (r.findOrPush key className nodes).2.findOrPush key className' nodes' =
      r.findOrPush key className nodes :=
  findOrPush_of_find? (find?_findOrPush r key className nodes) className' nodes'

theorem addStyle_again (hash : String → String) (r : Registry) {s t : String}
    (h : (parseDeclarations s).map Declaration.key = (parseDeclarations t).map Declaration.key) :
    (r.addStyle hash s).2.addStyle hash t = r.addStyle hash s := by
  have hkey : styleKey hash (parseDeclarations t) = styleKey hash (parseDeclarations s) := by
    rw [styleKey, styleKey, bodyText_congr h]
  simp only [addStyle, hkey, findOrPush_again]

/-- where the hash tells two bodies apart, spellings are registered under the same key exactly if
blanks part no semicolons in them -/
theorem styleKey_eq_iff {hash : String → String} {s t : String}
    (hhash : hash (bodyText (parseDeclarations s)) = hash (bodyText (parseDeclarations t)) →
      bodyText (parseDeclarations s) = bodyText (parseDeclarations t))
    (h : List.Forall₂ Declaration.Respelled (parseDeclarations s) (parseDeclarations t))
    (hs : ∀ d ∈ parseDeclarations s, ¬d.Parted) :
    styleKey hash (parseDeclarations s) = styleKey hash (parseDeclarations t) ↔
      ∀ e ∈ parseDeclarations t, ¬e.Parted := by
  rw [styleKey, styleKey, StyleKey.style.injEq, ← keys_eq_iff h hs,
    ← bodyText_parseDeclarations_iff]
  exact ⟨hhash, congrArg hash⟩

end Registry

/-! ## normal forms of keys -/

theorem DeclarationKey.ofTexts_ofTexts_iff (property value : String) :
    ofTexts (ofTexts property value).property (ofTexts property value).value =
        ofTexts property value ↔ ¬Parted property.toList ∧ ¬Parted value.toList := by
  rw [← normalize_normalize_iff, ← normalize_normalize_iff, DeclarationKey.mk.injEq,
    ← String.toList_inj, ← String.toList_inj]
  simp only [ofTexts, toList_onString]

/-- which keys are normal forms: a key is trimmed, and a semicolon is left at an end of it exactly
where blanks part the semicolons there -/
structure DeclarationKey.NormalForm (property value : String) : Prop where
  trimmedProperty : Trimmed (ofTexts property value).property.toList
  trimmedValue : Trimmed (ofTexts property value).value.toList
  propertyEnd : (ofTexts property value).property.toList.getLast? = some ';' ↔
    Parted property.toList
  valueEnd : (ofTexts property value).value.toList.getLast? = some ';' ↔ Parted value.toList
  again : ofTexts (ofTexts property value).property (ofTexts property value).value =
    ofTexts property value ↔ ¬Parted property.toList ∧ ¬Parted value.toList

theorem DeclarationKey.normalForm (property value : String) : NormalForm property value where
  trimmedProperty := by
    rw [ofTexts, toList_onString]
    exact trim_normalize _
  trimmedValue := by
    rw [ofTexts, toList_onString]
    exact trim_normalize _
  propertyEnd := by
    rw [ofTexts, toList_onString]
    exact getLast?_normalize_iff
  valueEnd := by
    rw [ofTexts, toList_onString]
    exact getLast?_normalize_iff
  again := ofTexts_ofTexts_iff property value

/-- what keys do for spellings of declarations, given a hash of texts: those in which blanks part no
semicolons have the same key, so that rules are merged, atomic classes made and bodies registered
alike for them; one that has such semicolons has another key than one that has none -/
structure KeyedAlike (hash : String → String) : Prop where
  normalForm : ∀ property value, DeclarationKey.NormalForm property value
  sameKey : ∀ d e : Declaration, d.Respelled e → ¬d.Parted → (d.key = e.key ↔ ¬e.Parted)
  merged : ∀ nodes nodes', List.Forall₂ (Node.Related Declaration.Matches) nodes nodes' →
    List.Forall₂ (Node.Related Declaration.Matches) (mergeDuplicates nodes)
      (mergeDuplicates nodes')
  factored : ∀ naming strip nodes nodes',
    List.Forall₂ (Node.Related Declaration.Matches) nodes nodes' →
    (factorFrequent hash naming strip nodes).Related Declaration.Matches
      (factorFrequent hash naming strip nodes')
  read : ∀ s t : String, Respelled s.toList t.toList →
    List.Forall₂ Declaration.Respelled (parseDeclarations s) (parseDeclarations t)
  registered : ∀ (r : Registry) (s t : String),
    List.Forall₂ Declaration.Respelled (parseDeclarations s) (parseDeclarations t) →
    (∀ d ∈ parseDeclarations s, ¬d.Parted) → (∀ e ∈ parseDeclarations t, ¬e.Parted) →
    (r.addStyle hash s).2.addStyle hash t = r.addStyle hash s
  sameStyle : ∀ s t : String,
    List.Forall₂ Declaration.Respelled (parseDeclarations s) (parseDeclarations t) →
    (∀ d ∈ parseDeclarations s, ¬d.Parted) →
    (hash (Registry.bodyText (parseDeclarations s)) =
        hash (Registry.bodyText (parseDeclarations t)) →
      Registry.bodyText (parseDeclarations s) = Registry.bodyText (parseDeclarations t)) →
    (Registry.styleKey hash (parseDeclarations s) =
        Registry.styleKey hash (parseDeclarations t) ↔ ∀ e ∈ parseDeclarations t, ¬e.Parted)

theorem keys_of_spellings (hash : String → String) : KeyedAlike hash where
  normalForm := DeclarationKey.normalForm
  sameKey _ _ := Declaration.key_eq_iff
  merged _ _ h := mergeFrom_related (fun _ _ hmatches => hmatches.key_eq) [] h
  factored naming strip _ _ h :=
    related_factorFrequent (fun _ _ hmatches => hmatches.key_eq) hash naming strip h
  read _ _ h := Declaration.readAll_respelled h
  registered r _ _ h hs ht := r.addStyle_again hash ((keys_eq_iff h hs).mpr ht)
  sameStyle _ _ h hs hhash := Registry.styleKey_eq_iff hhash h hs

/-- a declaration of which another spelling has blanks and semicolons around it -/
theorem keys_of_paddedRed :
    let plain : Declaration := ⟨"color", "red"⟩
    let padded : Declaration := ⟨" color", "red;; "⟩
    plain.Respelled padded ∧ ¬plain.Parted ∧ plain.key = padded.key ∧
      List.Forall₂ (Node.Related Declaration.Matches)
        (mergeDuplicates [.rule ".a" [plain], .rule ".b" [plain]])
        (mergeDuplicates [.rule ".a" [plain], .rule ".b" [padded]]) ∧
      Respelled "color:red".toList " color:red; ;".toList ∧
      ∀ (hash : String → String) (r : Registry),
        (r.addStyle hash "color:red").2.addStyle hash " color:red; ;" =
          r.addStyle hash "color:red" := by
  have hplain : ¬(⟨"color", "red"⟩ : Declaration).Parted := by decide
  have hpadded : ¬(⟨" color", "red;; "⟩ : Declaration).Parted := by decide
  have hspelled : (⟨"color", "red"⟩ : Declaration).Respelled ⟨" color", "red;; "⟩ :=
    ⟨⟨"color".toList, [], [], [' '], [], rfl, rfl, by decide, by decide, by decide, by decide⟩,
      "red".toList, [], [], [], ";; ".toList, rfl, rfl, by decide, by decide, by decide,
      by decide⟩
  have hrefl : (⟨"color", "red"⟩ : Declaration).Respelled ⟨"color", "red"⟩ :=
    ⟨⟨"color".toList, [], [], [], [], rfl, rfl, by decide, by decide, by decide, by decide⟩,
      "red".toList, [], [], [], [], rfl, rfl, by decide, by decide, by decide, by decide⟩
  have hbody : Respelled "color:red".toList " color:red; ;".toList :=
    ⟨"color:red".toList, [], [], [' '], "; ;".toList, rfl, rfl, by decide, by decide, by decide,
      by decide⟩
  refine ⟨hspelled, hplain, ((keys_of_spellings id).sameKey _ _ hspelled hplain).mpr hpadded, ?_,
    hbody, fun hash r => ?_⟩
  · exact (keys_of_spellings id).merged _ _ (.cons (.rule ".a" (.cons ⟨hrefl, hplain, hplain⟩ .nil))
      (.cons (.rule ".b" (.cons ⟨hspelled, hplain, hpadded⟩ .nil)) .nil))
  · have hkeys := keys_of_spellings hash
    exact hkeys.registered r _ _ (hkeys.read _ _ hbody) (by decide) (by decide)

/-- blanks part the semicolons behind `b`, of which one is left in the key; it goes when the key is
keyed again, and a body with the parenthesis left open gets a second class -/
theorem key_partedSemicolons :
    DeclarationKey.ofTexts "a" "b; ;" = ⟨"a", "b;"⟩ ∧
      DeclarationKey.ofTexts "a" "b;" = ⟨"a", "b"⟩ ∧
      Respelled "a:(b; ;".toList "a:(b;".toList ∧
      (Registry.addStyle id {} "a:(b; ;").1.id = 0 ∧
      ((Registry.addStyle id {} "a:(b; ;").2.addStyle id "a:(b;").1.id = 1 :=
  ⟨by decide, by decide, ⟨"a:(b".toList, [], "; ;".toList, [], [';'], rfl, rfl, by decide,
    by decide, by decide, by decide⟩, by decide, by decide⟩

end CssOptimizer
