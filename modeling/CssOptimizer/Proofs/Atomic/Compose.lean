import CssOptimizer.Proofs.Atomic.Uses

/-!
# The classes of a selector

* `InsertionMap.mem_of_at?`     a look-up finds an entry of the map;
* `Composition.classes`         the classes noted for a selector;
* `mem_classes_compose`         they are the classes of the keys that the rules with this selector
                                declare.
-/

namespace CssOptimizer

theorem InsertionMap.mem_of_at? {κ α : Type} [DecidableEq κ] {m : InsertionMap κ α} {k : κ} {a : α}
    (h : m.at? k = some a) : (k, a) ∈ m := by
  induction m with
  | nil => simp [InsertionMap.at?] at h
  | cons e m ih =>
    obtain ⟨k', a'⟩ := e
    rw [InsertionMap.at?] at h
    split at h
    · rename_i hk
      rw [Option.some.injEq] at h
      rw [hk, h]
      exact List.mem_cons_self
    · exact List.mem_cons_of_mem _ (ih h)

def Composition.classes (composed : Composition) (selector : String) : List String :=
  (InsertionMap.at? composed selector).getD []

theorem Composition.at?_of_mem_classes {composed : Composition} {selector name : String}
    (h : name ∈ composed.classes selector) :
    ∃ names, InsertionMap.at? composed selector = some names ∧ name ∈ names := by
  unfold Composition.classes at h
  cases hs : InsertionMap.at? composed selector with
  | none =>
    rw [hs] at h
    exact absurd h List.not_mem_nil
  | some names =>
    rw [hs] at h
    exact ⟨names, rfl, h⟩

theorem mem_composedUses {named : InsertionMap DeclarationKey String} {nodes : List Node}
    {selector name : String} :
    (selector, name) ∈ composedUses named nodes ↔
      ∃ body, Node.rule selector body ∈ nodes ∧ ∃ d ∈ body, named.at? d.key = some name := by
  rw [composedUses, List.mem_filterMap]
  constructor
  · rintro ⟨⟨s, d⟩, hu, hname⟩
    obtain ⟨n, hn, he⟩ := Option.map_eq_some_iff.mp hname
    rw [Prod.mk.injEq] at he
    obtain ⟨rfl, rfl⟩ := he
    obtain ⟨body, hm, hd⟩ := mem_uses.mp hu
    exact ⟨body, hm, d, hd, hn⟩
  · rintro ⟨body, hm, d, hd, hn⟩
    exact ⟨(selector, d), mem_uses.mpr ⟨body, hm, hd⟩, Option.map_eq_some_iff.mpr ⟨name, hn, rfl⟩⟩

theorem mem_classes_compose (named : InsertionMap DeclarationKey String) (nodes : List Node)
    {selector name : String} :
    name ∈ (compose named nodes).classes selector ↔
      ∃ body, Node.rule selector body ∈ nodes ∧ ∃ d ∈ body, named.at? d.key = some name := by
  rw [Composition.classes, compose_eq_group, InsertionMap.getD_at?_group, InsertionMap.mem_itemsOf,
    mem_composedUses]

end CssOptimizer
