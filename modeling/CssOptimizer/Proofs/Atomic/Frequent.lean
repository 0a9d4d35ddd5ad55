import CssOptimizer.Proofs.Atomic.Cascade
import Mathlib.Data.List.Perm.Subperm

/-!
# Which declarations get a class

* `Declares nodes selector key`   some rule with the selector declares the key;
* `Shared nodes key`              three rules with different selectors declare it;
* `mem_selectors_tally`           the tally of a key holds the selectors that declare it, once each;
* `mem_frequentKeys_iff`          so the frequent keys are those that are shared.
-/

namespace CssOptimizer

def Declares (nodes : List Node) (selector : String) (key : DeclarationKey) : Prop :=
  ∃ body, Node.rule selector body ∈ nodes ∧ ∃ d ∈ body, d.key = key

def Shared (nodes : List Node) (key : DeclarationKey) : Prop :=
  ∃ s t u, (s ≠ t ∧ s ≠ u ∧ t ≠ u) ∧
    Declares nodes s key ∧ Declares nodes t key ∧ Declares nodes u key

theorem declares_append {a b : List Node} {selector : String} {key : DeclarationKey} :
    Declares (a ++ b) selector key ↔ Declares a selector key ∨ Declares b selector key := by
  simp only [Declares, List.mem_append, or_and_right, exists_or]

/-! ## the tally of a key -/

/-- the selectors that are noted for a key -/
def Tally.selectors (t : Tally) (key : DeclarationKey) : List String :=
  (InsertionMap.at? t key).getD []

section
variable {nodes : List Node} {selector : String} {key : DeclarationKey}

theorem selectors_tally (nodes : List Node) (key : DeclarationKey) :
    (tally nodes).selectors key =
      InsertionMap.itemsOf ((uses nodes).map fun u => (u.2.key, u.1)) key := by
  rw [Tally.selectors, tally_eq_group, InsertionMap.getD_at?_group]

theorem mem_selectors_tally :
    selector ∈ (tally nodes).selectors key ↔ Declares nodes selector key := by
  rw [selectors_tally, InsertionMap.mem_itemsOf, List.mem_map]
  constructor
  · rintro ⟨⟨s, d⟩, hu, he⟩
    rw [Prod.mk.injEq] at he
    obtain ⟨rfl, rfl⟩ := he
    obtain ⟨body, hm, hd⟩ := mem_uses.mp hu
    exact ⟨body, hm, d, hd, rfl⟩
  · rintro ⟨body, hm, d, hd, rfl⟩
    exact ⟨(selector, d), mem_uses.mpr ⟨body, hm, hd⟩, rfl⟩

/-- no selector is noted twice for a key -/
theorem nodup_selectors_tally (nodes : List Node) : ((tally nodes).selectors key).Nodup := by
  rw [selectors_tally]
  exact nodup_eraseDups _

end

/-! ## frequent keys -/

theorem mem_frequentKeys {t : Tally} (h : t.keys.Nodup) {key : DeclarationKey} :
    key ∈ frequentKeys t ↔ minimumSelectors ≤ (t.selectors key).length := by
  rw [frequentKeys, List.mem_map]
  constructor
  · rintro ⟨⟨k, selectors⟩, hm, rfl⟩
    obtain ⟨hm, hle⟩ := List.mem_filter.mp hm
    rw [Tally.selectors, InsertionMap.at?_of_mem h hm]
    exact of_decide_eq_true hle
  · intro hle
    rw [Tally.selectors] at hle
    cases hat : InsertionMap.at? t key with
    | none =>
      rw [hat] at hle
      exact absurd hle (by decide)
    | some selectors =>
      rw [hat] at hle
      exact ⟨(key, selectors),
        List.mem_filter.mpr ⟨InsertionMap.mem_of_at? hat, decide_eq_true hle⟩, rfl⟩

/-- a list without repeats has three different members if it is long enough -/
theorem three_le_length_iff {xs : List String} (h : xs.Nodup) :
    minimumSelectors ≤ xs.length ↔
      ∃ s t u, (s ≠ t ∧ s ≠ u ∧ t ≠ u) ∧ s ∈ xs ∧ t ∈ xs ∧ u ∈ xs := by
  constructor
  · intro hle
    match xs, h, hle with
    | s :: t :: u :: xs, h, _ =>
      obtain ⟨hs, ht⟩ := List.nodup_cons.mp h
      obtain ⟨ht, -⟩ := List.nodup_cons.mp ht
      refine ⟨s, t, u, ⟨?_, ?_, ?_⟩, by simp, by simp, by simp⟩
      · rintro rfl
        exact hs List.mem_cons_self
      · rintro rfl
        exact hs (List.mem_cons_of_mem _ List.mem_cons_self)
      · rintro rfl
        exact ht List.mem_cons_self
  · rintro ⟨s, t, u, ⟨hst, hsu, htu⟩, hs, ht, hu⟩
    have hnodup : [s, t, u].Nodup := by simp [hst, hsu, htu]
    have hsubset : [s, t, u] ⊆ xs := by simp [hs, ht, hu]
    exact (List.Nodup.subperm hnodup hsubset).length_le

theorem mem_frequentKeys_iff {nodes : List Node} {key : DeclarationKey} :
    key ∈ frequentKeys (tally nodes) ↔ Shared nodes key := by
  rw [mem_frequentKeys (nodup_keys_tally nodes), three_le_length_iff (nodup_selectors_tally nodes)]
  simp only [mem_selectors_tally, Shared]

end CssOptimizer
