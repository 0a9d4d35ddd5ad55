/-!
# Maps in order of first insertion

A map as the list of its entries in the order in which their keys came first.

* `InsertionMap.at?`      the value of a key;
* `InsertionMap.amend`    change the value of a key in place, or put a new key at the end.

Main statements: a look-up after a change (`at?_amend`) and the keys after one (`keys_amend`), none
of which comes twice (`nodup_keys_amend`).
-/

namespace CssOptimizer

/-- the entries of a map in the order in which their keys came first -/
abbrev InsertionMap (κ α : Type) := List (κ × α)

namespace InsertionMap

variable {κ α : Type} [DecidableEq κ]

def at? (m : InsertionMap κ α) (k : κ) : Option α :=
  match m with
  | [] => none
  | (k', a) :: m => if k' = k then some a else at? m k

/-- change the value of a key in place; a key that is new comes last -/
def amend (m : InsertionMap κ α) (k : κ) (f : Option α → α) : InsertionMap κ α :=
  match m with
  | [] => [(k, f none)]
  | (k', a) :: m => if k' = k then (k, f (some a)) :: m else (k', a) :: amend m k f

def keys (m : InsertionMap κ α) : List κ := m.map Prod.fst

theorem at?_amend (m : InsertionMap κ α) (k k' : κ) (f : Option α → α) :
    (m.amend k f).at? k' = if k = k' then some (f (m.at? k)) else m.at? k' := by
  induction m with
  | nil => by_cases h : k = k' <;> simp [amend, at?, h]
  | cons e m ih =>
    obtain ⟨c, a⟩ := e
    by_cases hc : c = k
    · subst hc
      by_cases h : c = k' <;> simp [amend, at?, h]
    · by_cases h : c = k'
      · subst h
        simp [amend, at?, hc, Ne.symm hc]
      · simp [amend, at?, hc, h, ih]

theorem keys_amend (m : InsertionMap κ α) (k : κ) (f : Option α → α) :
    (m.amend k f).keys = if k ∈ m.keys then m.keys else m.keys ++ [k] := by
  induction m with
  | nil => simp [amend, keys]
  | cons e m ih =>
    obtain ⟨c, a⟩ := e
    by_cases hc : c = k
    · subst hc
      simp [amend, keys]
    · simp only [keys] at ih
      simp only [amend, hc, if_false, keys, List.map_cons, ih, List.mem_cons, Ne.symm hc,
        false_or]
      by_cases hm : k ∈ List.map Prod.fst m <;> simp [hm]

theorem nodup_keys_amend {m : InsertionMap κ α} (h : m.keys.Nodup) (k : κ) (f : Option α → α) :
    (m.amend k f).keys.Nodup := by
  rw [keys_amend]
  split
  · exact h
  · rename_i hk
    refine List.nodup_append.mpr ⟨h, List.pairwise_singleton _ k, fun a ha b hb => ?_⟩
    rw [List.mem_singleton.mp hb]
    exact fun he => hk (he ▸ ha)

theorem at?_eq_none_iff {m : InsertionMap κ α} {k : κ} : m.at? k = none ↔ k ∉ m.keys := by
  induction m with
  | nil => simp [at?, keys]
  | cons e m ih =>
    obtain ⟨c, a⟩ := e
    simp only [keys] at ih
    by_cases hc : c = k
    · simp [at?, keys, hc]
    · simp only [at?, hc, if_false, ih, keys, List.map_cons, List.mem_cons, Ne.symm hc, false_or]

end InsertionMap
end CssOptimizer
