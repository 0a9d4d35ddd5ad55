/-!
# Maps keyed by names

A map from names to values, kept as the list of its entries with keys in increasing order.

* `NameMap.get?`, `NameMap.insert`, `NameMap.erase`   look-up, writing and removal;
* `NameMap.ofList`   the entries of a list, the last one of each key;
* `NameMap.keys`, `NameMap.values`   both sides of the entries in key order.

Main statements: a look-up after a write (`get?_insert`) and after a removal (`get?_erase`), and
`get?` finds exactly the entries (`get?_eq_some_iff`).
-/

namespace CssOptimizer

/-- a finite map, its entries listed by increasing key -/
structure NameMap (α : Type) where
  entries : List (String × α)
  sorted : entries.Pairwise fun a b => a.1 < b.1

namespace NameMap

variable {α : Type}

def empty : NameMap α := ⟨[], .nil⟩

instance : EmptyCollection (NameMap α) := ⟨empty⟩
instance : Inhabited (NameMap α) := ⟨empty⟩

def isEmpty (m : NameMap α) : Bool := m.entries.isEmpty
def size (m : NameMap α) : Nat := m.entries.length
def keys (m : NameMap α) : List String := m.entries.map Prod.fst
def values (m : NameMap α) : List α := m.entries.map Prod.snd

/-- the value of the first entry with a key -/
def find? (k : String) : List (String × α) → Option α
  | [] => none
  | (k', a) :: es => if k' = k then some a else find? k es

def get? (m : NameMap α) (k : String) : Option α := find? k m.entries

/-! ## writing -/

/-- write an entry into a list with increasing keys -/
def insertList (k : String) (a : α) : List (String × α) → List (String × α)
  | [] => [(k, a)]
  | (k', b) :: es =>
    if k < k' then (k, a) :: (k', b) :: es
    else if k' < k then (k', b) :: insertList k a es
    else (k, a) :: es

theorem fst_mem_insertList {k : String} {a : α} {es : List (String × α)} {e : String × α}
    (h : e ∈ insertList k a es) : e.1 = k ∨ e ∈ es := by
  induction es with
  | nil => simp [insertList] at h; simp [h]
  | cons f es ih =>
    obtain ⟨k', b⟩ := f
    rw [insertList] at h
    split at h
    · rcases List.mem_cons.mp h with rfl | h
      · exact Or.inl rfl
      · exact Or.inr h
    · split at h
      · rcases List.mem_cons.mp h with rfl | h
        · exact Or.inr List.mem_cons_self
        · exact (ih h).imp id (List.mem_cons_of_mem _)
      · rcases List.mem_cons.mp h with rfl | h
        · exact Or.inl rfl
        · exact Or.inr (List.mem_cons_of_mem _ h)

theorem pairwise_insertList {k : String} {a : α} {es : List (String × α)}
    (h : es.Pairwise fun a b => a.1 < b.1) :
    (insertList k a es).Pairwise fun a b => a.1 < b.1 := by
  induction es with
  | nil => simp [insertList]
  | cons f es ih =>
    obtain ⟨k', b⟩ := f
    have h' := List.pairwise_cons.mp h
    rw [insertList]
    split
    · rename_i hk
      refine List.pairwise_cons.mpr ⟨fun e he => ?_, h⟩
      rcases List.mem_cons.mp he with rfl | he
      · exact hk
      · exact String.lt_trans hk (h'.1 e he)
    · split
      · rename_i hk
        refine List.pairwise_cons.mpr ⟨fun e he => ?_, ih h'.2⟩
        rcases fst_mem_insertList he with heq | he
        · show k' < e.1
          rw [heq]
          exact hk
        · exact h'.1 e he
      · rename_i h₁ h₂
        have hk : k = k' := String.le_antisymm (String.not_lt.mp h₂) (String.not_lt.mp h₁)
        subst hk
        exact List.pairwise_cons.mpr ⟨fun e he => h'.1 e he, h'.2⟩

def insert (m : NameMap α) (k : String) (a : α) : NameMap α :=
  ⟨insertList k a m.entries, pairwise_insertList m.sorted⟩

theorem find?_eq_none_of_lt {k : String} {es : List (String × α)}
    (h : ∀ e ∈ es, k < e.1) : find? k es = none := by
  induction es with
  | nil => rfl
  | cons f es ih =>
    obtain ⟨k', b⟩ := f
    have hk : k < k' := h _ List.mem_cons_self
    have : k' ≠ k := by
      intro e
      subst e
      exact String.lt_irrefl k' hk
    rw [find?, if_neg this]
    exact ih fun e he => h e (List.mem_cons_of_mem _ he)

theorem find?_insertList {k k' : String} {a : α} {es : List (String × α)}
    (h : es.Pairwise fun a b => a.1 < b.1) :
    find? k' (insertList k a es) = if k = k' then some a else find? k' es := by
  induction es with
  | nil => simp [insertList, find?]
  | cons f es ih =>
    obtain ⟨c, b⟩ := f
    have h' := List.pairwise_cons.mp h
    rw [insertList]
    split
    · simp [find?]
    · split
      · rename_i hlt
        rw [find?, find?, ih h'.2]
        by_cases hc : c = k'
        · have : k ≠ k' := by
            intro e
            subst e
            subst hc
            exact String.lt_irrefl c hlt
          simp [hc, this]
        · simp [hc]
      · rename_i h₁ h₂
        have hk : k = c := String.le_antisymm (String.not_lt.mp h₂) (String.not_lt.mp h₁)
        subst hk
        by_cases hc : k = k' <;> simp [find?, hc]

theorem get?_insert (m : NameMap α) (k k' : String) (a : α) :
    (m.insert k a).get? k' = if k = k' then some a else m.get? k' :=
  find?_insertList m.sorted

theorem get?_empty (k : String) : (∅ : NameMap α).get? k = none := rfl

/-! ## removal -/

def erase (m : NameMap α) (k : String) : NameMap α :=
  ⟨m.entries.filter (·.1 != k), m.sorted.filter _⟩

theorem find?_filter_ne (k k' : String) (es : List (String × α)) :
    find? k' (es.filter (·.1 != k)) = if k = k' then none else find? k' es := by
  induction es with
  | nil => simp [find?]
  | cons f es ih =>
    obtain ⟨c, b⟩ := f
    by_cases hc : c = k
    · subst hc
      simp only [List.filter_cons, bne_self_eq_false, Bool.false_eq_true, if_false, ih, find?]
      by_cases hk : c = k' <;> simp [hk]
    · simp only [List.filter_cons, bne_iff_ne, ne_eq, hc, not_false_eq_true, if_true, find?, ih]
      by_cases hk : c = k'
      · subst hk
        simp [Ne.symm hc]
      · simp [hk]

theorem get?_erase (m : NameMap α) (k k' : String) :
    (m.erase k).get? k' = if k = k' then none else m.get? k' :=
  find?_filter_ne k k' m.entries

/-! ## entries -/

theorem find?_eq_some_iff {k : String} {a : α} {es : List (String × α)}
    (h : es.Pairwise fun a b => a.1 < b.1) : find? k es = some a ↔ (k, a) ∈ es := by
  induction es with
  | nil => simp [find?]
  | cons f es ih =>
    obtain ⟨c, b⟩ := f
    have h' := List.pairwise_cons.mp h
    rw [find?]
    by_cases hc : c = k
    · subst hc
      simp only [if_true, Option.some.injEq, List.mem_cons, Prod.mk.injEq, true_and]
      refine ⟨fun e => Or.inl e.symm, fun e => ?_⟩
      rcases e with e | e
      · exact e.symm
      · exact absurd (h'.1 _ e) (String.lt_irrefl c)
    · rw [if_neg hc, ih h'.2, List.mem_cons]
      refine ⟨Or.inr, fun e => e.resolve_left fun he => ?_⟩
      simp only [Prod.mk.injEq] at he
      exact hc he.1.symm

theorem get?_eq_some_iff {m : NameMap α} {k : String} {a : α} :
    m.get? k = some a ↔ (k, a) ∈ m.entries := find?_eq_some_iff m.sorted

def ofList (es : List (String × α)) : NameMap α := es.foldl (fun m e => m.insert e.1 e.2) empty

end NameMap
end CssOptimizer
