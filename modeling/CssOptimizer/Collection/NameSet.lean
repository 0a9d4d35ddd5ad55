/-!
# Sets of names

A set of names is kept as the list of its members in increasing order, so two sets with the same
members are equal and every listing of a set comes out sorted by code points.

* `NameSet.insert`, `NameSet.erase`, `NameSet.union`, `NameSet.filter`   the operations;
* `NameSet.ofList`   the names of a list.

Main statements: what an operation does to membership (`mem_insert`, `mem_erase`, `mem_union`,
`mem_filter`, `mem_ofList`), and extensionality (`NameSet.ext_mem`).
-/

namespace CssOptimizer

/-- a finite set of names, its members listed in increasing order -/
structure NameSet where
  toList : List String
  sorted : toList.Pairwise (· < ·)
  deriving DecidableEq

namespace NameSet

instance : Membership String NameSet := ⟨fun s x => x ∈ s.toList⟩

theorem mem_iff {x : String} {s : NameSet} : x ∈ s ↔ x ∈ s.toList := Iff.rfl

instance (x : String) (s : NameSet) : Decidable (x ∈ s) :=
  inferInstanceAs (Decidable (x ∈ s.toList))

def contains (s : NameSet) (x : String) : Bool := decide (x ∈ s)
def isEmpty (s : NameSet) : Bool := s.toList.isEmpty
def empty : NameSet := ⟨[], .nil⟩

instance : EmptyCollection NameSet := ⟨empty⟩
instance : Inhabited NameSet := ⟨empty⟩

theorem not_mem_empty (x : String) : ¬ x ∈ (∅ : NameSet) := List.not_mem_nil

@[simp] theorem contains_iff {s : NameSet} {x : String} : s.contains x = true ↔ x ∈ s := by
  simp [contains]

/-! ## insertion -/

/-- insert a name into an increasing list -/
def insertList (x : String) : List String → List String
  | [] => [x]
  | y :: ys => if x < y then x :: y :: ys else if y < x then y :: insertList x ys else y :: ys

theorem mem_insertList {x a : String} {ys : List String} :
    a ∈ insertList x ys ↔ a = x ∨ a ∈ ys := by
  induction ys with
  | nil => simp [insertList]
  | cons y ys ih =>
    rw [insertList]
    split
    · simp
    · split
      · rw [List.mem_cons, ih, List.mem_cons]
        grind
      · rename_i h₁ h₂
        have : x = y := String.le_antisymm (String.not_lt.mp h₂) (String.not_lt.mp h₁)
        subst this
        simp

theorem pairwise_insertList {x : String} {ys : List String} (h : ys.Pairwise (· < ·)) :
    (insertList x ys).Pairwise (· < ·) := by
  induction ys with
  | nil => simp [insertList]
  | cons y ys ih =>
    rw [List.pairwise_cons] at h
    rw [insertList]
    split
    · rename_i hx
      refine List.pairwise_cons.mpr ⟨fun a ha => ?_, List.pairwise_cons.mpr h⟩
      rcases List.mem_cons.mp ha with rfl | ha
      · exact hx
      · exact String.lt_trans hx (h.1 a ha)
    · split
      · rename_i hy
        refine List.pairwise_cons.mpr ⟨fun a ha => ?_, ih h.2⟩
        rcases mem_insertList.mp ha with rfl | ha
        · exact hy
        · exact h.1 a ha
      · exact List.pairwise_cons.mpr h

def insert (s : NameSet) (x : String) : NameSet :=
  ⟨insertList x s.toList, pairwise_insertList s.sorted⟩

theorem mem_insert {s : NameSet} {x a : String} : a ∈ s.insert x ↔ a = x ∨ a ∈ s :=
  mem_insertList

/-! ## the other operations -/

def filter (p : String → Bool) (s : NameSet) : NameSet :=
  ⟨s.toList.filter p, s.sorted.filter p⟩

theorem mem_filter {p : String → Bool} {s : NameSet} {a : String} :
    a ∈ s.filter p ↔ a ∈ s ∧ p a = true := List.mem_filter

def erase (s : NameSet) (x : String) : NameSet := s.filter (· != x)

theorem mem_erase {s : NameSet} {x a : String} : a ∈ s.erase x ↔ a ≠ x ∧ a ∈ s := by
  rw [erase, mem_filter]
  simp [and_comm]

/-- a set together with all names of a list -/
def insertAll (s : NameSet) (xs : List String) : NameSet := xs.foldl insert s

theorem mem_insertAll {s : NameSet} {xs : List String} {a : String} :
    a ∈ s.insertAll xs ↔ a ∈ xs ∨ a ∈ s := by
  induction xs generalizing s with
  | nil => simp [insertAll]
  | cons x xs ih =>
    have := ih (s := s.insert x)
    rw [insertAll] at this ⊢
    rw [List.foldl_cons, this, mem_insert, List.mem_cons]
    grind

def ofList (xs : List String) : NameSet := empty.insertAll xs

theorem mem_ofList {xs : List String} {a : String} : a ∈ ofList xs ↔ a ∈ xs := by
  rw [ofList, mem_insertAll]
  exact ⟨fun h => h.resolve_right (not_mem_empty a), Or.inl⟩

def union (s t : NameSet) : NameSet := s.insertAll t.toList

instance : Union NameSet := ⟨union⟩

theorem mem_union {s t : NameSet} {a : String} : a ∈ s ∪ t ↔ a ∈ s ∨ a ∈ t := by
  show a ∈ s.insertAll t.toList ↔ _
  rw [mem_insertAll, ← mem_iff]
  exact or_comm

/-! ## extensionality -/

theorem eq_of_pairwise_of_mem {xs ys : List String} (hx : xs.Pairwise (· < ·))
    (hy : ys.Pairwise (· < ·)) (h : ∀ a, a ∈ xs ↔ a ∈ ys) : xs = ys := by
  induction xs generalizing ys with
  | nil =>
    cases ys with
    | nil => rfl
    | cons y ys => exact absurd ((h y).mpr List.mem_cons_self) List.not_mem_nil
  | cons x xs ih =>
    cases ys with
    | nil => exact absurd ((h x).mp List.mem_cons_self) List.not_mem_nil
    | cons y ys =>
      rw [List.pairwise_cons] at hx hy
      have hxy : x = y := by
        rcases List.mem_cons.mp ((h x).mp List.mem_cons_self) with e | hxm
        · exact e
        · rcases List.mem_cons.mp ((h y).mpr List.mem_cons_self) with e | hym
          · exact e.symm
          · exact absurd (String.lt_trans (hx.1 y hym) (hy.1 x hxm)) (String.lt_irrefl x)
      subst hxy
      congr 1
      refine ih hx.2 hy.2 fun a => ⟨fun ha => ?_, fun ha => ?_⟩
      · rcases List.mem_cons.mp ((h a).mp (List.mem_cons_of_mem _ ha)) with rfl | hm
        · exact absurd (hx.1 a ha) (String.lt_irrefl a)
        · exact hm
      · rcases List.mem_cons.mp ((h a).mpr (List.mem_cons_of_mem _ ha)) with rfl | hm
        · exact absurd (hy.1 a ha) (String.lt_irrefl a)
        · exact hm

theorem ext_mem {s t : NameSet} (h : ∀ a, a ∈ s ↔ a ∈ t) : s = t := by
  cases s with
  | mk xs hx =>
    cases t with
    | mk ys hy =>
      have : xs = ys := eq_of_pairwise_of_mem hx hy h
      subst this
      rfl

end NameSet
end CssOptimizer
