import CssOptimizer.Atomic.Factor
import Mathlib.Data.List.Induction

/-!
# Uses of declarations

The rules at the top are told by their uses: each declaration with the selector it stands under, in
document order.  The tally and the composition of a stylesheet both group uses under keys, where
keys and items stand in order of first appearance.

* `InsertionMap.group`                      pairs grouped by their first parts;
* `InsertionMap.group_eq`, `at?_group`      what such a map holds, entry by entry;
* `uses`, `mem_uses`                        the uses of declarations;
* `tally_eq_group`, `compose_eq_group`      both folds over a stylesheet are groupings of its uses.
-/

namespace CssOptimizer

/-! ## lists without repeats -/

section
variable {α : Type} [DecidableEq α]

theorem nodup_addOnce {xs : List α} (h : xs.Nodup) (x : α) : (addOnce xs x).Nodup := by
  unfold addOnce
  split
  · exact h
  · rename_i hx
    refine List.nodup_append.mpr ⟨h, List.pairwise_singleton _ x, fun a ha b hb => ?_⟩
    rw [List.mem_singleton.mp hb]
    exact fun he => hx (he ▸ ha)

theorem eraseDups_concat (xs : List α) (x : α) :
    (xs ++ [x]).eraseDups = addOnce xs.eraseDups x := by
  rw [List.eraseDups_append, addOnce]
  by_cases hx : x ∈ xs
  · have hnil : [x].removeAll xs = [] := by
      rw [List.removeAll, List.filter_cons_of_neg (by simp [hx]), List.filter_nil]
    rw [hnil, List.eraseDups_nil, List.append_nil, if_pos (List.mem_eraseDups.mpr hx)]
  · have hself : [x].removeAll xs = [x] := by
      rw [List.removeAll, List.filter_cons_of_pos (by simp [hx]), List.filter_nil]
    rw [hself, if_neg (mt List.mem_eraseDups.mp hx)]
    rfl

theorem nodup_eraseDups (xs : List α) : xs.eraseDups.Nodup := by
  induction xs using List.reverseRecOn with
  | nil => exact List.nodup_nil
  | append_singleton xs x ih =>
    rw [eraseDups_concat]
    exact nodup_addOnce ih x

theorem eraseDups_of_nodup {xs : List α} (h : xs.Nodup) : xs.eraseDups = xs := by
  induction xs using List.reverseRecOn with
  | nil => rfl
  | append_singleton xs x ih =>
    obtain ⟨hxs, -, hne⟩ := List.nodup_append.mp h
    have hx : x ∉ xs := fun hm => hne x hm x (List.mem_singleton_self x) rfl
    rw [eraseDups_concat, ih hxs, addOnce, if_neg hx]

theorem filter_eraseDups (p : α → Bool) (xs : List α) :
    (xs.filter p).eraseDups = xs.eraseDups.filter p := by
  induction xs using List.reverseRecOn with
  | nil => rfl
  | append_singleton xs x ih =>
    rw [List.filter_append, eraseDups_concat]
    by_cases hp : p x = true
    · have hone : [x].filter p = [x] := List.filter_cons_of_pos hp
      rw [hone, eraseDups_concat, ih, addOnce, addOnce]
      by_cases hx : x ∈ xs.eraseDups
      · rw [if_pos hx, if_pos (List.mem_filter.mpr ⟨hx, hp⟩)]
      · rw [if_neg hx, if_neg (mt (fun h => (List.mem_filter.mp h).1) hx), List.filter_append, hone]
    · have hnone : [x].filter p = [] := List.filter_cons_of_neg hp
      rw [hnone, List.append_nil, ih, addOnce]
      split
      · rfl
      · rw [List.filter_append, hnone, List.append_nil]

theorem eraseDups_eq_singleton {xs : List α} {x : α} (h : ∀ y ∈ xs, y = x) (hne : xs ≠ []) :
    xs.eraseDups = [x] := by
  cases xs with
  | nil => exact absurd rfl hne
  | cons y xs =>
    have hrest : xs.filter (fun z => !z == y) = [] := by
      refine List.filter_eq_nil_iff.mpr fun z hz => ?_
      rw [h z (List.mem_cons_of_mem _ hz), h y List.mem_cons_self]
      simp
    rw [List.eraseDups_cons, hrest, h y List.mem_cons_self, List.eraseDups_nil]

/-- repeats inside the parts of a list do not matter -/
theorem eraseDups_flatMap_congr {β : Type} {f g : β → List α}
    (h : ∀ x, (f x).eraseDups = (g x).eraseDups) (xs : List β) :
    (xs.flatMap f).eraseDups = (xs.flatMap g).eraseDups := by
  induction xs using List.reverseRecOn with
  | nil => rfl
  | append_singleton xs x ih =>
    have hmem (y : α) : y ∈ xs.flatMap f ↔ y ∈ xs.flatMap g := by
      rw [← List.mem_eraseDups, ih, List.mem_eraseDups]
    rw [List.flatMap_append, List.flatMap_append, List.flatMap_singleton, List.flatMap_singleton,
      List.eraseDups_append, List.eraseDups_append, ih, List.removeAll, List.removeAll,
      filter_eraseDups, filter_eraseDups, h x]
    refine congrArg _ (List.filter_congr fun y _ => congrArg _ ?_)
    rw [Bool.eq_iff_iff, List.elem_iff, List.elem_iff]
    exact hmem y

end

/-! ## grouping -/

namespace InsertionMap

variable {κ α : Type} [DecidableEq κ] [DecidableEq α]

/-- put an item under its key, unless it is there -/
def gather (m : InsertionMap κ (List α)) (e : κ × α) : InsertionMap κ (List α) :=
  m.amend e.1 fun items => addOnce (items.getD []) e.2

def group (es : List (κ × α)) : InsertionMap κ (List α) := es.foldl gather []

/-- the different items with a key -/
def itemsOf (es : List (κ × α)) (k : κ) : List α :=
  ((es.filter (·.1 = k)).map Prod.snd).eraseDups

theorem group_concat (es : List (κ × α)) (e : κ × α) : group (es ++ [e]) = gather (group es) e :=
  List.foldl_append

theorem keys_group (es : List (κ × α)) : (group es).keys = (es.map Prod.fst).eraseDups := by
  induction es using List.reverseRecOn with
  | nil => rfl
  | append_singleton es e ih =>
    rw [group_concat, gather, keys_amend, List.map_append, List.map_singleton, eraseDups_concat, ih]
    rfl

theorem nodup_keys_group (es : List (κ × α)) : (group es).keys.Nodup := by
  rw [keys_group]
  exact nodup_eraseDups _

theorem mem_itemsOf {es : List (κ × α)} {k : κ} {a : α} : a ∈ itemsOf es k ↔ (k, a) ∈ es := by
  rw [itemsOf, List.mem_eraseDups, List.mem_map]
  constructor
  · rintro ⟨⟨k', a'⟩, hm, rfl⟩
    obtain ⟨hm, hk⟩ := List.mem_filter.mp hm
    rw [← of_decide_eq_true hk]
    exact hm
  · intro hm
    exact ⟨(k, a), List.mem_filter.mpr ⟨hm, decide_eq_true rfl⟩, rfl⟩

theorem itemsOf_concat (es : List (κ × α)) (e : κ × α) (k : κ) :
    itemsOf (es ++ [e]) k = if e.1 = k then addOnce (itemsOf es k) e.2 else itemsOf es k := by
  rw [itemsOf, List.filter_append]
  by_cases he : e.1 = k
  · have hone : [e].filter (·.1 = k) = [e] := List.filter_cons_of_pos (decide_eq_true he)
    rw [if_pos he, hone, List.map_append, List.map_singleton, eraseDups_concat]
    rfl
  · have hnone : [e].filter (·.1 = k) = [] := List.filter_cons_of_neg (by simpa using he)
    rw [if_neg he, hnone, List.append_nil]
    rfl

theorem itemsOf_of_not_mem {es : List (κ × α)} {k : κ} (h : k ∉ es.map Prod.fst) :
    itemsOf es k = [] := by
  have hnil : es.filter (·.1 = k) = [] := by
    refine List.filter_eq_nil_iff.mpr fun e he hk => h ?_
    exact List.mem_map.mpr ⟨e, he, of_decide_eq_true hk⟩
  rw [itemsOf, hnil]
  rfl

theorem at?_group (es : List (κ × α)) (k : κ) :
    (group es).at? k = if k ∈ es.map Prod.fst then some (itemsOf es k) else none := by
  induction es using List.reverseRecOn with
  | nil => rfl
  | append_singleton es e ih =>
    rw [group_concat, gather, at?_amend, List.map_append, List.map_singleton, itemsOf_concat]
    by_cases he : e.1 = k
    · subst he
      have hitems : ((group es).at? e.1).getD [] = itemsOf es e.1 := by
        rw [ih]
        split
        · rfl
        · rename_i hk
          exact (itemsOf_of_not_mem hk).symm
      rw [if_pos rfl, if_pos rfl, hitems,
        if_pos (List.mem_append_right _ (List.mem_singleton_self _))]
    · have hmem : k ∈ es.map Prod.fst ++ [e.1] ↔ k ∈ es.map Prod.fst := by
        rw [List.mem_append, List.mem_singleton, or_iff_left (Ne.symm he)]
      rw [if_neg he, if_neg he, ih]
      exact if_congr hmem.symm rfl rfl

theorem getD_at?_group (es : List (κ × α)) (k : κ) :
    ((group es).at? k).getD [] = itemsOf es k := by
  rw [at?_group]
  split
  · rfl
  · rename_i hk
    exact (itemsOf_of_not_mem hk).symm

/-- a map is told by its keys and what is found under them -/
theorem eq_map_keys {β : Type} {m : InsertionMap κ β} (h : m.keys.Nodup) (other : β) :
    m = m.keys.map fun k => (k, (m.at? k).getD other) := by
  induction m with
  | nil => rfl
  | cons e m ih =>
    obtain ⟨k, b⟩ := e
    obtain ⟨hk, hnd⟩ := List.nodup_cons.mp h
    have hrest : (keys m).map (fun k' => (k', (at? ((k, b) :: m) k').getD other)) =
        (keys m).map fun k' => (k', (at? m k').getD other) := by
      refine List.map_congr_left fun k' hk' => ?_
      rw [at?, if_neg fun he : k = k' => hk (he ▸ hk')]
    show (k, b) :: m = (k, (at? ((k, b) :: m) k).getD other) :: (keys m).map _
    rw [hrest, ← ih hnd, at?, if_pos rfl]
    rfl

theorem group_eq (es : List (κ × α)) :
    group es = (es.map Prod.fst).eraseDups.map fun k => (k, itemsOf es k) := by
  rw [eq_map_keys (nodup_keys_group es) [], keys_group]
  exact List.map_congr_left fun k _ => by rw [getD_at?_group]

end InsertionMap

/-! ## uses -/

def Node.uses : Node → List (String × Declaration)
  | .rule selector body => body.map fun d => (selector, d)
  | _ => []

def uses (nodes : List Node) : List (String × Declaration) := nodes.flatMap Node.uses

theorem mem_uses {nodes : List Node} {s : String} {d : Declaration} :
    (s, d) ∈ uses nodes ↔ ∃ body, Node.rule s body ∈ nodes ∧ d ∈ body := by
  rw [uses, List.mem_flatMap]
  constructor
  · rintro ⟨node, hm, hu⟩
    cases node with
    | declaration e => exact absurd hu List.not_mem_nil
    | atRule n p c => exact absurd hu List.not_mem_nil
    | rule t body =>
      obtain ⟨e, he, heq⟩ := List.mem_map.mp hu
      rw [Prod.mk.injEq] at heq
      obtain ⟨rfl, rfl⟩ := heq
      exact ⟨body, hm, he⟩
  · rintro ⟨body, hm, hd⟩
    exact ⟨.rule s body, hm, List.mem_map.mpr ⟨d, hd, rfl⟩⟩

theorem tally_eq_group (nodes : List Node) :
    tally nodes = InsertionMap.group ((uses nodes).map fun u => (u.2.key, u.1)) := by
  rw [InsertionMap.group, List.foldl_map, uses, List.foldl_flatMap]
  refine congrArg (fun f => nodes.foldl f []) (funext fun t => funext fun node => ?_)
  cases node with
  | declaration d => rfl
  | atRule n p c => rfl
  | rule s body =>
    rw [Node.uses, List.foldl_map]
    rfl

/-- the classes under their selectors, use by use -/
def composedUses (named : InsertionMap DeclarationKey String) (nodes : List Node) :
    List (String × String) :=
  (uses nodes).filterMap fun u => (named.at? u.2.key).map fun name => (u.1, name)

theorem compose_eq_group (named : InsertionMap DeclarationKey String) (nodes : List Node) :
    compose named nodes = InsertionMap.group (composedUses named nodes) := by
  rw [InsertionMap.group, composedUses, List.foldl_filterMap, uses, List.foldl_flatMap]
  refine congrArg (fun f => nodes.foldl f []) (funext fun composed => funext fun node => ?_)
  cases node with
  | declaration d => rfl
  | atRule n p c => rfl
  | rule s body =>
    rw [Node.uses, List.foldl_map]
    refine congrArg (fun f => body.foldl f composed) (funext fun composed => funext fun d => ?_)
    rw [composeDeclaration]
    cases named.at? d.key with
    | none => rfl
    | some name => rfl

end CssOptimizer
