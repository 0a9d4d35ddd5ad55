import Mathlib.Data.List.Forall2
import CssOptimizer.Proofs.Routes.Narrow

/-!
# The pages of a route map

The page of a route is the shared chunk with the chunk of the route.  It holds every rule that
the route asks for, and each chunk holds nothing but the rules that its own names call for.

* `mem_sharedNames_iff`, `mem_ownNames_iff`   the names of a chunk, by how many routes list them;
* `Paged`                                     what the chunks of a route map have to be like;
* `exists_paged`                              splitting a stylesheet gives such chunks.
-/

namespace CssOptimizer.RouteChunk

/-! ## names -/

theorem mem_listed {name : String} {names : List String} :
    name ∈ listed names ↔ ∃ n ∈ names, normalName n = name := by
  rw [listed, NameSet.mem_ofList, List.mem_map]

/-- how many routes list a name -/
def routeCount (routes : RouteMap) (name : String) : Nat :=
  routes.entries.countP fun route => (listed route.2).contains name

theorem routeCount_pos_iff {routes : RouteMap} {name : String} :
    0 < routeCount routes name ↔ ∃ route ∈ routes.entries, name ∈ listed route.2 := by
  rw [routeCount, List.countP_pos_iff]
  refine exists_congr fun route => and_congr_right fun _ => ?_
  exact NameSet.contains_iff

theorem mem_sharedNames_iff {routes : RouteMap} {name : String} :
    name ∈ sharedNames routes ↔ 1 < routeCount routes name := by
  have hcount : (routes.values.map listed).countP (·.contains name) = routeCount routes name := by
    rw [NameMap.values, List.map_map, List.countP_map]
    rfl
  rw [sharedNames, NameSet.mem_filter, decide_eq_true_iff, hcount]
  refine and_iff_right_of_imp fun h => ?_
  obtain ⟨route, hroute, hname⟩ := routeCount_pos_iff.mp (Nat.lt_of_succ_lt h)
  rw [NameSet.mem_ofList, List.mem_flatMap]
  refine ⟨listed route.2, ?_, hname⟩
  exact List.mem_map_of_mem (List.mem_map_of_mem hroute)

/-- the names of a route that no other one lists -/
def ownNames (routes : RouteMap) (names : List String) : NameSet :=
  (listed names).filter (!(sharedNames routes).contains ·)

theorem mem_ownNames_iff {routes : RouteMap} {names : List String} {name : String} :
    name ∈ ownNames routes names ↔ name ∈ listed names ∧ name ∉ sharedNames routes := by
  rw [ownNames, NameSet.mem_filter, Bool.not_eq_true', ← Bool.not_eq_true,
    NameSet.contains_iff]

theorem not_mem_ownNames_of_sublist {routes : RouteMap} {a b : String × List String}
    (h : [a, b].Sublist routes.entries) {name : String} (ha : name ∈ ownNames routes a.2) :
    name ∉ ownNames routes b.2 := by
  intro hb
  rw [mem_ownNames_iff] at ha hb
  apply ha.2
  rw [mem_sharedNames_iff]
  let lists := fun route : String × List String => (listed route.2).contains name
  have hle : [a, b].countP lists ≤ routeCount routes name := h.countP_le
  have htwo : [a, b].countP lists = 2 := by
    have hab : lists a = true ∧ lists b = true :=
      ⟨NameSet.contains_iff.mpr ha.1, NameSet.contains_iff.mpr hb.1⟩
    rw [List.countP_cons_of_pos hab.1, List.countP_cons_of_pos hab.2, List.countP_nil]
  omega

/-- a name that some route lists is shared or the own name of that route -/
theorem mem_sharedNames_or_ownNames_iff {routes : RouteMap} {name : String} :
    (name ∈ sharedNames routes ∨ ∃ route ∈ routes.entries, name ∈ ownNames routes route.2) ↔
      ∃ route ∈ routes.entries, name ∈ listed route.2 := by
  constructor
  · rintro (h | ⟨route, hroute, h⟩)
    · exact routeCount_pos_iff.mp (Nat.lt_of_succ_lt (mem_sharedNames_iff.mp h))
    · exact ⟨route, hroute, (mem_ownNames_iff.mp h).1⟩
  · rintro ⟨route, hroute, h⟩
    by_cases hshared : name ∈ sharedNames routes
    · exact Or.inl hshared
    · exact Or.inr ⟨route, hroute, mem_ownNames_iff.mpr ⟨h, hshared⟩⟩

theorem matchesNames_iff {names : NameSet} {selector : String} :
    matchesNames names selector = true ↔
      ∃ token ∈ Selector.classes selector ++ Selector.ids selector, token ∈ names := by
  rw [matchesNames, List.any_eq_true]
  refine exists_congr fun token => and_congr_right fun _ => ?_
  exact NameSet.contains_iff

/-! ## rules -/

section
variable {nodes : List Node}

theorem filter_shared (names : NameSet) :
    (entries (shared names nodes).nodes).filter Entry.isRule =
      (entries nodes).filter (Entry.isRuleWhere fun around selector =>
        inResource around || (Selector.isBase selector || matchesNames names selector)) := by
  rw [shared, filter_isRule_narrow, stays_true]

theorem filter_ofRoute (names : NameSet) (route : String) (list : List String) :
    (entries (ofRoute names nodes route list).nodes).filter Entry.isRule =
      (entries nodes).filter (Entry.isRuleWhere fun around selector =>
        !inResource around && (!Selector.isBase selector &&
          matchesNames (ofRoute names nodes route list).names selector)) := by
  rw [ofRoute, filter_isRule_narrow, stays_false]

/-- whether a selector names what a route lists -/
def AsksFor (names : List String) (selector : String) : Prop :=
  ∃ token ∈ Selector.classes selector ++ Selector.ids selector,
    ∃ name ∈ names, normalName name = token

variable {around : List AtHeader} {selector : String} {body : List Declaration}

theorem mem_shared {names : NameSet} (he : ⟨around, .rule selector body⟩ ∈ entries nodes)
    (h : inResource around = true ∨ Selector.isBase selector = true ∨
      matchesNames names selector = true) :
    ⟨around, .rule selector body⟩ ∈ entries (shared names nodes).nodes := by
  have hwhere : (inResource around || (Selector.isBase selector ||
      matchesNames names selector)) = true := by
    rw [Bool.or_eq_true, Bool.or_eq_true]
    exact h
  exact mem_of_filter_isRule (filter_shared names) he hwhere

theorem mem_ofRoute {names : NameSet} {route : String} {list : List String}
    (he : ⟨around, .rule selector body⟩ ∈ entries nodes) (hr : inResource around = false)
    (hb : Selector.isBase selector = false)
    (h : matchesNames (ofRoute names nodes route list).names selector = true) :
    ⟨around, .rule selector body⟩ ∈ entries (ofRoute names nodes route list).nodes := by
  have hwhere : (!inResource around && (!Selector.isBase selector &&
      matchesNames (ofRoute names nodes route list).names selector)) = true := by
    rw [hr, hb, h]
    rfl
  exact mem_of_filter_isRule (filter_ofRoute names route list) he hwhere

/-- what a route asks for is in one of the two chunks of its page -/
theorem mem_page {routes : RouteMap} {route : String} {names : List String}
    (he : ⟨around, .rule selector body⟩ ∈ entries nodes) (h : AsksFor names selector) :
    ⟨around, .rule selector body⟩ ∈ entries (shared (sharedNames routes) nodes).nodes ∨
      ⟨around, .rule selector body⟩ ∈
        entries (ofRoute (sharedNames routes) nodes route names).nodes := by
  obtain ⟨token, htoken, hlisted⟩ := h
  rw [← mem_listed] at hlisted
  by_cases hshared : token ∈ sharedNames routes
  · refine Or.inl (mem_shared he (Or.inr (Or.inr ?_)))
    exact matchesNames_iff.mpr ⟨token, htoken, hshared⟩
  have hown : token ∈ ownNames routes names := mem_ownNames_iff.mpr ⟨hlisted, hshared⟩
  cases hr : inResource around with
  | true => exact Or.inl (mem_shared he (Or.inl hr))
  | false =>
    cases hb : Selector.isBase selector with
    | true => exact Or.inl (mem_shared he (Or.inr (Or.inl hb)))
    | false =>
      refine Or.inr (mem_ofRoute he hr hb ?_)
      exact matchesNames_iff.mpr ⟨token, htoken, hown⟩

end

/-! ## chunks -/

structure Paged (routes : RouteMap) (nodes : List Node) (shared : RouteChunk)
    (own : List RouteChunk) : Prop where
  complete : List.Forall₂ (fun route chunk => chunk.name = slug route.1 ∧
    ∀ around selector body, ⟨around, .rule selector body⟩ ∈ entries nodes →
      AsksFor route.2 selector →
      ⟨around, .rule selector body⟩ ∈ entries shared.nodes ∨
        ⟨around, .rule selector body⟩ ∈ entries chunk.nodes) routes.entries own
  base : ∀ around selector body, ⟨around, .rule selector body⟩ ∈ entries nodes →
    Selector.isBase selector = true → ⟨around, .rule selector body⟩ ∈ entries shared.nodes
  ownRules : ∀ chunk ∈ own, (entries chunk.nodes).filter Entry.isRule =
    (entries nodes).filter (Entry.isRuleWhere fun around selector =>
      !inResource around && (!Selector.isBase selector && matchesNames chunk.names selector))
  sharedRules : (entries shared.nodes).filter Entry.isRule =
    (entries nodes).filter (Entry.isRuleWhere fun around selector =>
      inResource around || (Selector.isBase selector || matchesNames shared.names selector))
  disjoint : (shared :: own).Pairwise fun a b => ∀ name ∈ a.names, name ∉ b.names
  union : ∀ name, (∃ chunk ∈ shared :: own, name ∈ chunk.names) ↔
    ∃ route ∈ routes.entries, ∃ listed ∈ route.2, normalName listed = name
  inOrder : ∀ chunk ∈ shared :: own, (entries chunk.nodes).Sublist (entries nodes)

theorem exists_paged (routes : RouteMap) (nodes : List Node) :
    ∃ shared own, splitNodes routes nodes = shared :: own ∧ Paged routes nodes shared own := by
  refine ⟨_, _, rfl, ?_⟩
  constructor
  case complete =>
    rw [List.forall₂_map_right_iff, List.forall₂_same]
    rintro ⟨route, names⟩ hroute
    refine ⟨rfl, fun around selector body he hasks => ?_⟩
    exact mem_page he hasks
  case base =>
    intro around selector body he hbase
    exact mem_shared he (Or.inr (Or.inl hbase))
  case ownRules =>
    intro chunk hchunk
    obtain ⟨⟨route, names⟩, -, rfl⟩ := List.mem_map.mp hchunk
    exact filter_ofRoute _ route names
  case sharedRules => exact filter_shared _
  case disjoint =>
    rw [List.pairwise_cons, List.pairwise_map]
    constructor
    · intro chunk hchunk name hshared hown
      obtain ⟨⟨route, names⟩, -, rfl⟩ := List.mem_map.mp hchunk
      exact (mem_ownNames_iff.mp hown).2 hshared
    · refine List.pairwise_iff_forall_sublist.mpr fun hab name ha => ?_
      exact not_mem_ownNames_of_sublist hab ha
  case union =>
    intro name
    simp only [← mem_listed]
    rw [List.exists_mem_cons_iff, ← mem_sharedNames_or_ownNames_iff]
    refine or_congr_right ?_
    simp only [List.mem_map, exists_exists_and_eq_and]
    rfl
  case inOrder =>
    intro chunk hchunk
    rcases List.mem_cons.mp hchunk with rfl | hchunk
    · exact entries_narrow_sublist _ _ nodes
    · obtain ⟨⟨route, names⟩, -, rfl⟩ := List.mem_map.mp hchunk
      exact entries_narrow_sublist _ _ nodes

end CssOptimizer.RouteChunk
