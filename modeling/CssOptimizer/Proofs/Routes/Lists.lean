import CssOptimizer.Proofs.Optimize
import CssOptimizer.Proofs.Routes.Pages
import CssOptimizer.Proofs.Selector.Lists

/-!
# Selector lists on a page

A rule goes to a page for all of its selector list.  So a component that names nothing is on the
page if it stands alone, but not always if it stands in a list.

* `page`, `isOnPage`         the page of a route and the selectors whose rules are on it;
* `Selects`                  what a page declares for a component;
* `isOnPage_eq`              when a list is on the page, by its components;
* `selects_apart_imp_iff`    what a list takes from the page of its components;
* `stays_merged_iff`         when merging rules takes none from the page;
* `listsOnPage`              these laws together.
-/

namespace CssOptimizer.RouteChunk
open Selector

/-! ## names -/

theorem matchesNames_eq_any (names : NameSet) (selector : String) :
    matchesNames names selector = (components selector).any (matchesNames names) := by
  rw [Bool.eq_iff_iff, List.any_eq_true]
  simp only [matchesNames_iff, List.mem_append]
  constructor
  · rintro ⟨token, htoken, hnames⟩
    rw [mem_classes_iff, mem_ids_iff, ← exists_or] at htoken
    obtain ⟨c, htoken⟩ := htoken
    rw [← and_or_left] at htoken
    exact ⟨c, htoken.1, token, htoken.2, hnames⟩
  · rintro ⟨c, hc, token, htoken, hnames⟩
    refine ⟨token, ?_, hnames⟩
    rw [mem_classes_iff, mem_ids_iff]
    exact htoken.imp (fun h => ⟨c, hc, h⟩) fun h => ⟨c, hc, h⟩

theorem matchesNames_joinSelectors {names : NameSet} {selectors : List String} {s : String}
    (hs : s ∈ selectors) (h : matchesNames names s = true) :
    matchesNames names (joinSelectors selectors) = true := by
  obtain ⟨token, htoken, hnames⟩ := matchesNames_iff.mp h
  refine matchesNames_iff.mpr ⟨token, ?_, hnames⟩
  rw [List.mem_append] at htoken ⊢
  rw [mem_classes_joinSelectors, mem_ids_joinSelectors]
  exact htoken.imp (fun h => ⟨s, hs, h⟩) fun h => ⟨s, hs, h⟩

/-! ## pages -/

/-- the nodes of the page of a route: those of the shared chunk and of its own -/
def page (routes : RouteMap) (route : String) (names : List String) (nodes : List Node) :
    List Node :=
  (shared (sharedNames routes) nodes).nodes ++
    (ofRoute (sharedNames routes) nodes route names).nodes

/-- whether a selector names something of the page -/
def namesPage (routes : RouteMap) (names : List String) (selector : String) : Bool :=
  matchesNames (sharedNames routes) selector || matchesNames (ownNames routes names) selector

def isOnPage (routes : RouteMap) (names : List String) (selector : String) : Bool :=
  isBase selector || namesPage routes names selector

/-- the pairs of a component and a declaration that nodes give, each under its headers -/
def Selects (nodes : List Node) (around : List AtHeader) (component : String)
    (d : Declaration) : Prop :=
  ∃ selector body, ⟨around, .rule selector body⟩ ∈ entries nodes ∧
    component ∈ components selector ∧ d ∈ body

/-- a rule cut into one rule for each component of its selector -/
def apart (selector : String) (body : List Declaration) : List Node :=
  (components selector).map (Node.rule · body)

section
variable {routes : RouteMap} {route : String} {names : List String} {nodes : List Node}

theorem mem_page_iff {around : List AtHeader} {selector : String} {body : List Declaration} :
    ⟨around, .rule selector body⟩ ∈ entries (page routes route names nodes) ↔
      ⟨around, .rule selector body⟩ ∈ entries nodes ∧
        (inResource around = true ∨ isOnPage routes names selector = true) := by
  have hmem {kept : List Node} {p : List AtHeader → String → Bool}
      (hkept : (entries kept).filter Entry.isRule =
        (entries nodes).filter (Entry.isRuleWhere p)) :
      ⟨around, .rule selector body⟩ ∈ entries kept ↔
        ⟨around, .rule selector body⟩ ∈ entries nodes ∧ p around selector = true := by
    have hfilter := congrArg (⟨around, .rule selector body⟩ ∈ ·) hkept
    simpa only [List.mem_filter, Entry.isRule, Entry.isRuleWhere, and_true, eq_iff_iff]
      using hfilter
  rw [page, entries_append, List.mem_append, hmem (filter_shared _),
    hmem (filter_ofRoute _ route names), ← and_or_left, isOnPage, namesPage]
  have hown : (ofRoute (sharedNames routes) nodes route names).names = ownNames routes names := rfl
  refine and_congr_right fun _ => ?_
  rw [hown]
  cases inResource around <;> cases isBase selector <;> simp

theorem isOnPage_eq (routes : RouteMap) (names : List String) (selector : String) :
    isOnPage routes names selector =
      ((components selector).any (fun c => isGlobal c || namesPage routes names c) ||
        (components selector).all (!isNamed ·)) := by
  rw [isOnPage, isBase, namesPage, matchesNames_eq_any, matchesNames_eq_any (ownNames _ _),
    Bool.eq_iff_iff]
  simp only [namesPage, Bool.or_eq_true, List.any_eq_true, and_or_left, exists_or]
  exact or_right_comm

/-! ## lists taken apart -/

theorem selects_page_iff {around : List AtHeader} {c : String} {d : Declaration} :
    Selects (page routes route names nodes) around c d ↔
      ∃ selector body, ⟨around, .rule selector body⟩ ∈ entries nodes ∧
        (inResource around = true ∨ isOnPage routes names selector = true) ∧
        c ∈ components selector ∧ d ∈ body := by
  simp only [Selects, mem_page_iff, and_assoc]

theorem selects_page_append {a b : List Node} {around : List AtHeader} {c : String}
    {d : Declaration} :
    Selects (page routes route names (a ++ b)) around c d ↔
      Selects (page routes route names a) around c d ∨
        Selects (page routes route names b) around c d := by
  simp only [selects_page_iff, entries_append, List.mem_append, or_and_right, exists_or]

theorem mem_entries_rules {rules : List String} {body b : List Declaration}
    {around : List AtHeader} {s : String} :
    ⟨around, .rule s b⟩ ∈ entries (rules.map (Node.rule · body)) ↔
      around = [] ∧ s ∈ rules ∧ b = body := by
  have hentries : entries (rules.map (Node.rule · body)) =
      rules.map fun s => ⟨[], .rule s body⟩ := by
    induction rules with
    | nil => rfl
    | cons r rules ih =>
      rw [List.map_cons, entries_cons, ih]
      rfl
  rw [hentries, List.mem_map]
  constructor
  · rintro ⟨r, hr, he⟩
    obtain ⟨rfl, hnode⟩ := Entry.mk.inj he
    obtain ⟨rfl, rfl⟩ := Node.rule.inj hnode
    exact ⟨rfl, hr, rfl⟩
  · rintro ⟨rfl, hs, rfl⟩
    exact ⟨s, hs, rfl⟩

section
variable {selector : String} {body : List Declaration} {around : List AtHeader} {c : String}
  {d : Declaration}

/-- a list is on the page with all of its components or with none -/
theorem selects_list_iff :
    Selects (page routes route names [.rule selector body]) around c d ↔
      around = [] ∧ c ∈ components selector ∧ d ∈ body ∧
        isOnPage routes names selector = true := by
  have hone : [Node.rule selector body] = [selector].map (Node.rule · body) := rfl
  rw [selects_page_iff]
  simp only [hone, mem_entries_rules, List.mem_singleton]
  constructor
  · rintro ⟨_, _, ⟨rfl, rfl, rfl⟩, h, hc, hd⟩
    exact ⟨rfl, hc, hd, h.resolve_left Bool.false_ne_true⟩
  · rintro ⟨rfl, hc, hd, h⟩
    exact ⟨_, _, ⟨rfl, rfl, rfl⟩, Or.inr h, hc, hd⟩

/-- taken apart, each component is on the page for itself -/
theorem selects_apart_iff :
    Selects (page routes route names (apart selector body)) around c d ↔
      around = [] ∧ c ∈ components selector ∧ d ∈ body ∧ isOnPage routes names c = true := by
  rw [selects_page_iff]
  simp only [apart, mem_entries_rules]
  constructor
  · rintro ⟨s, _, ⟨rfl, hs, rfl⟩, h, hc, hd⟩
    rw [components_of_mem hs, List.mem_singleton] at hc
    rw [← hc] at hs h
    exact ⟨rfl, hs, hd, h.resolve_left Bool.false_ne_true⟩
  · rintro ⟨rfl, hc, hd, h⟩
    refine ⟨c, _, ⟨rfl, hc, rfl⟩, Or.inr h, ?_, hd⟩
    rw [components_of_mem hc]
    exact List.mem_singleton_self c

/-- a component that is on the page for itself but not in a list names nothing -/
theorem isNamed_of_isOnPage (hc : c ∈ components selector)
    (hlist : isOnPage routes names selector = false) (h : isOnPage routes names c = true) :
    isNamed c = false := by
  rw [isOnPage_eq, Bool.or_eq_false_iff] at hlist
  have hcalls := List.any_eq_false.mp hlist.1 c hc
  rw [isOnPage_eq, components_of_mem hc, List.any_cons, List.any_nil, Bool.or_false,
    Bool.eq_false_iff.mpr hcalls, Bool.false_or, List.all_cons, List.all_nil, Bool.and_true,
    Bool.not_eq_true'] at h
  exact h

theorem isOnPage_of_not_isNamed (hc : c ∈ components selector) (h : isNamed c = false) :
    isOnPage routes names c = true := by
  rw [isOnPage_eq, components_of_mem hc, List.all_cons, List.all_nil, h, Bool.not_false,
    Bool.and_true, Bool.or_true]

theorem selects_apart_imp_iff (before after : List Node) :
    (∀ around c d,
      Selects (page routes route names (before ++ apart selector body ++ after)) around c d →
        Selects (page routes route names (before ++ .rule selector body :: after)) around c d) ↔
      (isOnPage routes names selector = false → ∀ c ∈ components selector, isNamed c = false →
        ∀ d ∈ body, Selects (page routes route names (before ++ after)) [] c d) := by
  have hcons : Node.rule selector body :: after = [.rule selector body] ++ after := rfl
  simp only [hcons, selects_page_append, selects_list_iff, selects_apart_iff]
  constructor
  · intro h hlist c hc hnamed d hd
    have hone := h [] c d (Or.inl (Or.inr ⟨rfl, hc, hd, isOnPage_of_not_isNamed hc hnamed⟩))
    rw [hlist] at hone
    exact hone.imp_right fun h => h.resolve_left fun h => Bool.false_ne_true h.2.2.2
  · rintro h around c d ((hbefore | ⟨rfl, hc, hd, hpage⟩) | hafter)
    · exact Or.inl hbefore
    · cases hlist : isOnPage routes names selector with
      | true => exact Or.inr (Or.inl ⟨rfl, hc, hd, rfl⟩)
      | false =>
        have hrest := h hlist c hc (isNamed_of_isOnPage hc hlist hpage) d hd
        exact hrest.imp_right Or.inr
    · exact Or.inr (Or.inr hafter)

end

/-! ## merged rules -/

/-- merging leaves what is inside at-rules as it is -/
theorem mem_entries_mergeFrom (seen : List String) (nodes : List Node) {header : AtHeader}
    {around : List AtHeader} {node : Node} :
    ⟨header :: around, node⟩ ∈ entries (mergeFrom seen nodes) ↔
      ⟨header :: around, node⟩ ∈ entries nodes := by
  have hrule (s : String) (b : List Declaration) (rest : List Node) :
      ⟨header :: around, node⟩ ∈ entries (.rule s b :: rest) ↔
        ⟨header :: around, node⟩ ∈ entries rest := by
    rw [entries_cons, List.mem_append]
    refine or_iff_right fun h => ?_
    simp [Node.entries] at h
  induction nodes generalizing seen with
  | nil => exact Iff.rfl
  | cons first nodes ih =>
    cases first with
    | rule s b =>
      rw [mergeFrom_rule, hrule]
      split
      · exact ih seen
      · exact (hrule _ _ _).trans (ih _)
    | declaration d =>
      rw [mergeFrom_of_not_rule _ _ _ rfl, entries_cons, entries_cons, List.mem_append,
        List.mem_append]
      exact or_congr_right (ih seen)
    | atRule n p c =>
      rw [mergeFrom_of_not_rule _ _ _ rfl, entries_cons, entries_cons, List.mem_append,
        List.mem_append]
      exact or_congr_right (ih seen)

theorem mem_page_top {selector : String} {body : List Declaration} :
    ⟨[], .rule selector body⟩ ∈ entries (page routes route names nodes) ↔
      .rule selector body ∈ nodes ∧ isOnPage routes names selector = true := by
  rw [mem_page_iff, mem_entries_top fun _ _ _ => Node.noConfusion]
  exact and_congr_right fun _ => or_iff_right Bool.false_ne_true

/-- a merged rule names what the rules in it name -/
theorem namesPage_joinSelectors {selectors : List String} {s : String} (hs : s ∈ selectors)
    (h : namesPage routes names s = true) :
    namesPage routes names (joinSelectors selectors) = true := by
  rw [namesPage, Bool.or_eq_true] at h ⊢
  exact h.imp (matchesNames_joinSelectors hs) (matchesNames_joinSelectors hs)

theorem stays_merged_iff (hread : ∀ s b, .rule s b ∈ nodes → ∀ d ∈ b, Declaration.Separate d) :
    (∀ s b, ⟨[], .rule s b⟩ ∈ entries (page routes route names nodes) →
      ∃ selectors body, s ∈ selectors ∧ body.map Declaration.key = b.map Declaration.key ∧
        ⟨[], .rule (joinSelectors selectors) body⟩ ∈
          entries (page routes route names (mergeDuplicates nodes))) ↔
      ∀ selector body, .rule selector body ∈ mergeDuplicates nodes →
        isOnPage routes names selector = false → ∀ s b, .rule s b ∈ nodes →
          body.map Declaration.key = b.map Declaration.key → isBase s = false := by
  constructor
  · intro h selector body hmerged hoff s b hb hkeys
    rw [Bool.eq_false_iff]
    intro hbase
    have hon : isOnPage routes names s = true := by rw [isOnPage, hbase, Bool.true_or]
    obtain ⟨selectors, first, -, hfirst, hpage⟩ := h s b (mem_page_top.mpr ⟨hb, hon⟩)
    obtain ⟨hmem, hjoined⟩ := mem_page_top.mp hpage
    have hkey : blockKey body = blockKey first := blockKey_congr (hkeys.trans hfirst.symm)
    rw [eq_of_mem_mergeFrom hmerged hmem hkey, hjoined] at hoff
    exact Bool.false_ne_true hoff.symm
  · intro h s b hpage
    obtain ⟨hb, hon⟩ := mem_page_top.mp hpage
    obtain ⟨selectors, first, hmerged, hkeys, hs, -⟩ := exists_merged_read hread hb
    refine ⟨selectors, first, hs, hkeys, mem_page_top.mpr ⟨hmerged, ?_⟩⟩
    by_contra hoff
    rw [Bool.not_eq_true] at hoff
    have hbase := h _ _ hmerged hoff s b hb hkeys
    rw [isOnPage, hbase, Bool.false_or] at hon
    rw [isOnPage, namesPage_joinSelectors hs hon, Bool.or_true] at hoff
    exact Bool.false_ne_true hoff.symm

end

/-! ## all laws together -/

/-- how the page of a route treats selector lists -/
structure ListsOnPage (routes : RouteMap) (route : String) (names : List String) : Prop where
  chunks : (route, names) ∈ routes.entries → ∀ nodes, ∃ shared own chunk,
    splitNodes routes nodes = shared :: own ∧ chunk ∈ own ∧ chunk.name = slug route ∧
      page routes route names nodes = shared.nodes ++ chunk.nodes
  mem : ∀ nodes around selector body,
    ⟨around, .rule selector body⟩ ∈ entries (page routes route names nodes) ↔
      ⟨around, .rule selector body⟩ ∈ entries nodes ∧
        (inResource around = true ∨ isOnPage routes names selector = true)
  onPage : ∀ selector, isOnPage routes names selector =
    ((components selector).any (fun c => isGlobal c || namesPage routes names c) ||
      (components selector).all (!isNamed ·))
  takenApart : ∀ before selector body after, (∀ around c d,
    Selects (page routes route names (before ++ apart selector body ++ after)) around c d →
      Selects (page routes route names (before ++ .rule selector body :: after)) around c d) ↔
    (isOnPage routes names selector = false →
      ∀ c ∈ components selector, isNamed c = false → ∀ d ∈ body,
        Selects (page routes route names (before ++ after)) [] c d)
  merged : ∀ css, (∀ s b, ⟨[], .rule s b⟩ ∈ entries (page routes route names (parse css)) →
      ∃ selectors body, s ∈ selectors ∧ body.map Declaration.key = b.map Declaration.key ∧
        ⟨[], .rule (joinSelectors selectors) body⟩ ∈
          entries (page routes route names (mergeDuplicates (parse css)))) ↔
    ∀ selector body, .rule selector body ∈ mergeDuplicates (parse css) →
      isOnPage routes names selector = false → ∀ s b, .rule s b ∈ parse css →
        body.map Declaration.key = b.map Declaration.key → isBase s = false
  inside : ∀ css header around s b,
    ⟨header :: around, .rule s b⟩ ∈
        entries (page routes route names (mergeDuplicates (parse css))) ↔
      ⟨header :: around, .rule s b⟩ ∈ entries (page routes route names (parse css))

theorem listsOnPage (routes : RouteMap) (route : String) (names : List String) :
    ListsOnPage routes route names where
  chunks hroute nodes := ⟨_, _, _, rfl, List.mem_map_of_mem hroute, rfl, rfl⟩
  mem nodes around selector body := mem_page_iff
  onPage := isOnPage_eq routes names
  takenApart before selector body after := selects_apart_imp_iff before after
  merged css := stays_merged_iff fun s b h => separate_of_read (read_parse css) h
  inside css header around s b := by
    rw [mem_page_iff, mem_page_iff, mergeDuplicates, mem_entries_mergeFrom]

/-- a single route that lists nothing -/
def bareRoute : RouteMap := .ofList [("/", [])]

/-- a tag in a list with a class is on no page, though its rule alone is on every page, and
merging makes such lists -/
theorem tag_beside_class_lost :
    ¬(∀ around c d,
      Selects (page bareRoute "/" [] (parse ".a\x7bx:y\x7dp\x7bx:y\x7d")) around c d →
        Selects (page bareRoute "/" [] (parse ".a, p\x7bx:y\x7d")) around c d) ∧
    parse ".a\x7bx:y\x7dp\x7bx:y\x7d" = apart ".a, p" [⟨"x", "y"⟩] ∧
    parse ".a, p\x7bx:y\x7d" = [.rule ".a, p" [⟨"x", "y"⟩]] ∧
    mergeDuplicates (parse ".a\x7bx:y\x7dp\x7bx:y\x7d") = parse ".a, p\x7bx:y\x7d" := by
  have hapart : page bareRoute "/" [] (parse ".a\x7bx:y\x7dp\x7bx:y\x7d") =
      [.rule "p" [⟨"x", "y"⟩]] := by decide +kernel
  have hlist : page bareRoute "/" [] (parse ".a, p\x7bx:y\x7d") = [] := by decide +kernel
  refine ⟨fun h => ?_, by decide +kernel, by decide +kernel, by decide +kernel⟩
  have hp : Selects (page bareRoute "/" [] (parse ".a\x7bx:y\x7dp\x7bx:y\x7d")) [] "p"
      ⟨"x", "y"⟩ := by
    rw [hapart]
    exact ⟨"p", _, List.mem_cons_self, by decide +kernel, List.mem_cons_self⟩
  obtain ⟨_, _, hmem, -⟩ := h _ _ _ hp
  rw [hlist] at hmem
  exact absurd hmem List.not_mem_nil

end CssOptimizer.RouteChunk
