import CssOptimizer.Proofs.Selector.Syntax
import CssOptimizer.Usage.Basic

/-!
# Rules that match are kept

Elements form a tree; a place in it is the list of child numbers on the way up to the root, so
that the parent of `i :: up` is `up`.  Classes, ids and data attributes are compared as they are
written and tags without regard to case; what pseudo-classes mean is left open.

* `Element.at?`                 the element at a place;
* `Selector.Relation.Joins`     how the places of two compounds lie to each other;
* `Selector.Complex.Matches`    whether a selector matches the element at a place;
* `Usage.Records`               usages with all names of an element.

The first compound of a selector that matches something matches an element itself, and its type or
one of its parts is a name of this element.  So the selector is covered, and a rule with it stays
(`mem_removeUnused_of_matches`).
-/

namespace CssOptimizer
open Text

structure Element where
  tag : String
  classes : List String
  ids : List String
  /-- the data attributes, named without `data-`, with their values -/
  data : List (String × String)
  children : List Element

def Element.at? (root : Element) : List Nat → Option Element
  | [] => some root
  | i :: up => (root.at? up).bind fun parent => parent.children[i]?

/-- what holds the root and the children of all it holds, holds every element of the tree -/
theorem Element.mem_of_at? {root : Element} {es : List Element} (hroot : root ∈ es)
    (hchildren : ∀ e ∈ es, ∀ child ∈ e.children, child ∈ es) {place : List Nat} {e : Element}
    (h : root.at? place = some e) : e ∈ es := by
  induction place generalizing e with
  | nil =>
    rw [← Option.some.inj h]
    exact hroot
  | cons i up ih =>
    obtain ⟨parent, hparent, hi⟩ := Option.bind_eq_some_iff.mp h
    exact hchildren parent (ih hparent) e (List.mem_of_getElem? hi)

/-! ## matching -/

namespace Selector

section
variable (pseudo : Word → List Nat → Prop) (root : Element)

def Part.Matches (place : List Nat) (e : Element) : Part → Prop
  | className name => name.text ∈ e.classes
  | idName name => name.text ∈ e.ids
  | data name => ∃ value, (name.text, value) ∈ e.data
  | dataValue name value => (name.text, value.text) ∈ e.data
  | pseudoClass name => pseudo name place

def TypeSelector.Matches (e : Element) : TypeSelector → Prop
  | universal => True
  | tag name => lowerAscii name.chars = lowerAscii e.tag.toList

def Compound.Matches (place : List Nat) (c : Compound) : Prop :=
  ∃ e, root.at? place = some e ∧ (∀ t ∈ c.type, t.Matches e) ∧
    ∀ part ∈ c.parts, part.Matches pseudo place e

/-- whether the second place lies to the first as a combinator between compounds asks for -/
def Relation.Joins : Relation → List Nat → List Nat → Prop
  | descendant, p, q => ∃ i inner, q = i :: inner ++ p
  | child, p, q => ∃ i, q = i :: p
  | next, p, q => ∃ i up, p = i :: up ∧ q = (i + 1) :: up
  | later, p, q => ∃ i j up, i < j ∧ p = i :: up ∧ q = j :: up

/-- whether compounds match one after the other, from a place that the one before them matches
to the place of the last one -/
def MatchesOn : List (Combinator × Compound) → List Nat → List Nat → Prop
  | [], p, q => p = q
  | (k, c) :: rest, p, q =>
    ∃ place, k.relation.Joins p place ∧ c.Matches pseudo root place ∧ MatchesOn rest place q

def Complex.Matches (place : List Nat) (s : Complex) : Prop :=
  ∃ p, s.first.Matches pseudo root p ∧ MatchesOn pseudo root s.rest p place

end

end Selector

/-! ## usage -/

namespace Usage

structure Records (u : Usage) (e : Element) : Prop where
  classes : ∀ name ∈ e.classes, name ∈ u.classes
  ids : ∀ name ∈ e.ids, name ∈ u.ids
  tag : String.ofList (lowerAscii e.tag.toList) ∈ u.tags
  data : ∀ entry ∈ e.data, entry.1 ∈ u.attributes

def RecordsAll (u : Usage) (root : Element) : Prop :=
  ∀ place e, root.at? place = some e → u.Records e

theorem coversComponent_of_class {u : Usage} {component name : String}
    (h : name ∈ Selector.classes component) (hu : name ∈ u.classes) :
    u.coversComponent component = true := by
  have hany : (Selector.classes component).any u.classes.contains = true :=
    List.any_eq_true.mpr ⟨name, h, NameSet.contains_iff.mpr hu⟩
  simp [coversComponent, hany]

theorem coversComponent_of_id {u : Usage} {component name : String}
    (h : name ∈ Selector.ids component) (hu : name ∈ u.ids) :
    u.coversComponent component = true := by
  have hany : (Selector.ids component).any u.ids.contains = true :=
    List.any_eq_true.mpr ⟨name, h, NameSet.contains_iff.mpr hu⟩
  simp [coversComponent, hany]

theorem coversComponent_of_data {u : Usage} {component name : String}
    (h : name ∈ Selector.dataAttributes component) (hu : name ∈ u.attributes) :
    u.coversComponent component = true := by
  have hany : (Selector.dataAttributes component).any u.attributes.contains = true :=
    List.any_eq_true.mpr ⟨name, h, NameSet.contains_iff.mpr hu⟩
  simp [coversComponent, hany]

theorem coversComponent_of_tag {u : Usage} {component tag : String}
    (h : Selector.tag? component = some tag) (hu : tag ∈ u.tags) :
    u.coversComponent component = true := by
  have hany : (Selector.tag? component).any u.tags.contains = true := by
    rw [h]
    exact NameSet.contains_iff.mpr hu
  simp [coversComponent, hany]

theorem coversComponent_of_isGlobal (u : Usage) {component : String}
    (h : Selector.isGlobal component = true) : u.coversComponent component = true := by
  simp [coversComponent, h]

end Usage

/-! ## covered selectors -/

namespace Selector

section
variable {pseudo : Word → List Nat → Prop} {u : Usage} {e : Element}

/-- a part that matches an element brings a name of it into the text around it -/
theorem coversComponent_of_part {part : Part} (hp : part.isPseudo = false) {place : List Nat}
    (hm : part.Matches pseudo place e) (hu : u.Records e) (pre : List Char) {post : List Char}
    (hpost : EndsNames post) :
    u.coversComponent (String.ofList (pre ++ (part.text ++ post))) = true := by
  cases part with
  | pseudoClass name => exact absurd hp.symm Bool.false_ne_true
  | className name =>
    refine Usage.coversComponent_of_class ?_ (hu.classes _ hm)
    rw [classes, String.toList_ofList]
    exact List.mem_map_of_mem (mem_marked (by decide) name.ne_nil name.isName pre hpost)
  | idName name =>
    refine Usage.coversComponent_of_id ?_ (hu.ids _ hm)
    rw [ids, String.toList_ofList]
    exact List.mem_map_of_mem (mem_marked (by decide) name.ne_nil name.isName pre hpost)
  | data name =>
    obtain ⟨value, hv⟩ := hm
    refine Usage.coversComponent_of_data ?_ (hu.data _ hv)
    rw [dataAttributes, String.toList_ofList, Part.text_data, List.append_assoc "[data-".toList,
      List.append_assoc name.chars]
    exact List.mem_map_of_mem (mem_bracketedData name.ne_nil name.isName pre
      (endsNames_cons (by decide) _))
  | dataValue name value =>
    refine Usage.coversComponent_of_data ?_ (hu.data _ hm)
    rw [dataAttributes, String.toList_ofList, Part.text_dataValue,
      List.append_assoc "[data-".toList, List.append_assoc name.chars]
    exact List.mem_map_of_mem (mem_bracketedData name.ne_nil name.isName pre
      (endsNames_cons (by decide) _))

theorem coversComponent_of_type {t : TypeSelector} (hm : t.Matches e) (hu : u.Records e)
    {post : List Char} (hpost : EndsNames post) :
    u.coversComponent (String.ofList (t.text ++ post)) = true := by
  cases t with
  | universal =>
    refine u.coversComponent_of_isGlobal ?_
    have hstart : trimStart (String.ofList ('*' :: post)).toList = '*' :: post := by
      rw [String.toList_ofList]
      exact trimStart_of_not_isBlank rfl post
    have hstar : "*".toList.isPrefixOf ('*' :: post) = true := rfl
    show isGlobal (String.ofList ('*' :: post)) = true
    simp only [isGlobal, hstart, hstar, Bool.or_true, Bool.true_or]
  | tag name =>
    have htag : tag? (String.ofList (name.chars ++ post)) =
        some (String.ofList (lowerAscii name.chars)) := by
      have hstart : trimStart (name.chars ++ post) = name.chars ++ post := by
        cases hn : name.chars with
        | nil => exact absurd hn name.ne_nil
        | cons c cs =>
          have hc : isName c = true := name.isName c (by rw [hn]; exact List.mem_cons_self)
          exact trimStart_of_not_isBlank (isBlank_of_isName hc) _
      rw [tag?, String.toList_ofList, hstart,
        leadingTag_append name.letter name.ne_nil name.isName hpost]
      rfl
    have hmatch : lowerAscii name.chars = lowerAscii e.tag.toList := hm
    refine Usage.coversComponent_of_tag htag ?_
    rw [hmatch]
    exact hu.tag

theorem coversComponent_of_compound {root : Element} {place : List Nat} {c : Compound}
    (hm : c.Matches pseudo root place) (hu : u.RecordsAll root) {post : List Char}
    (hpost : EndsNames post) :
    u.coversComponent (String.ofList (c.text ++ post)) = true := by
  obtain ⟨e, he, htype, hparts⟩ := hm
  have hrec := hu place e he
  have htext : c.text ++ post = c.typeText ++ (c.parts.flatMap Part.text ++ post) :=
    List.append_assoc ..
  rw [htext]
  rcases c.concrete with h | ⟨part, hpart, hp⟩
  · obtain ⟨t, ht⟩ := Option.isSome_iff_exists.mp h
    rw [Compound.typeText, ht]
    exact coversComponent_of_type (htype t ht) hrec (endsNames_parts c.parts hpost)
  · obtain ⟨before, behind, hsplit⟩ := List.append_of_mem hpart
    have hparts' : c.typeText ++ (c.parts.flatMap Part.text ++ post) =
        (c.typeText ++ before.flatMap Part.text) ++
          (part.text ++ (behind.flatMap Part.text ++ post)) := by
      rw [hsplit, List.flatMap_append, List.flatMap_cons]
      simp only [List.append_assoc]
    rw [hparts']
    exact coversComponent_of_part hp (hparts part hpart) hrec _ (endsNames_parts behind hpost)

/-- a list is covered if one of its members matches something -/
theorem covers_of_matches {root : Element} (hu : u.RecordsAll root) {ms : List Member} {m : Member}
    (h : m ∈ ms) {place : List Nat} (hm : m.selector.Matches pseudo root place) :
    u.covers (String.ofList (membersText ms)) = true := by
  obtain ⟨p, hfirst, -⟩ := hm
  have hcomponents : components (String.ofList (membersText ms)) =
      ms.map fun m => String.ofList m.selector.text := by
    rw [components, String.toList_ofList, componentChars_membersText, List.map_map]
    rfl
  rw [Usage.covers, hcomponents]
  exact List.any_eq_true.mpr ⟨_, List.mem_map_of_mem h,
    coversComponent_of_compound hfirst hu (endsNames_rest m.selector.rest)⟩

end

/-- a rule whose selector matches an element stays, if the usage has all names of the tree -/
theorem mem_removeUnused_of_matches {pseudo : Word → List Nat → Prop} {root : Element} {u : Usage}
    (hu : u.RecordsAll root) {ms : List Member}
    (h : ∃ m ∈ ms, ∃ place, m.selector.Matches pseudo root place) {nodes : List Node}
    {body : List Declaration}
    (hrule : Node.rule (String.ofList (membersText ms)) body ∈ nodes) :
    Node.rule (String.ofList (membersText ms)) body ∈ removeUnused u nodes := by
  obtain ⟨m, hm, place, hmatch⟩ := h
  exact List.mem_filter.mpr ⟨hrule, covers_of_matches hu hm hmatch⟩

/-! ## a menu -/

def hoveredItem : Element := ⟨"li", [], [], [], []⟩
def openItem : Element := ⟨"LI", ["item"], ["last"], [("open", "yes")], []⟩
def menu : Element := ⟨"UL", ["nav"], [], [], [hoveredItem, openItem]⟩

def menuUsage : Usage where
  classes := .ofList ["nav", "item"]
  ids := .ofList ["last"]
  tags := .ofList ["ul", "li"]
  attributes := .ofList ["open"]

/-- the selector `ul.nav > li:hover~[data-open="yes"]` -/
def openSelector : Complex where
  first := ⟨some (.tag ⟨⟨"ul".toList, by decide, by decide⟩, by decide⟩),
    [.className ⟨"nav".toList, by decide, by decide⟩], .inl rfl⟩
  rest := [
    (⟨.child, ⟨[' '], by decide⟩, ⟨[' '], by decide⟩, by decide⟩,
      ⟨some (.tag ⟨⟨"li".toList, by decide, by decide⟩, by decide⟩),
        [.pseudoClass ⟨"hover".toList, by decide, by decide⟩], .inl rfl⟩),
    (⟨.later, ⟨[], by decide⟩, ⟨[], by decide⟩, by decide⟩,
      ⟨none, [.dataValue ⟨"open".toList, by decide, by decide⟩
        ⟨"yes".toList, by decide, by decide⟩], .inr ⟨_, List.mem_cons_self, rfl⟩⟩)]

/-- the list `#gone, ul.nav > li:hover~[data-open="yes"]` -/
def menuMembers : List Member :=
  [⟨⟨[], by decide⟩, ⟨⟨none, [.idName ⟨"gone".toList, by decide, by decide⟩],
      .inr ⟨_, List.mem_cons_self, rfl⟩⟩, []⟩, ⟨[], by decide⟩⟩,
    ⟨⟨[' '], by decide⟩, openSelector, ⟨[], by decide⟩⟩]

def menuSheet : List Node :=
  [.rule ".gone" [], .rule (String.ofList (membersText menuMembers)) [⟨"p", "1"⟩]]

/-- the pointer is over the first item -/
def hovered (name : Word) (place : List Nat) : Prop := name.text = "hover" ∧ place = [0]

theorem recordsAll_menu : menuUsage.RecordsAll menu := by
  have hall : ∀ e ∈ [menu, hoveredItem, openItem], menuUsage.Records e := by
    simp only [List.forall_mem_cons, List.not_mem_nil, false_imp_iff, implies_true, and_true]
    refine ⟨⟨?_, ?_, ?_, ?_⟩, ⟨?_, ?_, ?_, ?_⟩, ⟨?_, ?_, ?_, ?_⟩⟩ <;> decide +kernel
  intro place e h
  refine hall e (Element.mem_of_at? List.mem_cons_self ?_ h)
  simp [menu, hoveredItem, openItem]

theorem matches_openSelector : openSelector.Matches hovered menu [1] := by
  have htype {name : Tag} {e : Element} (h : lowerAscii name.chars = lowerAscii e.tag.toList) :
      ∀ t ∈ some (TypeSelector.tag name), t.Matches e := by
    intro t ht
    rw [← Option.some.inj ht]
    exact h
  refine ⟨[], ⟨menu, rfl, htype (by decide), ?_⟩, [0], ⟨0, rfl⟩,
    ⟨hoveredItem, rfl, htype (by decide), ?_⟩, [1], ⟨0, 1, [], Nat.zero_lt_one, rfl, rfl⟩,
    ⟨openItem, rfl, ?_, ?_⟩, rfl⟩
  · exact List.forall_mem_singleton.mpr List.mem_cons_self
  · exact List.forall_mem_singleton.mpr ⟨rfl, rfl⟩
  · intro t ht
    exact absurd ht (by simp)
  · exact List.forall_mem_singleton.mpr List.mem_cons_self

theorem mem_removeUnused_menuSheet :
    menuUsage.RecordsAll menu ∧
    (∃ m ∈ menuMembers, ∃ place, m.selector.Matches hovered menu place) ∧
    Node.rule (String.ofList (membersText menuMembers)) [⟨"p", "1"⟩] ∈ menuSheet ∧
    Node.rule (String.ofList (membersText menuMembers)) [⟨"p", "1"⟩] ∈
      removeUnused menuUsage menuSheet := by
  have hmatch : ∃ m ∈ menuMembers, ∃ place, m.selector.Matches hovered menu place :=
    ⟨_, List.mem_cons_of_mem _ List.mem_cons_self, [1], matches_openSelector⟩
  have hrule : Node.rule (String.ofList (membersText menuMembers)) [⟨"p", "1"⟩] ∈ menuSheet :=
    List.mem_cons_of_mem _ List.mem_cons_self
  exact ⟨recordsAll_menu, hmatch, hrule, mem_removeUnused_of_matches recordsAll_menu hmatch hrule⟩

end Selector
end CssOptimizer
