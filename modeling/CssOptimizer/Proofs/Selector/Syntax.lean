import CssOptimizer.Proofs.Selector.Names

/-!
# Selectors as trees

Selectors made of compounds and combinators, with the texts they are written as.  Blanks may stand
around combinators and commas; what is written does not say more than the tree does.

* `Selector.Part`         a class, an id, a data attribute or a pseudo-class;
* `Selector.Compound`     parts behind an optional type, not all of them pseudo-classes;
* `Selector.Complex`      compounds joined by combinators;
* `Selector.Member`       such a selector in a list, with the blanks around it.

Main statement: the components in the text of a list are the texts of its members
(`componentChars_membersText`).
-/

namespace CssOptimizer.Selector
open Text

/-! ## words and blanks -/

structure Word where
  chars : List Char
  ne_nil : chars ≠ []
  ascii : chars.all isAsciiName = true

structure Tag extends Word where
  letter : chars.head?.all isAsciiLetter = true

structure Gap where
  chars : List Char
  blank : Blank chars

namespace Word

def text (w : Word) : String := String.ofList w.chars

theorem isName (w : Word) : ∀ c ∈ w.chars, Text.isName c = true :=
  fun c hc => isName_of_isAsciiName (List.all_eq_true.mp w.ascii c hc)

end Word

/-! ## compounds -/

/-- what a compound asks of an element, apart from its type; data attributes are named without
`data-` -/
inductive Part where
  | className (name : Word)
  | idName (name : Word)
  | data (name : Word)
  | dataValue (name value : Word)
  | pseudoClass (name : Word)

namespace Part

def isPseudo : Part → Bool
  | pseudoClass _ => true
  | _ => false

def text : Part → List Char
  | className name => '.' :: name.chars
  | idName name => '#' :: name.chars
  | data name => "[data-".toList ++ (name.chars ++ [']'])
  | dataValue name value =>
    "[data-".toList ++ (name.chars ++ ("=\x22".toList ++ (value.chars ++ "\x22]".toList)))
  | pseudoClass name => ':' :: name.chars

theorem text_data (name : Word) :
    (data name).text = "[data-".toList ++ (name.chars ++ [']']) := rfl

theorem text_dataValue (name value : Word) :
    (dataValue name value).text =
      "[data-".toList ++ (name.chars ++ ("=\x22".toList ++ (value.chars ++ "\x22]".toList))) := rfl

end Part

inductive TypeSelector where
  | universal
  | tag (name : Tag)

def TypeSelector.text : TypeSelector → List Char
  | universal => ['*']
  | tag name => name.chars

structure Compound where
  type : Option TypeSelector
  parts : List Part
  concrete : type.isSome = true ∨ ∃ part ∈ parts, part.isPseudo = false

namespace Compound

def typeText (c : Compound) : List Char := (c.type.map TypeSelector.text).getD []
def partsText (c : Compound) : List Char := c.parts.flatMap Part.text
def text (c : Compound) : List Char := c.typeText ++ c.partsText

end Compound

/-! ## combinators -/

inductive Relation where
  | descendant
  | child
  | next
  | later

def Relation.mark : Relation → List Char
  | descendant => []
  | child => ['>']
  | next => ['+']
  | later => ['~']

structure Combinator where
  relation : Relation
  before : Gap
  behind : Gap
  apart : before.chars = [] → relation.mark ≠ []

def Combinator.text (k : Combinator) : List Char :=
  k.before.chars ++ (k.relation.mark ++ k.behind.chars)

structure Complex where
  first : Compound
  rest : List (Combinator × Compound)

def restText (rest : List (Combinator × Compound)) : List Char :=
  rest.flatMap fun joined => joined.1.text ++ joined.2.text

def Complex.text (s : Complex) : List Char := s.first.text ++ restText s.rest

structure Member where
  before : Gap
  selector : Complex
  behind : Gap

def Member.text (m : Member) : List Char := m.before.chars ++ (m.selector.text ++ m.behind.chars)

def membersText : List Member → List Char
  | [] => []
  | [m] => m.text
  | m :: next :: rest => m.text ++ ',' :: membersText (next :: rest)

/-! ## the characters of texts -/

/-- a text that leaves the depth as it is and holds neither commas nor blanks -/
structure Solid (cs : List Char) : Prop where
  level : ∀ depth, depthAfter depth cs = depth
  comma : ',' ∉ cs
  blank : ∀ c ∈ cs, isBlank c = false

theorem solid_nil : Solid [] := by
  refine ⟨fun _ => rfl, ?_, ?_⟩
  · exact List.not_mem_nil
  · exact fun _ h => absurd h List.not_mem_nil

theorem Solid.append {a b : List Char} (ha : Solid a) (hb : Solid b) : Solid (a ++ b) where
  level depth := by rw [depthAfter_append, ha.level, hb.level]
  comma := by
    rw [List.mem_append, not_or]
    exact ⟨ha.comma, hb.comma⟩
  blank := List.forall_mem_append.mpr ⟨ha.blank, hb.blank⟩

theorem solid_flatMap {α : Type} {f : α → List Char} {xs : List α} (h : ∀ x ∈ xs, Solid (f x)) :
    Solid (xs.flatMap f) := by
  induction xs with
  | nil => exact solid_nil
  | cons x xs ih =>
    obtain ⟨hx, hxs⟩ := List.forall_mem_cons.mp h
    exact hx.append (ih hxs)

theorem solid_word {cs : List Char} (h : ∀ c ∈ cs, isName c = true) : Solid cs where
  level := depthAfter_of_isFlat fun c hc => isFlat_of_isName (h c hc)
  comma := not_mem_of_isName h (by decide)
  blank c hc := isBlank_of_isName (h c hc)

theorem solid_singleton {c : Char} (hf : isFlat c = true) (hc : c ≠ ',')
    (hb : isBlank c = false) : Solid [c] where
  level := depthAfter_of_isFlat (List.forall_mem_singleton.mpr hf)
  comma := by
    rw [List.mem_singleton]
    exact hc.symm
  blank := List.forall_mem_singleton.mpr hb

/-- brackets around a solid text -/
theorem Solid.bracketed {cs : List Char} (h : Solid cs) : Solid ('[' :: (cs ++ [']'])) where
  level depth := by
    have hopen : depthBehind depth '[' = depth + 1 := rfl
    rw [depthAfter_cons, hopen, depthAfter_append, h.level]
    rfl
  comma := by
    intro hm
    rcases List.mem_cons.mp hm with he | hm
    · exact absurd he (by decide)
    · rcases List.mem_append.mp hm with hm | hm
      · exact h.comma hm
      · exact absurd hm (by decide)
  blank := by
    rw [List.forall_mem_cons, List.forall_mem_append]
    exact ⟨rfl, h.blank, List.forall_mem_singleton.mpr rfl⟩

theorem Part.solid (p : Part) : Solid p.text := by
  have hdata : Solid "data-".toList := solid_word (List.all_eq_true.mp (by decide))
  have hquote : Solid ['\x22'] := solid_singleton rfl (by decide) rfl
  cases p with
  | className name => exact (solid_singleton rfl (by decide) rfl).append (solid_word name.isName)
  | idName name => exact (solid_singleton rfl (by decide) rfl).append (solid_word name.isName)
  | pseudoClass name => exact (solid_singleton rfl (by decide) rfl).append (solid_word name.isName)
  | data name =>
    have h := (hdata.append (solid_word name.isName)).bracketed
    rwa [List.append_assoc] at h
  | dataValue name value =>
    have hsign : Solid ['='] := solid_singleton rfl (by decide) rfl
    have h := (hdata.append ((solid_word name.isName).append ((hsign.append hquote).append
      ((solid_word value.isName).append hquote)))).bracketed
    simp only [List.append_assoc] at h
    exact h

theorem Compound.solid (c : Compound) : Solid c.text := by
  refine Solid.append ?_ (solid_flatMap fun p _ => p.solid)
  cases ht : c.type with
  | none =>
    rw [typeText, ht]
    exact solid_nil
  | some t =>
    rw [typeText, ht]
    cases t with
    | universal => exact solid_singleton rfl (by decide) rfl
    | tag name => exact solid_word name.isName

theorem Compound.text_ne_nil (c : Compound) : c.text ≠ [] := by
  intro he
  obtain ⟨htype, hparts⟩ := List.append_eq_nil_iff.mp he
  rcases c.concrete with h | ⟨p, hp, -⟩
  · obtain ⟨t, ht⟩ := Option.isSome_iff_exists.mp h
    rw [typeText, ht] at htype
    cases t with
    | universal => exact absurd htype (by decide)
    | tag name => exact name.ne_nil htype
  · have hnil : p.text = [] := List.flatMap_eq_nil_iff.mp hparts p hp
    cases p <;> exact List.cons_ne_nil _ _ hnil

/-! ## what ends a name -/

theorem Part.endsNames (p : Part) (rest : List Char) : EndsNames (p.text ++ rest) := by
  cases p <;> exact endsNames_cons (by decide) _

theorem endsNames_parts (parts : List Part) {rest : List Char} (h : EndsNames rest) :
    EndsNames (parts.flatMap Part.text ++ rest) := by
  cases parts with
  | nil => exact h
  | cons p parts =>
    rw [List.flatMap_cons, List.append_assoc]
    exact p.endsNames _

theorem Combinator.endsNames (k : Combinator) (rest : List Char) :
    EndsNames (k.text ++ rest) := by
  rw [Combinator.text]
  cases hb : k.before.chars with
  | cons c cs =>
    have hc : isBlank c = true := k.before.blank c (by rw [hb]; exact List.mem_cons_self)
    exact endsNames_cons (isName_of_isBlank hc) _
  | nil =>
    have hmark := k.apart hb
    cases hr : k.relation with
    | descendant => exact absurd (congrArg Relation.mark hr) hmark
    | child => exact endsNames_cons (by decide) _
    | next => exact endsNames_cons (by decide) _
    | later => exact endsNames_cons (by decide) _

theorem endsNames_rest (rest : List (Combinator × Compound)) : EndsNames (restText rest) := by
  cases rest with
  | nil => exact endsNames_nil
  | cons joined rest =>
    rw [restText, List.flatMap_cons, List.append_assoc]
    exact joined.1.endsNames _

/-! ## the members of a list -/

theorem depthAfter_blank {ws : List Char} (h : Blank ws) (depth : Nat) :
    depthAfter depth ws = depth :=
  depthAfter_of_isFlat (fun c hc => isFlat_of_isBlank (h c hc)) depth

theorem comma_blank {ws : List Char} (h : Blank ws) : ',' ∉ ws :=
  fun hm => ne_of_isBlank (h _ hm) rfl rfl

theorem Combinator.level (k : Combinator) (depth : Nat) : depthAfter depth k.text = depth := by
  have hmark : depthAfter depth k.relation.mark = depth := by
    cases k.relation <;> rfl
  rw [text, depthAfter_append, depthAfter_append, depthAfter_blank k.before.blank, hmark,
    depthAfter_blank k.behind.blank]

theorem Combinator.comma (k : Combinator) : ',' ∉ k.text := by
  have hmark : ',' ∉ k.relation.mark := by
    cases k.relation <;> decide
  rw [text, List.mem_append, List.mem_append, not_or, not_or]
  exact ⟨comma_blank k.before.blank, hmark, comma_blank k.behind.blank⟩

theorem Complex.level (s : Complex) (depth : Nat) : depthAfter depth s.text = depth := by
  have hrest (rest : List (Combinator × Compound)) : depthAfter depth (restText rest) = depth := by
    induction rest with
    | nil => rfl
    | cons joined rest ih =>
      rw [restText, List.flatMap_cons, depthAfter_append, depthAfter_append, joined.1.level,
        joined.2.solid.level]
      exact ih
  rw [text, depthAfter_append, s.first.solid.level, hrest]

theorem Complex.comma (s : Complex) : ',' ∉ s.text := by
  rw [text, List.mem_append, not_or]
  refine ⟨s.first.solid.comma, ?_⟩
  intro hm
  obtain ⟨joined, -, hm⟩ := List.mem_flatMap.mp hm
  rcases List.mem_append.mp hm with hm | hm
  · exact joined.1.comma hm
  · exact joined.2.solid.comma hm

/-- the text ends with that of a compound -/
theorem Complex.exists_last (s : Complex) : ∃ a c, s.text = a ++ Compound.text c := by
  rcases List.eq_nil_or_concat s.rest with h | ⟨rest, ⟨k, c⟩, h⟩
  · refine ⟨[], s.first, ?_⟩
    rw [text, h]
    exact List.append_nil _
  · refine ⟨s.first.text ++ (restText rest ++ k.text), c, ?_⟩
    rw [text, h, restText, List.concat_eq_append, List.flatMap_append, List.flatMap_singleton,
      restText]
    simp only [List.append_assoc]

theorem Complex.trimmed (s : Complex) : Trimmed s.text := by
  have hstart : trimStart s.text = s.text := by
    cases hc : s.first.text with
    | nil => exact absurd hc s.first.text_ne_nil
    | cons c cs =>
      have hb : isBlank c = false :=
        s.first.solid.blank c (by rw [hc]; exact List.mem_cons_self)
      rw [text, hc]
      exact trimStart_of_not_isBlank hb _
  have hend : trimEnd s.text = s.text := by
    obtain ⟨a, c, he⟩ := s.exists_last
    obtain ⟨cs, d, hd⟩ := (List.eq_nil_or_concat c.text).resolve_left c.text_ne_nil
    have hb : isBlank d = false := c.solid.blank d (by
      rw [hd, List.concat_eq_append]
      exact List.mem_append_right _ List.mem_cons_self)
    rw [he, hd, List.concat_eq_append, ← List.append_assoc]
    exact trimEnd_append_cons (a ++ cs) hb []
  rw [Trimmed, trim, hstart, hend]

theorem Complex.text_ne_nil (s : Complex) : s.text ≠ [] := by
  intro h
  exact s.first.text_ne_nil (List.append_eq_nil_iff.mp h).1

theorem Member.componentChars (m : Member) : componentChars m.text = [m.selector.text] := by
  have htrim : trim m.text = m.selector.text := by
    rw [text, ← List.append_assoc]
    exact trim_between m.before.blank m.behind.blank m.selector.trimmed
  have hcomma : ',' ∉ m.text := by
    rw [text, List.mem_append, List.mem_append, not_or, not_or]
    exact ⟨comma_blank m.before.blank, m.selector.comma, comma_blank m.behind.blank⟩
  have hne : trim m.text ≠ [] := by
    rw [htrim]
    exact m.selector.text_ne_nil
  rw [componentChars_of_no_comma hcomma hne, htrim]

theorem Member.level (m : Member) : Level m.text := by
  rw [Level, text, depthAfter_append, depthAfter_append, depthAfter_blank m.before.blank,
    m.selector.level, depthAfter_blank m.behind.blank]

theorem componentChars_membersText (ms : List Member) :
    componentChars (membersText ms) = ms.map fun m => m.selector.text := by
  induction ms with
  | nil => rfl
  | cons m ms ih =>
    cases ms with
    | nil => exact m.componentChars
    | cons next rest =>
      rw [membersText, componentChars_append m.level, m.componentChars, ih]
      rfl

end CssOptimizer.Selector
