import CssOptimizer.Proofs.Text.Occurrences
import CssOptimizer.Proofs.Usage.Attributes
import Mathlib.Data.List.Chain

/-!
# Attributes of start tags

The scan for quoted values knows no tags: whatever reads as an attribute is one, also inside the
value of another, and its value goes on to the next quote of its kind.  An attribute of a start tag
is found unless a value before it runs over it in that way.

* `StartTag`, `TagPart`   start tags, and the parts that they are written in;
* `RunsOver`              a value in which an attribute opens that is still open behind it;
* `names_startTags`       the classes and ids of start tags are found.
-/

namespace CssOptimizer.Usage
open Text

/-! ## start tags -/

/-- an attribute with a value in double quotes -/
structure QuotedAttribute where
  name : List Char
  value : List Char
  named : TagName name
  unquoted : '\x22' ∉ value

/-- an attribute as it is written, with a space before it -/
def QuotedAttribute.text (a : QuotedAttribute) : List Char :=
  ' ' :: (a.name ++ '=' :: '\x22' :: (a.value ++ ['\x22']))

structure StartTag where
  name : List Char
  attributes : List QuotedAttribute
  named : TagName name

def StartTag.text (t : StartTag) : List Char :=
  '<' :: (t.name ++ (t.attributes.flatMap (·.text) ++ ['>']))

/-- what start tags are written in: the bracket with the name, attributes, the closing bracket -/
inductive TagPart where
  | opening (name : List Char) (named : TagName name)
  | assigned (a : QuotedAttribute)
  | ending

namespace TagPart

def text : TagPart → List Char
  | opening name _ => '<' :: name
  | assigned a => a.text
  | ending => ['>']

def opensTag : TagPart → Bool
  | opening .. => true
  | _ => false

def endsTag : TagPart → Bool
  | ending => true
  | _ => false

end TagPart

def StartTag.parts (t : StartTag) : List TagPart :=
  .opening t.name t.named :: (t.attributes.map .assigned ++ [.ending])

theorem StartTag.flatMap_parts (t : StartTag) : t.parts.flatMap (·.text) = t.text := by
  rw [parts, text, List.flatMap_cons, List.flatMap_append, List.flatMap_map,
    List.flatMap_singleton]
  rfl

/-- a tag opens where the one before it ends -/
def Adjacent (p q : TagPart) : Prop := q.opensTag = p.endsTag

theorem isChain_attributes {p : TagPart} (hp : p.endsTag = false)
    (attributes : List QuotedAttribute) {rest : List TagPart}
    (hr : (.ending :: rest).IsChain Adjacent) :
    (p :: (attributes.map .assigned ++ .ending :: rest)).IsChain Adjacent := by
  induction attributes generalizing p with
  | nil => exact List.isChain_cons_cons.mpr ⟨hp.symm, hr⟩
  | cons a attributes ih => exact List.isChain_cons_cons.mpr ⟨hp.symm, ih rfl⟩

theorem isChain_parts (tags : List StartTag) :
    (.ending :: tags.flatMap (·.parts)).IsChain Adjacent := by
  induction tags with
  | nil => exact List.IsChain.singleton _
  | cons t tags ih =>
    rw [List.flatMap_cons, StartTag.parts, List.cons_append, List.append_assoc]
    exact List.isChain_cons_cons.mpr ⟨rfl, isChain_attributes rfl t.attributes ih⟩

/-- what stands behind a name or an attribute in a tag: another attribute, or the end of the tag -/
def InTag (cs : List Char) : Prop :=
  (∃ rest, cs = '>' :: rest) ∨ ∃ c rest, cs = ' ' :: c :: rest ∧ isName c = true

theorem inTag_parts {p : TagPart} (hp : p.opensTag = false) (rest : List TagPart) :
    InTag ((p :: rest).flatMap (·.text)) := by
  rw [List.flatMap_cons]
  cases p with
  | opening name named => exact absurd hp (by simp [TagPart.opensTag])
  | assigned a =>
    obtain ⟨c, name, hname, -⟩ := a.named.letter
    refine Or.inr ⟨c, name ++ '=' :: '\x22' :: (a.value ++ ['\x22']) ++ rest.flatMap (·.text), ?_,
      a.named.isName c ?_⟩
    · rw [TagPart.text, QuotedAttribute.text, hname]
      rfl
    · rw [hname]
      exact List.mem_cons_self
  | ending => exact Or.inl ⟨_, rfl⟩

theorem InTag.endsNames {cs : List Char} (h : InTag cs) : EndsNames cs := by
  rcases h with ⟨rest, rfl⟩ | ⟨c, rest, rfl, -⟩
  · exact endsNames_cons (by decide) rest
  · exact endsNames_cons (by decide) (c :: rest)

/-- an equals sign stands behind neither, not even with blanks before it -/
theorem InTag.ne_sign {cs : List Char} (h : InTag cs) {w : List Char} (hw : Blank w)
    (rest : List Char) : cs ≠ w ++ '=' :: rest := by
  intro he
  have hsign : trimStart cs = '=' :: rest := by
    rw [he, trimStart_blank hw, trimStart_of_not_isBlank (by decide)]
  rcases h with ⟨more, rfl⟩ | ⟨c, more, rfl, hc⟩
  · rw [trimStart_of_not_isBlank (by decide)] at hsign
    exact absurd (List.cons.inj hsign).1 (by decide)
  · have hname : trimStart (' ' :: c :: more) = c :: more :=
      trimStart_of_not_isBlank (isBlank_of_isName hc) more
    rw [hname] at hsign
    rw [(List.cons.inj hsign).1] at hc
    exact absurd hc (by decide)

/-! ## what is read in a tag -/

/-- an attribute that opens in a value, where the quote behind it is still open at the end of
`between` and closes in `behind` -/
inductive RunsOver (name value between behind : List Char) : Prop where
  | mk {a w₁ w₂ r s : List Char} {q : Char}
      (inside : value = a ++ (name ++ (w₁ ++ '=' :: (w₂ ++ r))))
      (opened : EndsIn opensHtmlAttribute a) (beforeSign : Blank w₁) (behindSign : Blank w₂)
      (quoteAt : r ++ '\x22' :: between = q :: s) (quote : isQuote q = true)
      (unclosed : q ∉ s) (closed : q ∈ behind)

/-- nothing is read at the name of a tag -/
theorem value?_tagName {name other behind : List Char} (h : TagName name) (ho : TagName other)
    (hb : InTag behind) : Attribute.value? name (other ++ behind) = none := by
  rw [Option.eq_none_iff_forall_ne_some]
  rintro ⟨value, n⟩ hread
  obtain ⟨taken, rest, he, htaken, -⟩ := value?_eq_some_iff.mp hread
  have hname : other = name := by
    rw [← leadingName_append ho.isName hb.endsNames, he]
    exact leadingName_of_assigns h.isName htaken rest
  obtain ⟨hw₁, hw₂, hq, hv⟩ := htaken
  rw [hname, List.append_assoc, List.append_assoc] at he
  exact hb.ne_sign hw₁ _ (List.append_cancel_left he)

/-- at the name of an attribute, that attribute is read as it is written -/
theorem value?_attribute (a : QuotedAttribute) (behind : List Char) :
    Attribute.value? a.name (a.name ++ '=' :: '\x22' :: (a.value ++ '\x22' :: behind)) =
      some (a.value, a.text.length - 1) := by
  refine value?_eq_some_iff.mpr ⟨a.name ++ ([] ++ '=' :: ([] ++ '\x22' :: (a.value ++ ['\x22']))),
    behind, ?_, .mk blank_nil blank_nil rfl a.unquoted, rfl⟩
  simp only [List.append_assoc, List.cons_append, List.nil_append]

theorem name_eq_of_value? {name value : List Char} {a : QuotedAttribute} {behind : List Char}
    {n : Nat} (h : TagName name)
    (hread : Attribute.value? name
      (a.name ++ '=' :: '\x22' :: (a.value ++ '\x22' :: behind)) = some (value, n)) :
    a.name = name := by
  obtain ⟨taken, rest, he, htaken, -⟩ := value?_eq_some_iff.mp hread
  rw [← leadingName_append a.named.isName (endsNames_cons (c := '=') (by decide) _), he]
  exact leadingName_of_assigns h.isName htaken rest

theorem quote_not_mem {name w₁ w₂ : List Char} (h : TagName name) (hw₁ : Blank w₁)
    (hw₂ : Blank w₂) : '\x22' ∉ name ++ (w₁ ++ '=' :: w₂) := by
  have hblank {w : List Char} (hw : Blank w) : '\x22' ∉ w := by
    intro hm
    exact absurd (hw _ hm) (by decide)
  rw [List.mem_append, List.mem_append, List.mem_cons]
  rintro (hm | hm | hm | hm)
  · exact h.not_mem (by decide) hm
  · exact hblank hw₁ hm
  · exact absurd hm (by decide)
  · exact hblank hw₂ hm

/-- a text that goes on to the first `q` ends in `s`, if `q` stands there -/
theorem length_lt_of_closed {q : Char} {s behind read rest : List Char}
    (he : s ++ behind = read ++ q :: rest) (hread : q ∉ read) (hclosed : q ∈ behind → q ∈ s) :
    read.length < s.length := by
  rcases List.append_eq_append_iff.mp he with ⟨z, hz, hbehind⟩ | ⟨z, hs, hrest⟩
  · have hq : q ∈ behind := by
      rw [hbehind]
      exact List.mem_append_right _ List.mem_cons_self
    apply absurd _ hread
    rw [hz]
    exact List.mem_append_left _ (hclosed hq)
  · cases z with
    | nil =>
      have hq : q ∈ behind := by
        rw [← show q :: rest = behind from hrest]
        exact List.mem_cons_self
      rw [List.append_nil] at hs
      exact absurd (hs ▸ hclosed hq) hread
    | cons e z =>
      rw [hs, List.length_append, List.length_cons]
      omega

/-- what is read inside a value ends before `behind`, unless it runs over -/
theorem length_le_of_inside {name value a r between behind read : List Char} {n : Nat}
    (h : TagName name) (hvalue : value = a ++ r) (ha : EndsIn opensHtmlAttribute a)
    (hover : ¬ RunsOver name value between behind)
    (hread : Attribute.value? name (r ++ '\x22' :: (between ++ behind)) = some (read, n)) :
    n ≤ (r ++ '\x22' :: between).length := by
  obtain ⟨taken, rest, he, ⟨hw₁, hw₂, hquote, hunquoted⟩, rfl⟩ := value?_eq_some_iff.mp hread
  rename_i w₁ w₂ q
  have hcut : r ++ '\x22' :: (between ++ behind) =
      [] ++ ((name ++ (w₁ ++ '=' :: w₂)) ++ q :: (read ++ q :: rest)) := by
    rw [he]
    simp only [List.append_assoc, List.cons_append, List.nil_append]
  rcases append_cons_eq_append (List.append_ne_nil_of_left_ne_nil h.ne_nil _)
    (quote_not_mem h hw₁ hw₂) hcut with ⟨y, hr, hy⟩ | ⟨x, hx, -⟩
  · obtain ⟨d, s, hs⟩ := List.exists_cons_of_ne_nil
      (List.append_ne_nil_of_right_ne_nil y (List.cons_ne_nil '\x22' between))
    have hopen : q :: (read ++ q :: rest) = d :: (s ++ behind) := by
      rw [hy, ← List.cons_append, ← List.append_assoc, hs, List.cons_append]
    obtain ⟨rfl, hbody⟩ := List.cons.inj hopen
    have hinside : value = a ++ (name ++ (w₁ ++ '=' :: (w₂ ++ y))) := by
      rw [hvalue, hr]
      simp only [List.append_assoc, List.cons_append, List.nil_append]
    have hclosed : q ∈ behind → q ∈ s := by
      intro hq
      by_contra hopen
      exact hover (.mk hinside ha hw₁ hw₂ hs hquote hopen hq)
    have hlength : read.length < s.length := length_lt_of_closed hbody.symm hunquoted hclosed
    have hwhole : r ++ '\x22' :: between = (name ++ (w₁ ++ '=' :: w₂)) ++ q :: s := by
      rw [hr, List.nil_append, List.append_assoc, hs]
    rw [hwhole]
    simp only [List.length_append, List.length_cons, List.length_nil]
    omega
  · exact absurd hx.symm (List.append_ne_nil_of_right_ne_nil r (List.cons_ne_nil _ x))

/-! ## what stands before an attribute -/

section
variable {name post : List Char} (h : TagName name)
include h

theorem endsWithin_skip {before : Option Char} {c : Char} {u : List Char}
    (hb : before.isSome = true ∨ isName c = false) (hc : opensHtmlAttribute c = false)
    (hu : EndsWithin (scanFor name) post (some c) u) :
    EndsWithin (scanFor name) post before (c :: u) := by
  refine ⟨fun value n hread => ?_, hu⟩
  rw [scanFor_cons h hb, hc] at hread
  exact absurd hread (by simp)

theorem endsWithin_open {before : Option Char} {c : Char} {u : List Char}
    (hc : opensHtmlAttribute c = true)
    (hread : ∀ value n, Attribute.value? name (u ++ post) = some (value, n) → n ≤ u.length)
    (hu : EndsWithin (scanFor name) post (some c) u) :
    EndsWithin (scanFor name) post before (c :: u) := by
  refine ⟨fun value n hm => ?_, hu⟩
  rw [scanFor_cons h (Or.inr (isName_of_opens hc)), if_pos hc] at hm
  obtain ⟨⟨read, k⟩, hr, he⟩ := Option.map_eq_some_iff.mp hm
  have hk := hread read k hr
  rw [← (Prod.mk.inj he).2]
  omega

theorem endsWithin_name {c : Char} {other u : List Char} (ho : ∀ c ∈ other, isName c = true)
    (hu : ∀ c, EndsWithin (scanFor name) post (some c) u) :
    EndsWithin (scanFor name) post (some c) (other ++ u) := by
  induction other generalizing c with
  | nil => exact hu c
  | cons d other ih =>
    obtain ⟨hd, ho⟩ := List.forall_mem_cons.mp ho
    refine endsWithin_skip h (Or.inl rfl) ?_ (ih ho)
    rw [Bool.eq_false_iff]
    intro hopens
    rw [isName_of_opens hopens] at hd
    exact Bool.false_ne_true hd

/-- in a value, from the place behind `a` on -/
theorem endsWithin_value {value a r u : List Char} {c : Char} (hvalue : value = a ++ r)
    (hover : ¬ RunsOver name value u post)
    (hu : EndsWithin (scanFor name) post (some '\x22') u) (hin : InTag (u ++ post)) :
    EndsWithin (scanFor name) post (some c) (r ++ '\x22' :: u) := by
  induction r generalizing a c with
  | nil =>
    refine endsWithin_open h rfl (fun read n hread => ?_) hu
    obtain ⟨taken, rest, he, htaken, -⟩ := value?_eq_some_iff.mp hread
    have hname := leadingName_of_assigns h.isName htaken rest
    have hnone : leadingName ([] ++ (u ++ post)) = [] :=
      leadingName_append (fun _ hc => absurd hc List.not_mem_nil) hin.endsNames
    rw [List.nil_append, he, hname] at hnone
    exact absurd hnone h.ne_nil
  | cons d r ih =>
    have hnext : value = (a ++ [d]) ++ r := by
      rw [hvalue, List.append_assoc]
      rfl
    rw [List.cons_append]
    cases hd : opensHtmlAttribute d with
    | false => exact endsWithin_skip h (Or.inl rfl) hd (ih hnext)
    | true =>
      refine endsWithin_open h hd (fun read n hread => ?_) (ih hnext)
      rw [List.append_assoc] at hread
      exact length_le_of_inside h hnext (endsIn_concat hd a) hover hread

theorem endsWithin_attribute {before : Option Char} (a : QuotedAttribute) {u : List Char}
    (hover : ¬ RunsOver name a.value u post)
    (hu : EndsWithin (scanFor name) post (some '\x22') u) (hin : InTag (u ++ post)) :
    EndsWithin (scanFor name) post before (a.text ++ u) := by
  have htext : a.text ++ u =
      ' ' :: (a.name ++ '=' :: '\x22' :: (a.value ++ '\x22' :: u)) := by
    simp [QuotedAttribute.text]
  rw [htext]
  have hopen : EndsWithin (scanFor name) post (some '=') ('\x22' :: (a.value ++ '\x22' :: u)) := by
    have hvalue : a.value = [] ++ a.value := (List.nil_append a.value).symm
    refine endsWithin_open h rfl (fun read n hread => ?_) (endsWithin_value h hvalue hover hu hin)
    rw [List.append_assoc] at hread
    exact length_le_of_inside h hvalue endsIn_nil hover hread
  have hsign (c : Char) : EndsWithin (scanFor name) post (some c)
      ('=' :: '\x22' :: (a.value ++ '\x22' :: u)) :=
    endsWithin_skip h (Or.inl rfl) (by decide) hopen
  refine endsWithin_open h rfl (fun read n hread => ?_) (endsWithin_name h a.named.isName hsign)
  have hassoc : (a.name ++ '=' :: '\x22' :: (a.value ++ '\x22' :: u)) ++ post =
      a.name ++ '=' :: '\x22' :: (a.value ++ '\x22' :: (u ++ post)) := by
    simp only [List.append_assoc, List.cons_append]
  rw [hassoc] at hread
  have hname : a.name = name := name_eq_of_value? h hread
  rw [← hname, value?_attribute, Option.some.injEq, Prod.mk.injEq] at hread
  rw [← hread.2]
  simp only [QuotedAttribute.text, List.length_append, List.length_cons, List.length_nil]
  omega

theorem endsWithin_opening {before : Option Char} {other u : List Char} (ho : TagName other)
    (hu : ∀ c, EndsWithin (scanFor name) post (some c) u) (hin : InTag (u ++ post)) :
    EndsWithin (scanFor name) post before ('<' :: (other ++ u)) := by
  refine endsWithin_open h rfl (fun read n hread => ?_) (endsWithin_name h ho.isName hu)
  rw [List.append_assoc, value?_tagName h ho hin] at hread
  exact absurd hread (by simp)

end

/-- what is read before an attribute ends before it, if no value runs over it -/
theorem endsWithin_parts {a : QuotedAttribute} {earlier later : List TagPart}
    {before : Option Char} (hchain : (earlier ++ .assigned a :: later).IsChain Adjacent)
    (hover : ∀ front b between, earlier = front ++ .assigned b :: between →
      ¬ RunsOver a.name b.value (between.flatMap (·.text))
        ((TagPart.assigned a :: later).flatMap (·.text))) :
    EndsWithin (scanFor a.name) ((TagPart.assigned a :: later).flatMap (·.text)) before
      (earlier.flatMap (·.text)) := by
  induction earlier generalizing before with
  | nil => exact trivial
  | cons p earlier ih =>
    have hu (before : Option Char) : EndsWithin (scanFor a.name)
        ((TagPart.assigned a :: later).flatMap (·.text)) before (earlier.flatMap (·.text)) :=
      ih (List.isChain_of_isChain_cons hchain) fun front b between he =>
        hover (p :: front) b between (by rw [he, List.cons_append])
    have hin (hp : p.endsTag = false) : InTag (earlier.flatMap (·.text) ++
        (TagPart.assigned a :: later).flatMap (·.text)) := by
      rw [← List.flatMap_append]
      obtain ⟨q, rest, hq⟩ := List.exists_cons_of_ne_nil
        (List.append_ne_nil_of_right_ne_nil earlier (List.cons_ne_nil (.assigned a) later))
      rw [List.cons_append, hq, List.isChain_cons_cons] at hchain
      rw [hq]
      exact inTag_parts (hchain.1.trans hp) rest
    rw [List.flatMap_cons]
    cases p with
    | opening other named =>
      exact endsWithin_opening a.named named (fun c => hu (some c)) (hin rfl)
    | assigned b =>
      exact endsWithin_attribute a.named b (hover [] b earlier rfl) (hu _) (hin rfl)
    | ending => exact endsWithin_skip a.named (Or.inr (by decide)) rfl (hu _)

/-- an attribute that no value before it runs over is found -/
theorem mem_quotedValues {tags : List StartTag} {a : QuotedAttribute} {earlier later : List TagPart}
    (hparts : tags.flatMap (·.parts) = earlier ++ .assigned a :: later)
    (hover : ∀ front b between, earlier = front ++ .assigned b :: between →
      ¬ RunsOver a.name b.value (between.flatMap (·.text))
        ((TagPart.assigned a :: later).flatMap (·.text))) :
    a.value ∈ Attribute.quotedValues opensHtmlAttribute [String.ofList a.name]
      (tags.flatMap (·.text)) := by
  have htext : tags.flatMap (·.text) = earlier.flatMap (·.text) ++
      (TagPart.assigned a :: later).flatMap (·.text) := by
    rw [← List.flatMap_append, ← hparts, List.flatMap_assoc]
    exact congrArg (tags.flatMap ·) (funext fun t => t.flatMap_parts.symm)
  have hchain : (earlier ++ .assigned a :: later).IsChain Adjacent := by
    rw [← hparts]
    exact List.isChain_of_isChain_cons (isChain_parts tags)
  have hpost : (TagPart.assigned a :: later).flatMap (·.text) =
      ' ' :: (a.name ++ '=' :: '\x22' :: (a.value ++ '\x22' :: later.flatMap (·.text))) := by
    simp [TagPart.text, QuotedAttribute.text]
  have hends : EndsWithin (scanFor a.name) ((TagPart.assigned a :: later).flatMap (·.text)) none
      (earlier.flatMap (·.text)) := endsWithin_parts hchain hover
  have hread : scanFor a.name (earlier.flatMap (·.text)).getLast?
      (' ' :: (a.name ++ '=' :: '\x22' :: (a.value ++ '\x22' :: later.flatMap (·.text)))) =
      some (a.value, a.text.length - 1 + 1) := by
    rw [scanFor_cons a.named (Or.inr (by decide)), if_pos (by decide), value?_attribute]
    rfl
  rw [hpost] at hends
  have hmem := mem_occurrences_of_endsWithin hends hread
  rw [htext, hpost, Attribute.quotedValues, List.map_singleton, String.toList_ofList]
  exact hmem

/-! ## classes and ids -/

/-- the words of a `class` and a trimmed `id` are found, if no value before the attribute runs over
it -/
theorem names_startTags {tags : List StartTag} {a : QuotedAttribute} {earlier later : List TagPart}
    (hparts : tags.flatMap (·.parts) = earlier ++ .assigned a :: later)
    (hover : ∀ front b between, earlier = front ++ .assigned b :: between →
      ¬ RunsOver a.name b.value (between.flatMap (·.text))
        ((TagPart.assigned a :: later).flatMap (·.text))) :
    (a.name = "class".toList → ∀ w ∈ words a.value,
      String.ofList w ∈ (ofHtml (String.ofList (tags.flatMap (·.text)))).classes) ∧
    (a.name = "id".toList → trim a.value ≠ [] →
      String.ofList (trim a.value) ∈ (ofHtml (String.ofList (tags.flatMap (·.text)))).ids) := by
  have hmem := mem_quotedValues hparts hover
  constructor
  · intro hname w hw
    rw [hname, String.ofList_toList] at hmem
    rw [ofHtml, String.toList_ofList, NameSet.mem_ofList, classNames]
    exact List.mem_map_of_mem (List.mem_flatMap.mpr ⟨a.value, hmem, hw⟩)
  · intro hname hne
    rw [hname, String.ofList_toList] at hmem
    rw [ofHtml, String.toList_ofList, NameSet.mem_ofList, markupIds, idNames]
    refine List.mem_map_of_mem (List.mem_filter.mpr ⟨List.mem_map_of_mem hmem, ?_⟩)
    rw [Bool.not_eq_true', List.isEmpty_eq_false_iff]
    exact hne

/-! ### values that run over none -/

theorem not_runsOver_of_not_infix {name value between behind : List Char}
    (h : ¬ name <:+: value) : ¬ RunsOver name value between behind := by
  rintro ⟨inside, -, -, -, -, -, -, -⟩
  rename_i a w₁ w₂ r s q
  exact h ⟨a, w₁ ++ '=' :: (w₂ ++ r), by rw [inside, List.append_assoc]⟩

/-- quotes of both kinds close whatever opened before them -/
theorem not_runsOver_of_quotes {name value between behind : List Char}
    (hdouble : '\x22' ∈ between) (hsingle : '\x27' ∈ between) :
    ¬ RunsOver name value between behind := by
  rintro ⟨-, -, -, -, quoteAt, quote, unclosed, -⟩
  rename_i a w₁ w₂ r s q
  have hbetween : q ∈ between := by
    rcases isQuote_iff.mp quote with rfl | rfl
    · exact hdouble
    · exact hsingle
  apply unclosed
  cases r with
  | nil =>
    rw [← (List.cons.inj quoteAt).2]
    exact hbetween
  | cons c r =>
    rw [← (List.cons.inj quoteAt).2]
    exact List.mem_append_right _ (List.mem_cons_of_mem _ hbetween)

/-- a value that opens a class, which the next one closes -/
def openTitle : QuotedAttribute :=
  ⟨"title".toList, "class='".toList, .of_all rfl rfl, by decide⟩

def closingNote : QuotedAttribute :=
  ⟨"note".toList, "it's".toList, .of_all rfl rfl, by decide⟩

def twoClasses : QuotedAttribute :=
  ⟨"class".toList, "card  wide".toList, .of_all rfl rfl, by decide⟩

def notedTag : StartTag :=
  ⟨['a'], [openTitle, closingNote, twoClasses], .of_all rfl rfl⟩

theorem names_startTags_notedTag :
    [notedTag].flatMap (·.text) =
      "<a title=\x22class='\x22 note=\x22it's\x22 class=\x22card  wide\x22>".toList ∧
    "card" ∈ (ofHtml (String.ofList ([notedTag].flatMap (·.text)))).classes ∧
    "wide" ∈ (ofHtml (String.ofList ([notedTag].flatMap (·.text)))).classes := by
  have hover : ∀ front b between,
      [.opening notedTag.name notedTag.named, .assigned openTitle, .assigned closingNote] =
        front ++ TagPart.assigned b :: between →
      ¬ RunsOver twoClasses.name b.value (between.flatMap (·.text))
        ([TagPart.assigned twoClasses, .ending].flatMap (·.text)) := by
    intro front b between he
    match front with
    | [] => exact absurd (List.cons.inj he).1 (by simp)
    | [_] =>
      obtain ⟨-, he⟩ := List.cons.inj he
      obtain ⟨-, rfl⟩ := List.cons.inj he
      exact not_runsOver_of_quotes (by decide) (by decide)
    | [_, _] =>
      obtain ⟨-, he⟩ := List.cons.inj he
      obtain ⟨-, he⟩ := List.cons.inj he
      obtain ⟨hb, -⟩ := List.cons.inj he
      rw [← TagPart.assigned.inj hb]
      exact not_runsOver_of_not_infix (by decide)
    | _ :: _ :: _ :: front => exact absurd (congrArg List.length he) (by simp)
  have hparts : [notedTag].flatMap (·.parts) = [.opening notedTag.name notedTag.named,
      .assigned openTitle, .assigned closingNote] ++ .assigned twoClasses :: [.ending] := rfl
  obtain ⟨hclasses, -⟩ := names_startTags hparts hover
  exact ⟨rfl, hclasses rfl "card".toList (by decide), hclasses rfl "wide".toList (by decide)⟩

/-- a value that opens a class, so that the text up to the next attribute is its value -/
def luringTag : StartTag :=
  ⟨['a'], [⟨"title".toList, "class=".toList, .of_all rfl rfl, by decide⟩,
    ⟨"class".toList, ['x'], .of_all rfl rfl, by decide⟩],
    .of_all rfl rfl⟩

theorem names_luringTag : ∃ a ∈ luringTag.attributes, a.name = "class".toList ∧
    ∃ w ∈ words a.value,
      String.ofList w ∉ (ofHtml (String.ofList ([luringTag].flatMap (·.text)))).classes := by
  refine ⟨_, List.mem_cons_of_mem _ List.mem_cons_self, rfl, ['x'], by decide, ?_⟩
  rw [NameSet.mem_iff]
  decide +kernel

end CssOptimizer.Usage
