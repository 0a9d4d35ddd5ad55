import CssOptimizer.Proofs.Selector.Names
import CssOptimizer.Usage.Jsx

/-!
# Recorded tags as selectors

A tag of HTML is recorded in lower case, and one of a component source as it is written.  Tags are
looked up in lower case, so a recorded tag covers the selector it is written as only if its form in
lower case is recorded too.

* `Markup`                 a source, with its usage and the tags written in it;
* `Markup.Scanned`         what sources and merges of their usages give;
* `covers_name_iff`        when a name is covered as a selector;
* `tags_of_scanned`        the recorded tags, and which of them are covered.
-/

namespace CssOptimizer
open Text

/-! ## names as selectors -/

/-- a name that starts with a letter -/
structure TagName (name : List Char) : Prop where
  isName : ∀ c ∈ name, isName c = true
  letter : ∃ c rest, name = c :: rest ∧ isAsciiLetter c = true

namespace TagName

theorem of_all {name : List Char} (hn : name.all Text.isName = true)
    (hl : name.head?.any isAsciiLetter = true) : TagName name := by
  cases name with
  | nil => exact absurd hl (by simp)
  | cons c rest => exact ⟨List.all_eq_true.mp hn, c, rest, rfl, hl⟩

variable {name : List Char} (h : TagName name)
include h

theorem ne_nil : name ≠ [] := by
  obtain ⟨c, rest, rfl, -⟩ := h.letter
  exact List.cons_ne_nil c rest

theorem not_mem {d : Char} (hd : Text.isName d = false) : d ∉ name :=
  Selector.not_mem_of_isName h.isName hd

theorem trimmed : Trimmed name :=
  trimmed_of_not_isBlank fun c hc => isBlank_of_isName (h.isName c hc)

theorem components_eq : Selector.components (String.ofList name) = [String.ofList name] := by
  have htrim : trim name = name := h.trimmed
  have hne : trim name ≠ [] := by
    rw [htrim]
    exact h.ne_nil
  rw [Selector.components, String.toList_ofList,
    Selector.componentChars_of_no_comma (h.not_mem (by decide)) hne, htrim]
  rfl

theorem tag?_eq : Selector.tag? (String.ofList name) = some (String.ofList (lowerAscii name)) := by
  have hletter : name.head?.all isAsciiLetter = true := by
    obtain ⟨c, rest, rfl, hc⟩ := h.letter
    exact hc
  have hread : Selector.leadingTag name = some name := by
    have happend := Selector.leadingTag_append hletter h.ne_nil h.isName endsNames_nil
    rwa [List.append_nil] at happend
  rw [Selector.tag?, String.toList_ofList, h.trimmed.start, hread]
  rfl

theorem isPrefixOf_eq_false {mark : List Char} {d : Char} (hm : d ∈ mark)
    (hd : Text.isName d = false) : mark.isPrefixOf name = false := by
  rw [Bool.eq_false_iff]
  intro hp
  exact h.not_mem hd ((List.isPrefixOf_iff_prefix.mp hp).subset hm)

/-- a name is global only as a tag -/
theorem isGlobal_eq : Selector.isGlobal (String.ofList name) =
    (Selector.tag? (String.ofList name) == some "html" ||
      Selector.tag? (String.ofList name) == some "body") := by
  have hroot : ":root".toList.isPrefixOf name = false :=
    h.isPrefixOf_eq_false List.mem_cons_self (by decide)
  have hstar : "*".toList.isPrefixOf name = false :=
    h.isPrefixOf_eq_false List.mem_cons_self (by decide)
  have hstart : trimStart (String.ofList name).toList = name := by
    rw [String.toList_ofList]
    exact h.trimmed.start
  simp only [Selector.isGlobal, hstart, hroot, hstar, Bool.false_or]

/-- nothing that opens with a mark stands in a name -/
theorem map_occurrences_eq_nil {m : Pattern (List Char)} {mark : Char} (ho : Opened m mark)
    (hd : Text.isName mark = false) :
    (occurrences m (String.ofList name).toList).map String.ofList = [] := by
  rw [String.toList_ofList, occurrences_eq_nil ho (h.not_mem hd)]
  rfl

/-- a name is covered if its form in lower case is a recorded tag or a global one -/
theorem covers_iff (u : Usage) : u.covers (String.ofList name) = true ↔
    String.ofList (lowerAscii name) ∈ u.tags ∨
      String.ofList (lowerAscii name) ∈ ["html", "body"] := by
  have hclasses : Selector.classes (String.ofList name) = [] :=
    h.map_occurrences_eq_nil (Selector.opened_marked (by decide)) (by decide)
  have hids : Selector.ids (String.ofList name) = [] :=
    h.map_occurrences_eq_nil (Selector.opened_marked (by decide)) (by decide)
  have hdata : Selector.dataAttributes (String.ofList name) = [] :=
    h.map_occurrences_eq_nil Selector.opened_bracketedData (by decide)
  rw [Usage.covers, h.components_eq, List.any_cons, List.any_nil, Bool.or_false,
    Usage.coversComponent, h.isGlobal_eq, hclasses, hids, hdata, h.tag?_eq]
  simp only [List.any_nil, Bool.or_false, Option.any_some, Bool.or_eq_true, NameSet.contains_iff,
    beq_iff_eq, Option.some.injEq, List.mem_cons, List.not_mem_nil, or_false]
  exact or_comm

end TagName

/-! ## tags in markup -/

theorem tagName_of_leadingTag {cs name : List Char} (h : Selector.leadingTag cs = some name) :
    TagName name := by
  cases cs with
  | nil => exact absurd h (by simp [Selector.leadingTag])
  | cons c cs =>
    rw [Selector.leadingTag] at h
    split at h
    · rename_i hc
      rw [← Option.some.inj h]
      have hname : isName c = true := isName_of_isAsciiName (isAsciiName_of_isAsciiLetter hc)
      exact ⟨List.forall_mem_cons.mpr ⟨hname, fun d hd => isName_of_mem_leadingName hd⟩,
        c, leadingName cs, rfl, hc⟩
    · exact absurd h (by simp)

theorem tagName_of_htmlTag {before : Option Char} {cs name : List Char} {n : Nat}
    (h : Usage.htmlTag before cs = some (name, n)) : TagName name := by
  unfold Usage.htmlTag at h
  split at h
  · obtain ⟨name', hname, he⟩ := Option.map_eq_some_iff.mp h
    rw [Prod.mk.injEq] at he
    rw [← he.1]
    exact tagName_of_leadingTag hname
  · exact absurd h (by simp)

theorem tagName_of_jsxTag {source : List Char} {before : Option Char} {cs name : List Char}
    {n : Nat} (h : Usage.jsxTag source before cs = some (some name, n)) : TagName name := by
  unfold Usage.jsxTag at h
  split at h
  · rename_i c cs
    split at h
    · rename_i hc
      simp only [Option.some.injEq, Prod.mk.injEq] at h
      obtain ⟨h, -⟩ := h
      split at h
      · rename_i hplain
        rw [← Option.some.inj h]
        simp only [Bool.and_eq_true, Bool.not_eq_true'] at hplain
        have hdot : '.' ∉ c :: cs.takeWhile fun c => isName c || c == '.' := by
          simpa using hplain.2.2
        refine ⟨List.forall_mem_cons.mpr ⟨isName_of_isAsciiName (isAsciiName_of_isAsciiLetter hc),
          fun d hd => ?_⟩, c, _, rfl, hc⟩
        have hd' : (isName d || d == '.') = true := List.all_eq_true.mp List.all_takeWhile d hd
        rcases Bool.or_eq_true_iff.mp hd' with hd' | hd'
        · exact hd'
        · exact absurd (List.mem_cons_of_mem c (eq_of_beq hd' ▸ hd)) hdot
      · exact absurd h (by simp)
    · exact absurd h (by simp)
  · exact absurd h (by simp)

/-! ## sources -/

inductive Markup where
  | html (text : String)
  | component (source : String)

namespace Markup

def usage : Markup → Usage
  | html text => .ofHtml text
  | component source => .ofJsx source

/-- the tags that are recorded, as they are written -/
def writtenTags : Markup → List (List Char)
  | html text => occurrences Usage.htmlTag text.toList
  | component source => (occurrences (Usage.jsxTag source.toList) source.toList).filterMap id

/-- a written tag as it is recorded -/
def recordedTag : Markup → List Char → String
  | html _, name => String.ofList (lowerAscii name)
  | component _, name => String.ofList name

theorem mem_tags_usage (m : Markup) {t : String} :
    t ∈ m.usage.tags ↔ ∃ name ∈ m.writtenTags, m.recordedTag name = t := by
  cases m with
  | html text => exact NameSet.mem_ofList.trans List.mem_map
  | component source => exact NameSet.mem_ofList.trans List.mem_map

theorem tagName_of_mem {m : Markup} {name : List Char} (h : name ∈ m.writtenTags) :
    TagName name := by
  cases m with
  | html text =>
    obtain ⟨pre, c, post, n, -, hm⟩ := exists_of_mem_occurrences h
    exact tagName_of_htmlTag hm
  | component source =>
    obtain ⟨read, hread, he⟩ := List.mem_filterMap.mp h
    obtain ⟨pre, c, post, n, -, hm⟩ := exists_of_mem_occurrences hread
    have hsome : read = some name := he
    rw [hsome] at hm
    exact tagName_of_jsxTag hm

inductive Scanned : List Markup → Usage → Prop where
  | empty : Scanned [] Usage.empty
  | source (m : Markup) : Scanned [m] m.usage
  | merge {ms ns : List Markup} {u v : Usage} (left : Scanned ms u) (right : Scanned ns v) :
      Scanned (ms ++ ns) (u.merge v)

theorem mem_tags_of_scanned {ms : List Markup} {u : Usage} (h : Scanned ms u) {t : String} :
    t ∈ u.tags ↔ ∃ m ∈ ms, ∃ name ∈ m.writtenTags, m.recordedTag name = t := by
  induction h with
  | empty => exact ⟨fun h => absurd h (NameSet.not_mem_empty t), fun ⟨m, hm, _⟩ =>
      absurd hm List.not_mem_nil⟩
  | source m =>
    rw [m.mem_tags_usage]
    simp only [List.mem_singleton, exists_eq_left]
  | merge left right ihl ihr =>
    rw [Usage.mem_merge_tags, ihl, ihr]
    simp only [List.mem_append, or_and_right, exists_or]

/-- the recorded tags are the written ones; those of HTML are in lower case and cover the selectors
they are written as, and one of a component does so only if its form in lower case is recorded or
global -/
theorem tags_of_scanned {ms : List Markup} {u : Usage} (h : Scanned ms u) :
    (∀ t, t ∈ u.tags ↔ ∃ m ∈ ms, ∃ name ∈ m.writtenTags, m.recordedTag name = t) ∧
    (∀ text, html text ∈ ms → ∀ name ∈ (html text).writtenTags,
      lowerAscii ((html text).recordedTag name).toList = ((html text).recordedTag name).toList ∧
      u.covers (String.ofList name) = true) ∧
    (∀ source, component source ∈ ms → ∀ name ∈ (component source).writtenTags,
      (u.covers (String.ofList name) = true ↔
        String.ofList (lowerAscii name) ∈ u.tags ∨
          String.ofList (lowerAscii name) ∈ ["html", "body"])) := by
  refine ⟨fun t => mem_tags_of_scanned h, ?_, ?_⟩
  · intro text hm name hn
    have hrecorded : (html text).recordedTag name ∈ u.tags :=
      (mem_tags_of_scanned h).mpr ⟨_, hm, name, hn, rfl⟩
    refine ⟨?_, ((tagName_of_mem hn).covers_iff u).mpr (Or.inl hrecorded)⟩
    rw [recordedTag, String.toList_ofList, lowerAscii_lowerAscii]
  · intro source _ name hn
    exact (tagName_of_mem hn).covers_iff u

/-- a page and a component with an element of SVG -/
def gradientSources : List Markup := [html "<DIV>", component "<linearGradient/>"]

def gradientUsage : Usage :=
  (Usage.ofHtml "<DIV>").merge (Usage.ofJsx "<linearGradient/>")

theorem tags_of_scanned_gradient :
    Scanned gradientSources gradientUsage ∧ gradientUsage.covers "DIV" = true ∧
    (gradientUsage.covers "linearGradient" = true ↔
      "lineargradient" ∈ gradientUsage.tags ∨ "lineargradient" ∈ ["html", "body"]) := by
  have h : Scanned gradientSources gradientUsage := .merge (.source _) (.source _)
  obtain ⟨-, hhtml, hcomponent⟩ := tags_of_scanned h
  have hdiv := hhtml "<DIV>" List.mem_cons_self "DIV".toList (by decide +kernel)
  have hgradient := hcomponent "<linearGradient/>" (List.mem_cons_of_mem _ List.mem_cons_self)
    "linearGradient".toList (by decide +kernel)
  exact ⟨h, hdiv.2, hgradient⟩

/-- the tag is recorded as it is written, and looked up in lower case it is not found -/
theorem covers_linearGradient :
    "linearGradient" ∈ (Usage.ofJsx "<linearGradient/>").tags ∧
    lowerAscii "linearGradient".toList ≠ "linearGradient".toList ∧
    (Usage.ofJsx "<linearGradient/>").covers "linearGradient" = false := by
  decide +kernel

end Markup
end CssOptimizer
