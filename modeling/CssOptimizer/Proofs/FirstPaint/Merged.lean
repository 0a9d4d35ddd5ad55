import CssOptimizer.Proofs.Duplicates.Sources
import CssOptimizer.Proofs.FirstPaint.Halves
import CssOptimizer.Proofs.Selector.Joined

/-!
# Merging before the first paint is cut off

A rule that the first paint needs is merged into one with the selectors of all rules with its block
key.  Wanted classes are looked for in every selector of a list, so that a rule which is needed for
its class stays needed.  The theme is told by its whole selector: a `:root` rule which is merged
with another one is no longer known as the theme.

* `namesWanted_joinSelectors`   a joined selector names a wanted class if one of its parts does;
* `not_declaresTheme_joinSelectors`   more than one selector is never the theme;
* `mergedNeeded_iff`            the merged rule is needed exactly if the rule was merged with none,
                                or one of the selectors names a wanted class.
-/

namespace CssOptimizer.FirstPaint
open Text

theorem namesWanted_joinSelectors {wanted selectors : List String} :
    namesWanted wanted (joinSelectors selectors) = true ↔
      ∃ t ∈ selectors, namesWanted wanted t = true := by
  simp only [namesWanted_iff, Selector.mem_classes_joinSelectors]
  constructor
  · rintro ⟨c, ⟨t, ht, hc⟩, hw⟩
    exact ⟨t, ht, c, hc, hw⟩
  · rintro ⟨t, ht, c, hc, hw⟩
    exact ⟨c, ⟨t, ht, hc⟩, hw⟩

theorem not_declaresTheme_joinSelectors (s t : String) (selectors : List String)
    (body : List Declaration) :
    declaresTheme (joinSelectors (s :: t :: selectors)) body = false := by
  have hcomma : ',' ∈ (joinSelectors (s :: t :: selectors)).toList := by
    rw [Selector.joinSelectors_cons_cons, String.toList_append, String.toList_append]
    exact List.mem_append_left _ (List.mem_append_right _ List.mem_cons_self)
  have hne : onString trim (joinSelectors (s :: t :: selectors)) ≠ ":root" := by
    intro hroot
    have htrim := congrArg String.toList hroot
    rw [onString, String.toList_ofList] at htrim
    obtain ⟨a, b, ha, hb, he⟩ := exists_trim (joinSelectors (s :: t :: selectors)).toList
    rw [he, htrim, List.mem_append, List.mem_append] at hcomma
    rcases hcomma with (hc | hc) | hc
    · exact absurd (ha _ hc) (by decide)
    · exact absurd hc (by decide)
    · exact absurd (hb _ hc) (by decide)
  rw [declaresTheme, beq_eq_false_iff_ne.mpr hne, Bool.false_and]

/-- a joined rule is needed as the theme only if nothing was joined -/
theorem isNeeded_joined_iff {wanted selectors : List String} {s : String} (hs : s ∈ selectors)
    {first body : List Declaration} (hfirst : selectors = [s] → first = body)
    (h : isNeeded wanted (.rule s body) = true) :
    isNeeded wanted (.rule (joinSelectors selectors) first) = true ↔
      selectors = [s] ∨ ∃ t ∈ selectors, namesWanted wanted t = true := by
  constructor
  · intro hj
    rw [isNeeded, Bool.or_eq_true, namesWanted_joinSelectors] at hj
    refine hj.imp (fun htheme => ?_) id
    rcases selectors with _ | ⟨t, _ | ⟨u, rest⟩⟩
    · exact absurd hs List.not_mem_nil
    · rw [List.mem_singleton.mp hs]
    · rw [not_declaresTheme_joinSelectors] at htheme
      exact absurd htheme Bool.false_ne_true
  · rintro (hone | hnames)
    · rw [hfirst hone, hone, Selector.joinSelectors_singleton]
      exact h
    · rw [isNeeded, namesWanted_joinSelectors.mpr hnames, Bool.or_true]

/-- a needed rule is merged into one with the selectors of all rules with its block key, which
declares the same keys where bodies were read; this rule is needed exactly if nothing was merged or
one of the selectors names a wanted class -/
theorem mergedNeeded_iff {nodes : List Node} {aboveFold : List String} {s : String}
    {body : List Declaration} (h : Node.rule s body ∈ (split aboveFold nodes).1) :
    let selectors := selectorsWithKey (blockKey body) nodes
    s ∈ selectors ∧ ∃ first, Node.rule (joinSelectors selectors) first ∈ mergeDuplicates nodes ∧
      blockKey first = blockKey body ∧
      ((∀ t b, Node.rule t b ∈ nodes → ∀ d ∈ b, Declaration.Separate d) →
        first.map Declaration.key = body.map Declaration.key) ∧
      (Node.rule (joinSelectors selectors) first ∈ (split aboveFold (mergeDuplicates nodes)).1 ↔
        selectors = [s] ∨ ∃ t ∈ selectors, namesWanted (aboveFold.map className) t = true) := by
  intro selectors
  rw [split_fst, List.mem_filter] at h
  obtain ⟨hm, hneeded⟩ := h
  have hs : s ∈ selectors := mem_selectorsWithKey.mpr ⟨body, hm, rfl⟩
  obtain ⟨first, hfirst, hkey, t, ht⟩ := exists_gathered hm
  have hsame : selectors = [s] → first = body := fun hone =>
    eq_of_selectorsWithKey hone ht hkey hm rfl
  refine ⟨hs, first, hfirst, hkey, fun hread => ?_, ?_⟩
  · exact (blockKey_eq_iff (hread t first ht) (hread s body hm)).mp hkey
  · rw [split_fst, List.mem_filter, isNeeded_joined_iff hs hsame hneeded]
    exact and_iff_right hfirst

/-- a theme whose block a rule above the fold and one below it have, too -/
def inkSheet : List Node :=
  parse ":root\x7b--ink:red\x7d.note\x7b--ink: red\x7d.hero\x7b--ink:red;\x7d"

theorem mergedNeeded_inkSheet :
    Node.rule ":root" [⟨"--ink", "red"⟩] ∈ (split ["hero"] inkSheet).1 ∧
    ∃ first, first.map Declaration.key = [Declaration.key ⟨"--ink", "red"⟩] ∧
      Node.rule ":root, .note, .hero" first ∈ (split ["hero"] (mergeDuplicates inkSheet)).1 := by
  have hm : Node.rule ":root" [⟨"--ink", "red"⟩] ∈ (split ["hero"] inkSheet).1 := by
    decide +kernel
  have hselectors : selectorsWithKey (blockKey [⟨"--ink", "red"⟩]) inkSheet =
      [":root", ".note", ".hero"] := by decide +kernel
  have hwanted : namesWanted (["hero"].map className) ".hero" = true := by decide +kernel
  obtain ⟨-, first, -, -, hkeys, hneeded⟩ := mergedNeeded_iff hm
  rw [hselectors] at hneeded
  refine ⟨hm, first, hkeys fun t b hb => ?_, hneeded.mpr (Or.inr ⟨".hero", ?_, hwanted⟩)⟩
  · exact ((read_parse _).of_mem hb).2
  · exact List.mem_cons_of_mem _ (List.mem_cons_of_mem _ List.mem_cons_self)

/-- the same block of theme variables, twice -/
def twiceThemed : List Node := parse ":root\x7b--ink:red\x7d:root\x7b--ink:red\x7d"

/-- both rules are needed as the theme, the rule that they are merged into is not -/
theorem split_twiceThemed :
    (split [] twiceThemed).1 =
      [.rule ":root" [⟨"--ink", "red"⟩], .rule ":root" [⟨"--ink", "red"⟩]] ∧
    split [] (mergeDuplicates twiceThemed) = ([], [.rule ":root, :root" [⟨"--ink", "red"⟩]]) := by
  decide +kernel

end CssOptimizer.FirstPaint
