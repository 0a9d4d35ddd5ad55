import Mathlib.Data.List.Forall2
import CssOptimizer.FirstPaint
import CssOptimizer.Proofs.Selector.Lists
import CssOptimizer.Proofs.Sheet.Behind
import CssOptimizer.Theme

/-!
# Both halves of a stylesheet are read back

* `isNeeded_mono`           with more names above the fold more nodes are needed;
* `FirstPaint.dotted`       a name with a dot before it (`dotted_eq`), which is the same class name
                            (`className_dotted`);
* `parse_behindTheme`       the theme is read in front of the nodes behind it, in whatever way each
                            is printed;
* `halved_of_canonical`     the halves of a canonical stylesheet hold all of its nodes, each once
                            and in order.
-/

namespace CssOptimizer.FirstPaint
open Scan Text

/-! ## names above the fold -/

/-- a selector names a wanted class if one stands anywhere in it -/
theorem namesWanted_iff {wanted : List String} {selector : String} :
    namesWanted wanted selector = true ↔ ∃ c ∈ Selector.classes selector, c ∈ wanted := by
  rw [namesWanted, List.any_eq_true]
  constructor
  · rintro ⟨component, hcomponent, hany⟩
    obtain ⟨c, hc, hw⟩ := List.any_eq_true.mp hany
    exact ⟨c, Selector.mem_classes_iff.mpr ⟨component, hcomponent, hc⟩, List.contains_iff_mem.mp hw⟩
  · rintro ⟨c, hc, hw⟩
    obtain ⟨component, hcomponent, hc⟩ := Selector.mem_classes_iff.mp hc
    exact ⟨component, hcomponent, List.any_eq_true.mpr ⟨c, hc, List.contains_iff_mem.mpr hw⟩⟩

theorem isNeeded_mono {wanted more : List String} (h : wanted ⊆ more) {node : Node}
    (hn : isNeeded wanted node = true) : isNeeded more node = true := by
  cases node with
  | declaration d => exact hn
  | atRule n p c => exact hn
  | rule s body =>
    rw [isNeeded, Bool.or_eq_true] at hn ⊢
    refine hn.imp id fun hw => ?_
    obtain ⟨c, hc, hm⟩ := namesWanted_iff.mp hw
    exact namesWanted_iff.mpr ⟨c, hc, h hm⟩

/-- a name with a dot before it; blanks in front of the name stay in front of the dot -/
def dotted (name : String) : String :=
  onString (fun cs => cs.takeWhile isBlank ++ '.' :: trimStart cs) name

theorem dotted_eq {name : String} (h : trimStart name.toList = name.toList) :
    dotted name = "." ++ name := by
  have hnone : name.toList.takeWhile isBlank = [] := by
    cases hc : name.toList with
    | nil => rfl
    | cons c cs =>
      have hblank : isBlank c = false := not_isBlank_of_trimStart (hc ▸ h)
      exact List.takeWhile_cons_of_neg (by rw [hblank]; exact Bool.false_ne_true)
  rw [← String.toList_inj, dotted, onString, String.toList_ofList, hnone, h, String.toList_append]
  rfl

theorem className_dotted (name : String) : className (dotted name) = className name := by
  have hdot : isBlank '.' = false := rfl
  have hblank : Blank (name.toList.takeWhile isBlank) := List.all_eq_true.mp List.all_takeWhile
  have htrim : trim (dotted name).toList = '.' :: trim name.toList := by
    have hend := trimEnd_append_cons [] hdot (trimStart name.toList)
    rw [List.nil_append, List.nil_append] at hend
    rw [dotted, onString, String.toList_ofList, trim, trimStart_blank hblank,
      trimStart_of_not_isBlank hdot, hend]
    rfl
  rw [className, className, onString, onString, htrim]
  rfl

/-- names written with a dot or without it -/
theorem map_className_of_dotted {names others : List String}
    (h : List.Forall₂ (fun name other => other = name ∨ other = dotted name) names others) :
    others.map className = names.map className := by
  induction h with
  | nil => rfl
  | cons hone _ ih =>
    rw [List.map_cons, List.map_cons, ih]
    rcases hone with rfl | rfl
    · rfl
    · rw [className_dotted]

/-! ## texts -/

theorem parse_behindTheme {nodes : List Node} (h : Lasting nodes) {t : Theme}
    (ht : t.isEmpty = false) (hroot : Lasting [t.node]) (compact minify : Bool) :
    parse (behindTheme (some (t.css compact)) minify nodes) = t.node :: nodes := by
  have hcss : t.css compact = printSheet compact [t.node] := if_neg (by simp [ht])
  have hline (b : Bool) : Blank (if b then "\n" else "").toList := by
    cases b
    · exact blank_nil
    · exact blank_lineEnd false
  rw [behindTheme, hcss, String.append_assoc, parse_printSheet_append hroot,
    parse_blanks_append (hline _), h.parse]
  rfl

/-- what the halves of a stylesheet hold -/
structure Halved (aboveFold : List String) (minify : Bool) (nodes : List Node) : Prop where
  /-- the critical half holds the nodes that are needed -/
  critical : parse (render aboveFold none minify nodes).critical =
    nodes.filter (isNeeded (aboveFold.map className))
  /-- the deferred half holds the others, whatever the theme -/
  deferred : ∀ theme, parse (render aboveFold theme minify nodes).deferred =
    nodes.filter (!isNeeded (aboveFold.map className) ·)
  /-- a theme stands before the nodes that are needed, in whatever way it is printed -/
  themed : ∀ t : Theme, t.isEmpty = false → Canonical [t.node] → ∀ compact,
    parse (render aboveFold (some (t.css compact)) minify nodes).critical =
      t.node :: nodes.filter (isNeeded (aboveFold.map className))
  /-- more names above the fold only move nodes from the deferred half to the critical one -/
  enlarged : ∀ more, aboveFold ⊆ more →
    (parse (render aboveFold none minify nodes).critical).Sublist
      (parse (render more none minify nodes).critical) ∧
    (parse (render more none minify nodes).deferred).Sublist
      (parse (render aboveFold none minify nodes).deferred)
  /-- it makes no difference which names are written with a dot -/
  dotted : ∀ others,
    List.Forall₂ (fun name other => other = name ∨ other = dotted name) aboveFold others →
    ∀ theme, render others theme minify nodes = render aboveFold theme minify nodes

section
variable {nodes : List Node} (h : Lasting nodes) (aboveFold : List String) (minify : Bool)
include h

theorem parse_critical : parse (render aboveFold none minify nodes).critical =
    nodes.filter (isNeeded (aboveFold.map className)) := by
  show parse (printSheet minify (split aboveFold nodes).1) = _
  rw [split_fst]
  exact (h.filter _).parse minify

theorem parse_deferred (theme : Option String) :
    parse (render aboveFold theme minify nodes).deferred =
      nodes.filter (!isNeeded (aboveFold.map className) ·) := by
  show parse (printSheet minify (split aboveFold nodes).2) = _
  rw [split_snd]
  exact (h.filter _).parse minify

end

/-- both halves of a canonical stylesheet are read back as its nodes: those that are needed and the
others, each in document order -/
theorem halved_of_canonical {nodes : List Node} (h : Canonical nodes) (aboveFold : List String)
    (minify : Bool) : Halved aboveFold minify nodes where
  critical := parse_critical (lasting_of_canonical h) aboveFold minify
  deferred := parse_deferred (lasting_of_canonical h) aboveFold minify
  themed t ht hroot compact := by
    show parse (behindTheme _ minify (split aboveFold nodes).1) = _
    rw [split_fst]
    exact parse_behindTheme ((lasting_of_canonical h).filter _) ht (lasting_of_canonical hroot)
      compact minify
  enlarged more hmore := by
    have hnames : aboveFold.map className ⊆ more.map className := List.map_subset _ hmore
    rw [parse_critical (lasting_of_canonical h), parse_critical (lasting_of_canonical h),
      parse_deferred (lasting_of_canonical h), parse_deferred (lasting_of_canonical h)]
    constructor
    · exact List.monotone_filter_right nodes fun node => isNeeded_mono hnames
    · refine List.monotone_filter_right nodes fun node hn => ?_
      rw [Bool.not_eq_true'] at hn ⊢
      exact Bool.eq_false_iff.mpr fun hneeded =>
        Bool.eq_false_iff.mp hn (isNeeded_mono hnames hneeded)
  dotted others hothers theme := by
    rw [render, render, split, split, map_className_of_dotted hothers]

/-- a theme variable, rules above and below the fold, a resource and a conditional rule -/
def heroSheet : List Node :=
  [.rule ":root" [⟨"--ink", "#06f"⟩], .rule "nav, .hero > p" [⟨"font-size", "3rem"⟩],
    .rule ".footer" [⟨"color", "gray"⟩], .atRule "font-face" "" [.declaration ⟨"src", "url(;)"⟩],
    .atRule "media" "print" [.rule ".hero" [⟨"display", "none"⟩]]]

def heroTheme : Theme := ({} : Theme).withToken "space" "sm" "4px"

theorem halved_heroSheet :
    Canonical heroSheet ∧ Halved ["hero"] false heroSheet ∧
    heroTheme.isEmpty = false ∧ Canonical [heroTheme.node] ∧
    parse (render ["hero"] (some (heroTheme.css true)) false heroSheet).critical =
      [.rule ":root" [⟨"--space-sm", "4px"⟩], .rule ":root" [⟨"--ink", "#06f"⟩],
        .rule "nav, .hero > p" [⟨"font-size", "3rem"⟩],
        .atRule "font-face" "" [.declaration ⟨"src", "url(;)"⟩]] ∧
    (parse (render ["hero", "footer"] none false heroSheet).deferred).Sublist
      (parse (render ["hero"] none false heroSheet).deferred) ∧
    render [".hero"] none false heroSheet = render ["hero"] none false heroSheet := by
  have h : Canonical heroSheet := by decide +kernel
  have ht : heroTheme.isEmpty = false := by decide +kernel
  have hroot : Canonical [heroTheme.node] := by decide +kernel
  have hdot : ".hero" = dotted "hero" := by
    rw [dotted_eq (by decide +kernel)]
    rfl
  have hneeded : heroTheme.node :: heroSheet.filter (isNeeded (["hero"].map className)) =
      [.rule ":root" [⟨"--space-sm", "4px"⟩], .rule ":root" [⟨"--ink", "#06f"⟩],
        .rule "nav, .hero > p" [⟨"font-size", "3rem"⟩],
        .atRule "font-face" "" [.declaration ⟨"src", "url(;)"⟩]] := by decide +kernel
  have hhalved := halved_of_canonical h ["hero"] false
  refine ⟨h, hhalved, ht, hroot, ?_, ?_, ?_⟩
  · rw [hhalved.themed heroTheme ht hroot true, hneeded]
  · exact (hhalved.enlarged ["hero", "footer"] (by decide)).2
  · exact hhalved.dotted [".hero"] (.cons (Or.inr hdot) .nil) none

end CssOptimizer.FirstPaint
