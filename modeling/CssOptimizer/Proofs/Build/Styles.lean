import CssOptimizer.Proofs.Atomic.Lasting
import CssOptimizer.Proofs.Build.Modules
import CssOptimizer.Proofs.Optimize
import CssOptimizer.Proofs.Optimize.Again
import CssOptimizer.Proofs.Registry.ReadBack
import CssOptimizer.Proofs.Sheet.Behind

/-!
# Used classes are styled

A build puts the stylesheet of its registry out, and the modules keep their class names.  So what
is registered for a class that they use has to stand under this class in what is put out.

* `Styles sheet nodes selector d`   a rule with the selector in its list holds the declaration;
* `exists_styles_mergeStep`, `Styles.atomicStep`   what the steps keep of this;
* `BuildStep.ReadsBack`, `BuildStep.Session`   what is registered is read back, for classes that
                                    start with word characters;
* `exists_parse_text`               then so is what is put out, with a line behind it or without;
* `exists_generate_styles`          each declaration of a used class stands under it, or was taken
                                    out of its rule;
* `leavesUnstyled_builds`           why no more can be said.

A declaration that is taken out is missing under its class: modules keep their code, and nothing
tells them which atomic class stands for it.
-/

namespace CssOptimizer
open Scan Text

/-! ## declarations under a selector -/

/-- a rule holds the declaration whose selectors are selectors of the stylesheet, the given one
among them -/
def Styles (sheet nodes : List Node) (selector : String) (d : Declaration) : Prop :=
  ∃ selectors body, Node.rule (joinSelectors selectors) body ∈ nodes ∧ selector ∈ selectors ∧
    (∀ s ∈ selectors, ∃ b, Node.rule s b ∈ sheet) ∧ d ∈ body

section
variable {sheet nodes : List Node} {selector : String} {d : Declaration}

theorem Styles.append (h : Styles sheet nodes selector d) (more : List Node) :
    Styles sheet (nodes ++ more) selector d := by
  obtain ⟨selectors, body, hm, h⟩ := h
  exact ⟨selectors, body, List.mem_append_left _ hm, h⟩

theorem exists_styles_mergeStep (options : Options) {o : Optimized} (h : Lasting o.nodes)
    {body : List Declaration} (hm : Node.rule selector body ∈ o.nodes) (hd : d ∈ body) :
    ∃ e : Declaration, e.key = d.key ∧ (options.deduplicate = false → e = d) ∧
      Styles o.nodes (mergeStep options o).nodes selector e := by
  cases hmerge : options.deduplicate with
  | false =>
    refine ⟨d, rfl, fun _ => rfl, [selector], body, ?_, List.mem_singleton_self _, ?_, hd⟩
    · rw [mergeStep, hmerge, Selector.joinSelectors_singleton]
      exact hm
    · exact List.forall_mem_singleton.mpr ⟨body, hm⟩
  | true =>
    obtain ⟨selectors, first, hfirst, hkeys, hsel, -, hall⟩ :=
      @exists_mergeStep options o (fun s b => separate_of_read h.read) selector body hm
    obtain ⟨e, he, hkey⟩ : ∃ e ∈ first, e.key = d.key :=
      List.mem_map.mp (hkeys ▸ List.mem_map_of_mem hd)
    exact ⟨e, hkey, fun hf => absurd hf (by decide), selectors, first, hfirst, hsel, hall, he⟩

theorem Styles.atomicStep {options : Options} {o : Optimized}
    (h : Styles sheet o.nodes selector d) (hstay : ¬ options.TakesOut o.nodes d.key)
    (hash : String → String) :
    Styles sheet (atomicStep hash options o).nodes selector d := by
  obtain ⟨selectors, body, hm, hsel, hall, hd⟩ := h
  obtain ⟨kept, hkept, hdkept⟩ := exists_kept hash hm hd hstay
  exact ⟨selectors, kept, hkept, hsel, hall, hdkept⟩

end

namespace BuildStep

/-! ## the stylesheet of a build -/

/-- the stylesheet before it is optimized -/
def sheetNodes (x : BuildStep) : List Node := parse (x.registry.sheet x.theme)

/-- what all steps but the atomic one leave of it -/
def merged (x : BuildStep) : Optimized :=
  mergeStep x.options (purgeStep x.options x.usage { nodes := x.sheetNodes })

/-- the nodes of each entry of the registry, and that of a theme with tokens, are read back from
what is printed of them -/
structure ReadsBack (x : BuildStep) : Prop where
  entries : ∀ e ∈ x.registry.entries, parse (printSheet false e.nodes) = e.nodes
  theme : ∀ t ∈ x.theme, t.isEmpty = false → parse (printSheet false [t.node]) = [t.node]

/-- the theme, then everything registered -/
theorem exists_sheetNodes {x : BuildStep} (h : x.ReadsBack) :
    ∃ front, x.sheetNodes = front ++ x.registry.nodes ∧ Lasting x.sheetNodes := by
  have hregistry : Lasting x.registry.nodes := by
    rw [Registry.nodes, List.flatMap_def]
    refine lasting_flatten fun nodes hn => ?_
    obtain ⟨e, he, rfl⟩ := List.mem_map.mp hn
    exact (lasting_iff_parse false).mpr (h.entries e he)
  have hfront : ∃ front, Lasting front ∧
      (x.theme.map (Theme.css false)).getD "" = printSheet false front := by
    cases ht : x.theme with
    | none => exact ⟨[], lasting_nil, rfl⟩
    | some t =>
      cases hempty : t.isEmpty with
      | true => exact ⟨[], lasting_nil, if_pos hempty⟩
      | false =>
        refine ⟨[t.node], (lasting_iff_parse false).mpr (h.theme t ht hempty), if_neg ?_⟩
        rw [hempty]
        exact Bool.false_ne_true
  obtain ⟨front, hlasting, htheme⟩ := hfront
  have hall : Lasting (front ++ x.registry.nodes) := lasting_append.mpr ⟨hlasting, hregistry⟩
  have hsheet : x.registry.sheet x.theme = printSheet false (front ++ x.registry.nodes) := by
    rw [Registry.sheet, htheme]
    exact (pretty_append 0 front x.registry.nodes).symm
  have hnodes : x.sheetNodes = front ++ x.registry.nodes := by
    rw [sheetNodes, hsheet, hall.parse]
  exact ⟨front, hnodes, hnodes ▸ hall⟩

theorem lasting_merged {x : BuildStep} (h : x.ReadsBack) : Lasting x.merged.nodes := by
  obtain ⟨-, -, hsheet⟩ := exists_sheetNodes h
  exact (Lasting.purgeStep (o := { nodes := x.sheetNodes }) hsheet).mergeStep

theorem exists_parse_text {x : BuildStep} (h : x.ReadsBack)
    (hcloses : x.options.ClosesShared x.merged.nodes) :
    ∃ more, parse x.text = (atomicStep Digest.hexDigest x.options x.merged).nodes ++ more ∧
      (x.options.sourceMap = false → more = []) := by
  have hcss : x.outcome.css = printSheet x.options.minify
      (atomicStep Digest.hexDigest x.options x.merged).nodes := rfl
  have hlasting : Lasting (atomicStep Digest.hexDigest x.options x.merged).nodes :=
    (lasting_merged h).atomicStep isName_hexDigest hcloses
  rw [text, hcss]
  cases hmap : x.options.sourceMap with
  | false =>
    refine ⟨[], ?_, fun _ => rfl⟩
    rw [if_neg Bool.false_ne_true, String.append_empty, hlasting.parse, List.append_nil]
  | true =>
    rw [if_pos rfl]
    exact ⟨_, parse_printSheet_append hlasting x.options.minify (mapTrailer x.fileName),
      fun hf => absurd hf (by decide)⟩

/-- the stylesheet is put out under its name -/
theorem exists_generate_text (x : BuildStep) (b : Bundle) :
    ∃ b', x.generate b = .ok b' ∧ b'.get? x.fileName = some x.text := by
  refine ⟨_, generate_eq x b, ?_⟩
  split
  · rw [Bundle.get?_emit, if_neg (mapPath_ne x.fileName), Bundle.get?_emit, if_pos rfl]
  · rw [Bundle.get?_emit, if_pos rfl]

/-! ## used classes -/

/-- a build with a registry behind a run of calls, whose classes start with word characters and
whose nodes are read back -/
structure Session (hash : String → String) (x : BuildStep) : Prop extends ReadsBack x where
  run : ∃ classPrefix calls, x.registry = Registry.run hash classPrefix calls ∧
    ∀ c ∈ classPrefix.toList, isName c = true

section
variable {x : BuildStep} {hash : String → String} (h : x.Session hash)
include h

/-- the rule of a class stays if the class is used -/
theorem keeps_class {className : String} {body : List Declaration}
    (hbody : x.registry.declarations? className = some body)
    (hused : className ∈ x.modules.merged.classes) :
    x.options.Keeps x.usage ("." ++ className) := by
  intro _ u hu
  obtain ⟨classPrefix, calls, hregistry, hword⟩ := h.run
  rw [hregistry] at hbody
  obtain ⟨id, rfl, -⟩ := Registry.rule_of_declarations? hbody
  have hmerged : u = x.modules.merged := by
    rw [usage] at hu
    split at hu
    · exact absurd hu (by simp)
    · exact (Option.some.inj hu).symm
  have hname : ∀ c ∈ (classPrefix ++ toString id).toList, isName c = true := by
    rw [String.toList_append]
    exact List.forall_mem_append.mpr
      ⟨hword, fun c hc => isName_of_isDigit (isDigit_toString hc)⟩
  have hne : (classPrefix ++ toString id).toList ≠ [] := by
    rw [String.toList_append]
    exact List.append_ne_nil_of_right_ne_nil _ (toString_ne_nil id)
  exact Usage.covers_dot hname hne (hmerged ▸ hused)

/-- what is registered for a used class stands under it behind all steps but the atomic one -/
theorem exists_styles_merged {className : String} {body : List Declaration}
    (hbody : x.registry.declarations? className = some body)
    (hused : className ∈ x.modules.merged.classes) {d : Declaration} (hd : d ∈ body) :
    ∃ e : Declaration, e.key = d.key ∧ (x.options.deduplicate = false → e = d) ∧
      Styles x.sheetNodes x.merged.nodes ("." ++ className) e := by
  obtain ⟨front, hsheet, hlasting⟩ := exists_sheetNodes h.toReadsBack
  have hrule : Node.rule ("." ++ className) body ∈ x.sheetNodes := by
    obtain ⟨classPrefix, calls, hregistry, -⟩ := h.run
    obtain ⟨-, -, hm⟩ := Registry.rule_of_declarations? (hregistry ▸ hbody)
    rw [hsheet, hregistry]
    exact List.mem_append_right _ hm
  have hpurged : Node.rule ("." ++ className) body ∈
      (purgeStep x.options x.usage { nodes := x.sheetNodes }).nodes :=
    mem_purgeStep.mpr ⟨hrule, keeps_class h hbody hused⟩
  have hpurge : Lasting (purgeStep x.options x.usage { nodes := x.sheetNodes }).nodes :=
    Lasting.purgeStep (o := { nodes := x.sheetNodes }) hlasting
  obtain ⟨e, hkey, he, selectors, kept, hm, hsel, hall, hekept⟩ :=
    exists_styles_mergeStep x.options hpurge hpurged hd
  refine ⟨e, hkey, he, selectors, kept, hm, hsel, fun s hs => ?_, hekept⟩
  obtain ⟨b, hb⟩ := hall s hs
  exact ⟨b, (mem_purgeStep.mp hb).1⟩

end

/-- where a key is that was taken out: an atomic rule declares it, and no rule behind these does;
what is read behind the stylesheet belongs to the line that names the source map -/
def TakenOut (x : BuildStep) (nodes : List Node) (key : DeclarationKey) : Prop :=
  ∃ atomic left more, nodes = atomic ++ left ++ more ∧
    (x.options.sourceMap = false → more = []) ∧
    (∀ rule ∈ atomic, ∃ k name, Shared x.merged.nodes k ∧ rule = atomicRule (k, name)) ∧
    (∃ name, atomicRule (key, name) ∈ atomic) ∧ ∀ s, ¬ Declares left s key

/-- each declaration of a used class stands under it, where rules are merged in a spelling with
its key, unless it was taken out -/
def StylesOrTakesOut (x : BuildStep) (nodes : List Node) : Prop :=
  ∀ className ∈ x.modules.merged.classes, ∀ body,
    x.registry.declarations? className = some body → ∀ d ∈ body,
      (¬ x.options.TakesOut x.merged.nodes d.key →
        ∃ e : Declaration, e.key = d.key ∧ (x.options.deduplicate = false → e = d) ∧
          Styles x.sheetNodes nodes ("." ++ className) e) ∧
      (x.options.TakesOut x.merged.nodes d.key → x.TakenOut nodes d.key)

theorem exists_rule_merged {x : BuildStep} {s : String} {body : List Declaration}
    (h : Node.rule s body ∈ x.merged.nodes) : ∃ t, Node.rule t body ∈ x.sheetNodes := by
  have hmerge {o : Optimized} (h : Node.rule s body ∈ (mergeStep x.options o).nodes) :
      ∃ t, Node.rule t body ∈ o.nodes := by
    rw [mergeStep] at h
    split at h
    · rcases mergedFrom_of_mem h with ⟨-, hrule⟩ | ⟨t, selectors, b, he, hm, -⟩
      · exact absurd hrule.symm Bool.false_ne_true
      · obtain ⟨-, rfl⟩ := Node.rule.inj he
        exact ⟨t, hm⟩
    · exact ⟨s, h⟩
  obtain ⟨t, ht⟩ := hmerge h
  exact ⟨t, (mem_purgeStep.mp ht).1⟩

theorem closesShared_of_canonical {x : BuildStep} (h : MeetsAll .canonical x.sheetNodes) :
    x.options.ClosesShared x.merged.nodes := by
  intro _ s body hm d hd _
  obtain ⟨t, ht⟩ := exists_rule_merged hm
  exact ((h.of_mem ht).2 d hd).2.plain.balanced isEnd_of_isBrace

/-- what is put out accounts for each declaration of a used class -/
theorem exists_generate_styles {x : BuildStep} {hash : String → String} (h : x.Session hash)
    (hcloses : x.options.ClosesShared x.merged.nodes) (b : Bundle) :
    ∃ b' text, x.generate b = .ok b' ∧ b'.get? x.fileName = some text ∧
      x.StylesOrTakesOut (parse text) := by
  obtain ⟨b', hgenerate, hget⟩ := exists_generate_text x b
  obtain ⟨more, hparse, hmore⟩ := exists_parse_text h.toReadsBack hcloses
  refine ⟨b', x.text, hgenerate, hget, fun className hused body hbody d hd => ⟨?_, ?_⟩⟩
  · intro hstay
    obtain ⟨e, hkey, he, hstyles⟩ := exists_styles_merged h hbody hused hd
    rw [← hkey] at hstay
    rw [hparse]
    exact ⟨e, hkey, he, (hstyles.atomicStep hstay Digest.hexDigest).append more⟩
  · intro htake
    obtain ⟨atomic, left, hnodes, hrules, hrule, hleft⟩ :=
      exists_takenOut Digest.hexDigest htake
    exact ⟨atomic, left, more, by rw [hparse, hnodes], hmore, hrules, hrule, hleft⟩

/-! ## builds -/

/-- a build with the prefix `c` in which one component was shown -/
def shown (options : Options) (theme : Option Theme) (calls : List Registry.Call)
    (classNames : String) : BuildStep :=
  seeAll { registry := Registry.run Digest.hexDigest "c" calls, theme, options }
    [("src/App.tsx", "<div className=\x22" ++ classNames ++ "\x22/>")]

theorem session_shown {options : Options} {theme : Option Theme} {calls : List Registry.Call}
    {classNames : String}
    (hentries : ∀ e ∈ (Registry.run Digest.hexDigest "c" calls).entries,
      parse (printSheet false e.nodes) = e.nodes)
    (htheme : ∀ t ∈ theme, t.isEmpty = false → parse (printSheet false [t.node]) = [t.node]) :
    (shown options theme calls classNames).Session Digest.hexDigest := by
  have hname : isName 'c' = true := by decide
  have hshown : shown options theme calls classNames =
      { shown options theme calls classNames with
        registry := Registry.run Digest.hexDigest "c" calls, theme, options } := by
    rw [shown, seeAll_eq_with]
  rw [hshown]
  exact ⟨⟨hentries, htheme⟩, "c", calls, rfl, List.forall_mem_singleton.mpr hname⟩

/-- a block and a body with a declaration in common -/
def sharedCalls : List Registry.Call :=
  [.register (.block ".a\x7bcolor:red\x7d.b\x7bcolor:red\x7d"),
    .register (.style "color: red; margin: 0")]

/-- every step, a source map, and a theme in front -/
def themedBuild : BuildStep :=
  shown { Options.production with stripAtomic := true, sourceMap := true }
    (some (Theme.withToken {} "space" "wide" "2rem")) sharedCalls "a b c1"

theorem exists_generate_themedBuild :
    themedBuild.Session Digest.hexDigest ∧
    themedBuild.options.ClosesShared themedBuild.merged.nodes ∧
    "c1" ∈ themedBuild.modules.merged.classes ∧
    ∃ b' text, themedBuild.generate [] = .ok b' ∧ b'.get? themedBuild.fileName = some text ∧
      themedBuild.StylesOrTakesOut (parse text) := by
  have hsession : themedBuild.Session Digest.hexDigest := by
    refine session_shown (by decide +kernel) fun t ht _ => ?_
    rw [← Option.some.inj ht]
    decide +kernel
  have hcloses : themedBuild.options.ClosesShared themedBuild.merged.nodes :=
    closesShared_of_canonical (by decide +kernel)
  exact ⟨hsession, hcloses, by decide +kernel, exists_generate_styles hsession hcloses []⟩

/-! ## where this is all that holds -/

/-- each declaration of a used class stands under it, whatever else is in the list -/
def StylesUsed (x : BuildStep) (nodes : List Node) : Prop :=
  ∀ className ∈ x.modules.merged.classes, ∀ body,
    x.registry.declarations? className = some body → ∀ d ∈ body,
      ∃ selectors kept, Node.rule (joinSelectors selectors) kept ∈ nodes ∧
        "." ++ className ∈ selectors ∧ d ∈ kept

/-- a used class lacks a declaration in what is put out -/
def LeavesUnstyled (x : BuildStep) : Prop :=
  x.Session Digest.hexDigest ∧ ∃ b' text, x.generate [] = .ok b' ∧
    b'.get? x.fileName = some text ∧ ¬ x.StylesUsed (parse text)

theorem leavesUnstyled {x : BuildStep} (h : x.Session Digest.hexDigest) {className : String}
    {body : List Declaration} {d : Declaration} (hused : className ∈ x.modules.merged.classes)
    (hbody : x.registry.declarations? className = some body) (hd : d ∈ body)
    (hnone : ∀ node ∈ parse x.text, d ∈ node.body →
      ¬ ("." ++ className).toList <:+: (node.selector?.getD "").toList) : x.LeavesUnstyled := by
  obtain ⟨b', hgenerate, hget⟩ := exists_generate_text x []
  refine ⟨h, b', x.text, hgenerate, hget, fun hall => ?_⟩
  obtain ⟨selectors, kept, hm, hsel, hkept⟩ := hall className hused body hbody d hd
  exact hnone _ hm hkept (Selector.isInfix_joinSelectors hsel)

/-- shared declarations are taken out -/
def sharedBuild : BuildStep :=
  shown { atomic := true, atomicNaming := .inSequence, stripAtomic := true, minify := true } none
    sharedCalls "c1"

/-- a body that is merged into another spelling of it -/
def respelledBuild : BuildStep :=
  shown { deduplicate := true, minify := true } none
    [.register (.block ".z\x7b(;:x)\x7d"), .register (.style "(:x)")] "c1"

/-- three rules inside rules: the part that they share opens a block -/
def nestedBuild : BuildStep :=
  shown { atomic := true, atomicNaming := .inSequence, minify := true } none
    [.register (.block ".a\x7b&:b\x7bp:1;q:1\x7d\x7d.b\x7b&:b\x7bp:1;q:2\x7d\x7d"),
      .register (.style "&:b\x7bp:1;q:3\x7d")] "c1"

theorem leavesUnstyled_builds :
    (parse sharedBuild.text = [.rule "._0" [⟨"color", "red"⟩], .rule ".c1" [⟨"margin", "0"⟩]] ∧
      sharedBuild.LeavesUnstyled) ∧
    (parse respelledBuild.text = [.rule ".z, .c1" [⟨"(;", "x)"⟩]] ∧
      respelledBuild.LeavesUnstyled) ∧
    (parse nestedBuild.text = [] ∧ nestedBuild.LeavesUnstyled) := by
  have hnotheme : ∀ t ∈ (none : Option Theme), t.isEmpty = false →
      parse (printSheet false [t.node]) = [t.node] := fun t ht => absurd ht (by simp)
  have hshared : parse sharedBuild.text =
      [.rule "._0" [⟨"color", "red"⟩], .rule ".c1" [⟨"margin", "0"⟩]] := by decide +kernel
  have hrespelled : parse respelledBuild.text = [.rule ".z, .c1" [⟨"(;", "x)"⟩]] := by
    decide +kernel
  have hnested : parse nestedBuild.text = [] := by decide +kernel
  refine ⟨⟨hshared, ?_⟩, ⟨hrespelled, ?_⟩, ⟨hnested, ?_⟩⟩
  · have hbody : sharedBuild.registry.declarations? "c1" =
        some [⟨"color", "red"⟩, ⟨"margin", "0"⟩] := by decide +kernel
    refine leavesUnstyled (session_shown (by decide +kernel) hnotheme) (by decide +kernel) hbody
      List.mem_cons_self ?_
    rw [hshared]
    decide
  · have hbody : respelledBuild.registry.declarations? "c1" = some [⟨"(", "x)"⟩] := by
      decide +kernel
    refine leavesUnstyled (session_shown (by decide +kernel) hnotheme) (by decide +kernel) hbody
      List.mem_cons_self ?_
    rw [hrespelled]
    decide
  · have hbody : nestedBuild.registry.declarations? "c1" =
        some [⟨"&", "b\x7bp:1"⟩, ⟨"q", "3\x7d"⟩] := by decide +kernel
    refine leavesUnstyled (session_shown (by decide +kernel) hnotheme) (by decide +kernel) hbody
      List.mem_cons_self ?_
    rw [hnested]
    exact fun node hn => absurd hn List.not_mem_nil

end BuildStep
end CssOptimizer
