import CssOptimizer.Proofs.Text.Occurrences
import CssOptimizer.Proofs.Text.Words
import CssOptimizer.Usage.Jsx
import Mathlib.Data.List.Infix

/-!
# Template literals

A template is static text with interpolations in it.  Masking puts one placeholder for each
interpolation, so that the words without a placeholder are the words of static text that touch no
interpolation.

* `TemplateLiteral`      static parts with expressions between them;
* `maskTemplate_text`    a template is masked as its static parts with placeholders between them;
* `templateValues_source`   the value of a `className` is found as it is written;
* `StaticWord`           words of one static part, apart from interpolations;
* `classes_template`     these are the classes that a template gives.
-/

namespace CssOptimizer.Usage
open Text

/-! ## templates -/

/-- braces are balanced: no start of a text closes more than it opens, and all are closed -/
structure BracesBalanced (cs : List Char) : Prop where
  starts : ∀ start, start <+: cs → start.count '}' ≤ start.count '{'
  closed : cs.count '}' = cs.count '{'

instance (cs : List Char) : Decidable (BracesBalanced cs) :=
  decidable_of_iff ((∀ start ∈ cs.inits, start.count '}' ≤ start.count '{') ∧
      cs.count '}' = cs.count '{')
    ⟨fun h => ⟨fun start hp => h.1 start ((List.mem_inits _ _).mpr hp), h.2⟩,
      fun h => ⟨fun start hp => h.starts start ((List.mem_inits _ _).mp hp), h.closed⟩⟩

/-- an interpolation, with the static part behind it -/
structure Interpolation where
  expression : List Char
  behind : List Char

/-- an interpolation as it is written -/
def Interpolation.text (i : Interpolation) : List Char :=
  '$' :: '{' :: (i.expression ++ '}' :: i.behind)

/-- a template without escapes: static parts in which no interpolation opens, and expressions with
balanced braces between them -/
structure TemplateLiteral where
  first : List Char
  interpolations : List Interpolation
  opensNone : ∀ s ∈ first :: interpolations.map (·.behind), ¬ ['$', '{'] <:+: s
  unmasked : ∀ s ∈ first :: interpolations.map (·.behind), placeholder ∉ s
  balanced : ∀ i ∈ interpolations, BracesBalanced i.expression
  unquoted : '\x60' ∉ first ++ interpolations.flatMap (·.text)
  unescaped : '\\' ∉ first ++ interpolations.flatMap (·.text)

namespace TemplateLiteral

/-- a template as it is written, without its quotes -/
def text (t : TemplateLiteral) : List Char := t.first ++ t.interpolations.flatMap (·.text)

/-- the static parts in order -/
def parts (t : TemplateLiteral) : List (List Char) :=
  t.first :: t.interpolations.map (·.behind)

/-- the value of a `className` -/
def source (t : TemplateLiteral) : List Char :=
  "className=\x7b\x60".toList ++ (t.text ++ "\x60\x7d".toList)

end TemplateLiteral

/-! ## masks -/

/-- static text is masked as itself, unless an interpolation opens where it ends -/
theorem maskFrom_static {s : List Char} (hs : ¬ ['$', '{'] <:+: s) {rest : List Char}
    (hrest : rest.head? ≠ some '{') : maskFrom 0 (s ++ rest) = s ++ maskFrom 0 rest := by
  induction s with
  | nil => rfl
  | cons c s ih =>
    have hs' : ¬ ['$', '{'] <:+: s := fun h => hs (h.trans (List.suffix_cons c s).isInfix)
    have hopen : ∀ cs, c = '$' → s ++ rest = '{' :: cs → False := by
      intro cs hc he
      cases s with
      | nil =>
        rw [List.nil_append] at he
        rw [he] at hrest
        exact hrest rfl
      | cons d s =>
        rw [List.cons_append, List.cons.injEq] at he
        apply hs
        rw [hc, he.1]
        exact (List.prefix_append ['$', '{'] s).isInfix
    rw [List.cons_append, maskFrom, ih hs']
    · rfl
    · exact hopen

/-- what stands inside an interpolation is passed over, and its braces are counted -/
theorem maskFrom_inside {e : List Char} {depth : Nat}
    (h : ∀ start, start <+: e → start.count '}' ≤ depth + start.count '{') (rest : List Char) :
    maskFrom (depth + 1) (e ++ rest) =
      maskFrom (depth + e.count '{' - e.count '}' + 1) rest := by
  induction e generalizing depth with
  | nil => rfl
  | cons c e ih =>
    have hstart (start : List Char) (hp : start <+: e) :
        (c :: start).count '}' ≤ depth + (c :: start).count '{' :=
      h (c :: start) (List.cons_prefix_cons.mpr ⟨rfl, hp⟩)
    by_cases hopen : c = '{'
    · subst hopen
      have hne : '{' ≠ '}' := by decide
      have hnext : ∀ start, start <+: e → start.count '}' ≤ depth + 1 + start.count '{' := by
        intro start hp
        have := hstart start hp
        rw [List.count_cons_of_ne hne, List.count_cons_self] at this
        omega
      rw [List.cons_append, maskFrom, ih hnext, List.count_cons_of_ne hne, List.count_cons_self]
      congr 2
      omega
    · by_cases hclose : c = '}'
      · subst hclose
        have hdepth := hstart [] List.nil_prefix
        rw [List.count_cons_self, List.count_cons_of_ne hopen, List.count_nil, List.count_nil]
          at hdepth
        obtain ⟨outer, rfl⟩ := Nat.exists_eq_add_of_le' hdepth
        have hnext : ∀ start, start <+: e → start.count '}' ≤ outer + start.count '{' := by
          intro start hp
          have := hstart start hp
          rw [List.count_cons_self, List.count_cons_of_ne hopen] at this
          omega
        rw [List.cons_append, maskFrom, ih hnext, List.count_cons_self,
          List.count_cons_of_ne hopen]
        congr 2
        omega
      · have hnext : ∀ start, start <+: e → start.count '}' ≤ depth + start.count '{' := by
          intro start hp
          have := hstart start hp
          rwa [List.count_cons_of_ne hopen, List.count_cons_of_ne hclose] at this
        rw [List.cons_append, maskFrom, ih hnext, List.count_cons_of_ne hopen,
          List.count_cons_of_ne hclose]
        · exact fun hc => absurd hc hopen
        · exact fun hc => absurd hc hclose

theorem maskFrom_expression {e : List Char} (h : BracesBalanced e) (rest : List Char) :
    maskFrom 1 (e ++ '}' :: rest) = maskFrom 0 rest := by
  have hstarts : ∀ start, start <+: e → start.count '}' ≤ 0 + start.count '{' := by
    intro start hp
    have := h.starts start hp
    omega
  rw [maskFrom_inside hstarts, h.closed, Nat.add_sub_cancel]
  rfl

theorem head?_interpolations (is : List Interpolation) :
    (is.flatMap (·.text)).head? ≠ some '{' := by
  cases is with
  | nil => simp
  | cons i is => simp [Interpolation.text]

theorem maskFrom_interpolations {is : List Interpolation}
    (hs : ∀ i ∈ is, ¬ ['$', '{'] <:+: i.behind)
    (he : ∀ i ∈ is, BracesBalanced i.expression) :
    maskFrom 0 (is.flatMap (·.text)) = (is.map (·.behind)).flatMap (placeholder :: ·) := by
  induction is with
  | nil => rfl
  | cons i is ih =>
    obtain ⟨hsi, hs⟩ := List.forall_mem_cons.mp hs
    obtain ⟨hei, he⟩ := List.forall_mem_cons.mp he
    have htext : i.text ++ is.flatMap (·.text) =
        '$' :: '{' :: (i.expression ++ '}' :: (i.behind ++ is.flatMap (·.text))) := by
      simp [Interpolation.text]
    rw [List.flatMap_cons, htext, maskFrom, maskFrom_expression hei,
      maskFrom_static hsi (head?_interpolations is), ih hs he, List.map_cons, List.flatMap_cons]
    rfl

theorem intercalate_cons (sep x : List Char) (xs : List (List Char)) :
    sep.intercalate (x :: xs) = x ++ xs.flatMap (sep ++ ·) := by
  induction xs generalizing x with
  | nil => rw [List.intercalate_singleton, List.flatMap_nil, List.append_nil]
  | cons y xs ih => rw [List.intercalate_cons_cons, ih, List.flatMap_cons, List.append_assoc,
      List.append_assoc]

namespace TemplateLiteral

/-- the static parts with a placeholder between them -/
def masked (t : TemplateLiteral) : List Char := [placeholder].intercalate t.parts

theorem masked_eq (t : TemplateLiteral) :
    t.masked = t.first ++ (t.interpolations.map (·.behind)).flatMap (placeholder :: ·) :=
  intercalate_cons _ _ _

theorem maskTemplate_text (t : TemplateLiteral) : maskTemplate t.text = t.masked := by
  obtain ⟨hfirst, hbehind⟩ := List.forall_mem_cons.mp t.opensNone
  rw [maskTemplate, text, maskFrom_static hfirst (head?_interpolations _),
    maskFrom_interpolations (fun i hi => hbehind _ (List.mem_map_of_mem hi)) t.balanced, masked_eq]

end TemplateLiteral

/-! ## the value of a `className` -/

/-- a text without quotes and escapes is read up to the closing quote -/
theorem template_append {text : List Char} (hq : '\x60' ∉ text) (he : '\\' ∉ text)
    (rest : List Char) : template (text ++ '\x60' :: rest) = some (text, rest) := by
  induction text with
  | nil => rfl
  | cons c text ih =>
    rw [List.mem_cons, not_or] at hq he
    rw [List.cons_append, template, if_neg (Ne.symm hq.1), if_neg (Ne.symm he.1), ih hq.2 he.2]
    · rfl
    · exact fun _ _ hc => absurd hc.symm he.1

theorem TemplateLiteral.templateValues_source (t : TemplateLiteral) :
    templateValues t.source = [t.text] := by
  have hread : template (t.text ++ "\x60\x7d".toList) = some (t.text, ['}']) :=
    template_append t.unquoted t.unescaped ['}']
  have hname : literal "className".toList t.source =
      some ("=\x7b\x60".toList ++ (t.text ++ "\x60\x7d".toList)) := literal_append _ _
  have hpattern : templatePattern none t.source = some (t.text, t.source.length) := by
    simp only [templatePattern, hname]
    exact congrArg (Option.bind · _) hread
  exact occurrences_of_whole (List.cons_ne_nil _ _) hpattern

/-! ## static words -/

/-- what stands before a static part, and what stands behind it, when the template is masked -/
def maskedBefore (earlier : List (List Char)) : List Char := earlier.flatMap (· ++ [placeholder])
def maskedBehind (later : List (List Char)) : List Char := later.flatMap (placeholder :: ·)

theorem maskedBefore_cons (x : List Char) (earlier : List (List Char)) :
    maskedBefore (x :: earlier) = x ++ placeholder :: maskedBefore earlier := by
  rw [maskedBefore, List.flatMap_cons, List.append_assoc]
  rfl

theorem intercalate_parts (earlier : List (List Char)) (s : List Char)
    (later : List (List Char)) : [placeholder].intercalate (earlier ++ s :: later) =
      maskedBefore earlier ++ (s ++ maskedBehind later) := by
  induction earlier with
  | nil => exact intercalate_cons _ _ _
  | cons x earlier ih =>
    obtain ⟨y, rest, he⟩ := List.exists_cons_of_ne_nil
      (List.append_ne_nil_of_right_ne_nil earlier (List.cons_ne_nil s later))
    rw [he] at ih
    rw [List.cons_append, he, List.intercalate_cons_cons, ih, maskedBefore_cons,
      List.append_assoc, List.append_assoc]
    rfl

/-- a text without placeholders that stands in a masked template stands in one of its parts -/
theorem exists_part {first : List Char} {rest : List (List Char)} {a w b : List Char}
    (hne : w ≠ []) (hw : placeholder ∉ w)
    (h : [placeholder].intercalate (first :: rest) = a ++ (w ++ b)) :
    ∃ earlier s later x y, first :: rest = earlier ++ s :: later ∧ s = x ++ (w ++ y) ∧
      a = maskedBefore earlier ++ x ∧ b = y ++ maskedBehind later := by
  induction rest generalizing first a with
  | nil =>
    rw [List.intercalate_singleton] at h
    exact ⟨[], first, [], a, b, rfl, h, rfl, (List.append_nil b).symm⟩
  | cons next rest ih =>
    have hcut : first ++ placeholder :: [placeholder].intercalate (next :: rest) =
        a ++ (w ++ b) := by
      rw [← h, List.intercalate_cons_cons, List.append_assoc]
      rfl
    rcases append_cons_eq_append hne hw hcut with ⟨y, hfirst, hb⟩ | ⟨x, ha, hrest⟩
    · refine ⟨[], first, next :: rest, a, y, rfl, hfirst, rfl, ?_⟩
      rw [hb, intercalate_cons, maskedBehind, List.flatMap_cons]
      rfl
    · obtain ⟨earlier, s, later, x, y, hparts, hs, hx, hb⟩ := ih hrest
      refine ⟨first :: earlier, s, later, x, y, by rw [hparts, List.cons_append], hs, ?_, hb⟩
      rw [ha, hx, maskedBefore_cons, List.append_assoc, List.cons_append]

/-! ### their ends -/

theorem endsIn_maskedBefore_iff {earlier : List (List Char)} {x : List Char} :
    EndsIn isBlank (maskedBefore earlier ++ x) ↔ EndsIn isBlank x ∧ (x = [] → earlier = []) := by
  by_cases hx : x = []
  · subst hx
    rw [List.append_nil]
    rcases List.eq_nil_or_concat earlier with rfl | ⟨init, last, rfl⟩
    · simp only [maskedBefore, List.flatMap_nil, implies_true, and_true]
    · rw [List.concat_eq_append, maskedBefore, List.flatMap_append, List.flatMap_singleton,
        ← List.append_assoc]
      refine iff_of_false (fun h => ?_) (fun h => by simp at h)
      have hblank := h placeholder (List.getLast?_concat ..)
      exact Bool.false_ne_true hblank
  · rw [endsIn_append_iff hx]
    exact (and_iff_left fun h => absurd h hx).symm

theorem startsIn_maskedBehind_iff {later : List (List Char)} {y : List Char} :
    StartsIn isBlank (y ++ maskedBehind later) ↔
      StartsIn isBlank y ∧ (y = [] → later = []) := by
  by_cases hy : y = []
  · subst hy
    rw [List.nil_append]
    cases later with
    | nil => simp only [maskedBehind, List.flatMap_nil, implies_true, and_true]
    | cons s later =>
      refine iff_of_false (fun h => ?_) (fun h => by simp at h)
      have hblank := h placeholder rfl
      exact Bool.false_ne_true hblank
  · rw [startsIn_append_iff hy]
    exact (and_iff_left fun h => absurd h hy).symm

namespace TemplateLiteral

/-- a longest run without blanks in a static part, between blanks or the ends of the template: it
touches no interpolation -/
def StaticWord (t : TemplateLiteral) (w : List Char) : Prop :=
  ∃ earlier s later a b, t.parts = earlier ++ s :: later ∧ s = a ++ (w ++ b) ∧ WordAt a w b ∧
    (a = [] → earlier = []) ∧ (b = [] → later = [])

/-- the words of a masked template without a placeholder are those of its static parts -/
theorem mem_words_masked_iff (t : TemplateLiteral) (w : List Char) :
    w ∈ words t.masked ∧ placeholder ∉ w ↔ t.StaticWord w := by
  rw [mem_words_iff]
  constructor
  · rintro ⟨⟨a, b, hmasked, h⟩, hw⟩
    obtain ⟨earlier, s, later, x, y, hparts, hs, ha, hb⟩ := exists_part h.ne_nil hw hmasked
    have hbefore := h.before
    have hbehind := h.behind
    rw [ha, endsIn_maskedBefore_iff] at hbefore
    rw [hb, startsIn_maskedBehind_iff] at hbehind
    exact ⟨earlier, s, later, x, y, hparts, hs,
      ⟨h.ne_nil, h.solid, hbefore.1, hbehind.1⟩, hbefore.2, hbehind.2⟩
  · rintro ⟨earlier, s, later, x, y, hparts, hs, h, hfirst, hlast⟩
    have hmem : s ∈ t.parts := by
      rw [hparts]
      exact List.mem_append_right _ List.mem_cons_self
    have hstatic : placeholder ∉ s := t.unmasked s hmem
    refine ⟨⟨maskedBefore earlier ++ x, y ++ maskedBehind later, ?_, h.ne_nil, h.solid,
      endsIn_maskedBefore_iff.mpr ⟨h.before, hfirst⟩,
      startsIn_maskedBehind_iff.mpr ⟨h.behind, hlast⟩⟩, fun hw => hstatic ?_⟩
    · rw [masked, hparts, intercalate_parts, hs]
      simp only [List.append_assoc]
    · rw [hs]
      exact List.mem_append_right _ (List.mem_append_left _ hw)

theorem mem_staticWords_source (t : TemplateLiteral) (name : String) :
    name ∈ staticWords (templateValues t.source) ↔
      ∃ w, t.StaticWord w ∧ String.ofList w = name := by
  rw [staticWords, t.templateValues_source, List.flatMap_singleton, t.maskTemplate_text,
    List.mem_map]
  refine exists_congr fun w => and_congr_left fun _ => ?_
  rw [List.mem_filter, Bool.not_eq_true', ← t.mem_words_masked_iff, List.contains_eq_mem,
    decide_eq_false_iff_not]

/-- a template is masked as its static parts with a placeholder for each interpolation; as the value
of a `className` it is found as it is written, and besides the quoted values of the source the
classes are its static words -/
theorem classes_template (t : TemplateLiteral) :
    maskTemplate t.text = [placeholder].intercalate t.parts ∧
    templateValues t.source = [t.text] ∧
    (∀ name, name ∈ staticWords (templateValues t.source) ↔
      ∃ w, t.StaticWord w ∧ String.ofList w = name) ∧
    (∀ name, name ∈ (ofJsx (String.ofList t.source)).classes ↔
      name ∈ classNames (Attribute.quotedValues opensJsxAttribute ["className", "class"] t.source) ∨
        ∃ w, t.StaticWord w ∧ String.ofList w = name) := by
  refine ⟨t.maskTemplate_text, t.templateValues_source, t.mem_staticWords_source, fun name => ?_⟩
  rw [ofJsx, String.toList_ofList, NameSet.mem_ofList, List.mem_append, t.mem_staticWords_source]

/-- words that touch an interpolation on one side, on both and on none -/
def linkTemplate : TemplateLiteral where
  first := "link btn-".toList
  interpolations := [⟨"size".toList, "$ $x ".toList⟩, ⟨"{a: {}}".toList, "-on static".toList⟩]
  opensNone := by decide
  unmasked := by decide
  balanced := by decide
  unquoted := by decide
  unescaped := by decide

example : (ofJsx (String.ofList linkTemplate.source)).classes.toList =
    ["$x", "link", "static"] := by decide +kernel

end TemplateLiteral
end CssOptimizer.Usage
