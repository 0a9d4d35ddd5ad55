import CssOptimizer.Proofs.Selector.Lists
import CssOptimizer.Proofs.Sheet.Condition
import CssOptimizer.Usage.Basic

/-!
# Joined selectors

A selector keeps its names when others are joined to it.  If it leaves a bracket open, as an
attribute value with a bracket in its string may do, its last component swallows what follows; its
other components stay as they are.

* `Grown a b`                      `b` goes on behind `a` with something that continues no name;
* `exists_grown_component`         each component of a selector grows into one of the joined one;
* `joinSelectors_concat`           a further selector stands behind a comma and a blank;
* `isInfix_joinSelectors`          each part of a joined selector stands in its text;
* `covers_joinSelectors`           a joined selector is covered if its first part is;
* `tidySelector_joinSelectors`, `selfContained_joinSelectors`   joined selectors stand for
                                   themselves if their parts do.
-/

namespace CssOptimizer
open Scan Text

namespace Selector

/-! ## components that grow -/

def Grown (a b : List Char) : Prop := ∃ more, EndsNames more ∧ b = a ++ more

theorem Grown.refl (a : List Char) : Grown a a := ⟨[], endsNames_nil, (List.append_nil a).symm⟩

/-- the pieces of a text and of what goes on behind it with a comma -/
theorem exists_grown_pieces (depth : Nat) (a b : List Char) :
    ∃ x xs y ys, splitAtCommas depth a = x :: xs ∧ splitAtCommas depth (a ++ ',' :: b) = y :: ys ∧
      Grown x y ∧ ∀ piece ∈ xs, ∃ longer ∈ ys, Grown piece longer := by
  have hcomma (cs : List Char) : Grown [] (',' :: cs) :=
    ⟨',' :: cs, endsNames_cons (by decide) cs, rfl⟩
  induction a generalizing depth with
  | nil =>
    rw [List.nil_append, splitAtCommas, splitAtCommas]
    split
    · exact ⟨[], [], [], _, rfl, rfl, Grown.refl [], fun p hp => absurd hp List.not_mem_nil⟩
    · obtain ⟨y, ys, hy⟩ :=
        List.exists_cons_of_ne_nil (splitAtCommas_ne_nil (depthBehind depth ',') b)
      refine ⟨[], [], ',' :: y, ys, rfl, ?_, hcomma y, fun p hp => absurd hp List.not_mem_nil⟩
      rw [hy, List.modifyHead_cons]
  | cons c a ih =>
    rw [List.cons_append, splitAtCommas, splitAtCommas]
    split
    · obtain ⟨x, xs, y, ys, hx, hy, hhead, htail⟩ := ih depth
      refine ⟨[], _, [], _, rfl, rfl, Grown.refl [], ?_⟩
      rw [hx, hy]
      refine List.forall_mem_cons.mpr ⟨⟨y, List.mem_cons_self, hhead⟩, fun p hp => ?_⟩
      obtain ⟨q, hq, hgrown⟩ := htail p hp
      exact ⟨q, List.mem_cons_of_mem _ hq, hgrown⟩
    · obtain ⟨x, xs, y, ys, hx, hy, ⟨more, hmore, rfl⟩, htail⟩ := ih (depthBehind depth c)
      rw [hx, hy, List.modifyHead_cons, List.modifyHead_cons]
      exact ⟨c :: x, xs, _, ys, rfl, rfl, ⟨more, hmore, rfl⟩, htail⟩

theorem endsNames_append {ws cs : List Char} (hws : Blank ws) (hcs : EndsNames cs) :
    EndsNames (ws ++ cs) := by
  cases ws with
  | nil => exact hcs
  | cons w ws => exact endsNames_cons (isName_of_isBlank (blank_cons.mp hws).1) _

theorem endsNames_trimEnd {cs : List Char} (h : EndsNames cs) : EndsNames (trimEnd cs) := by
  obtain ⟨gone, -, he⟩ := exists_dropEndWhile_append isBlank cs
  intro c hc
  have hhead : (dropEndWhile isBlank cs).head? = some c := hc
  rw [← he] at h
  refine h c ?_
  rw [List.head?_append, hhead]
  rfl

/-- a trimmed piece grows with its blanks cut off again -/
theorem Grown.trim {a b : List Char} (h : Grown a b) (hne : Text.trim a ≠ []) :
    Grown (Text.trim a) (Text.trim b) := by
  obtain ⟨more, hmore, rfl⟩ := h
  obtain ⟨before, behind, hbefore, hbehind, ha⟩ := exists_trim a
  have htrimmed := trimmed_trim a
  generalize Text.trim a = t at hne ha htrimmed ⊢
  subst ha
  refine ⟨trimEnd (behind ++ more), endsNames_trimEnd (endsNames_append hbehind hmore), ?_⟩
  obtain ⟨c, cs, rfl⟩ := List.exists_cons_of_ne_nil hne
  have hstart : trimStart (before ++ (c :: cs) ++ behind ++ more) =
      (c :: cs) ++ (behind ++ more) := by
    rw [List.append_assoc, List.append_assoc, trimStart_blank hbefore, List.cons_append,
      trimStart_of_not_isBlank (not_isBlank_of_trimStart htrimmed.start)]
  rw [Text.trim, hstart, htrimmed.trimEnd_append hne]

theorem exists_grown_component {a c : List Char} (h : c ∈ componentChars a) (b : List Char) :
    ∃ d ∈ componentChars (a ++ ',' :: b), Grown c d := by
  obtain ⟨⟨piece, hpiece, rfl⟩, hne⟩ := mem_componentChars_iff.mp h
  obtain ⟨x, xs, y, ys, hx, hy, hhead, htail⟩ := exists_grown_pieces 0 a b
  obtain ⟨longer, hlonger, hgrown⟩ : ∃ longer ∈ splitAtCommas 0 (a ++ ',' :: b),
      Grown piece longer := by
    rw [hx] at hpiece
    rw [hy]
    rcases List.mem_cons.mp hpiece with rfl | hpiece
    · exact ⟨y, List.mem_cons_self, hhead⟩
    · obtain ⟨q, hq, hgrown⟩ := htail piece hpiece
      exact ⟨q, List.mem_cons_of_mem _ hq, hgrown⟩
  have htrim := hgrown.trim hne
  refine ⟨_, mem_componentChars_iff.mpr ⟨⟨longer, hlonger, rfl⟩, fun hnil => ?_⟩, htrim⟩
  obtain ⟨more, -, he⟩ := htrim
  rw [hnil] at he
  exact hne (List.append_eq_nil_iff.mp he.symm).1

/-! ## names -/

section
variable {name a b : List Char} (h : Grown a b)
include h

theorem Grown.mem_marked {mark : Char} (hmark : isName mark = false)
    (hn : name ∈ occurrences (marked mark) a) : name ∈ occurrences (marked mark) b := by
  obtain ⟨more, hmore, rfl⟩ := h
  obtain ⟨hne, pre, post, rfl, hlead⟩ := (mem_marked_iff hmark).mp hn
  refine (mem_marked_iff hmark).mpr ⟨hne, pre, post ++ more, by simp, ?_⟩
  rw [leadingName_append_right post hmore, hlead]

theorem Grown.mem_bracketedData (hn : name ∈ occurrences bracketedData a) :
    name ∈ occurrences bracketedData b := by
  obtain ⟨more, hmore, rfl⟩ := h
  obtain ⟨pre, c, post, n, rfl, hm⟩ := (mem_occurrences_iff opened_bracketedData).mp hn
  refine (mem_occurrences_iff opened_bracketedData).mpr ⟨pre, c, post ++ more, n, by simp, ?_⟩
  obtain ⟨rfl, ws, rest, hws, rfl, -, -⟩ := of_bracketedData hm
  have hdrop (cs : List Char) : (ws ++ ("data-".toList ++ cs)).dropWhile isBlank =
      "data-".toList ++ cs :=
    (trimStart_blank hws _).trans (trimStart_of_not_isBlank rfl _)
  have htake (cs : List Char) : (ws ++ ("data-".toList ++ cs)).takeWhile isBlank = ws := by
    rw [List.takeWhile_append_of_pos hws]
    exact List.append_nil ws
  rw [bracketedData_cons, hdrop, htake, literal_append] at hm
  rw [bracketedData_cons, List.append_assoc, List.append_assoc, hdrop, htake, literal_append,
    ← hm]
  simp only [leadingName_append_right rest hmore]

theorem Grown.leadingTag (hne : a ≠ []) : leadingTag b = leadingTag a := by
  obtain ⟨more, hmore, rfl⟩ := h
  obtain ⟨c, cs, rfl⟩ := List.exists_cons_of_ne_nil hne
  rw [List.cons_append, Selector.leadingTag, Selector.leadingTag,
    leadingName_append_right cs hmore]

theorem Grown.isPrefixOf {cs : List Char} (hp : cs.isPrefixOf a = true) :
    cs.isPrefixOf b = true := by
  obtain ⟨more, -, rfl⟩ := h
  rw [List.isPrefixOf_iff_prefix] at hp ⊢
  exact hp.trans (List.prefix_append a more)

end

/-- a component that goes on names what it has named -/
theorem Grown.coversComponent {a b : List Char} (h : Grown a b) (ht : Trimmed a) (hne : a ≠ [])
    {u : Usage} (hu : u.coversComponent (String.ofList a) = true) :
    u.coversComponent (String.ofList b) = true := by
  have hstart : trimStart b = b := by
    obtain ⟨more, -, rfl⟩ := h
    obtain ⟨c, cs, rfl⟩ := List.exists_cons_of_ne_nil hne
    rw [List.cons_append, trimStart_of_not_isBlank (not_isBlank_of_trimStart ht.start)]
  have htag : tag? (String.ofList b) = tag? (String.ofList a) := by
    rw [tag?, tag?, String.toList_ofList, String.toList_ofList, hstart, ht.start,
      h.leadingTag hne]
  have hnames {m : Pattern (List Char)}
      (hm : ∀ name, name ∈ occurrences m a → name ∈ occurrences m b) {names : NameSet}
      (hany : ((occurrences m a).map String.ofList).any names.contains = true) :
      ((occurrences m b).map String.ofList).any names.contains = true := by
    obtain ⟨x, hx, hc⟩ := List.any_eq_true.mp hany
    obtain ⟨name, hname, rfl⟩ := List.mem_map.mp hx
    exact List.any_eq_true.mpr ⟨_, List.mem_map_of_mem (hm name hname), hc⟩
  have hglobal (hg : isGlobal (String.ofList a) = true) :
      isGlobal (String.ofList b) = true := by
    simp only [isGlobal, htag, String.toList_ofList, hstart, ht.start, Bool.or_eq_true] at hg ⊢
    exact Or.imp_left (Or.imp_left (Or.imp h.isPrefixOf h.isPrefixOf)) hg
  simp only [Usage.coversComponent, classes, ids, dataAttributes, htag, String.toList_ofList,
    Bool.or_eq_true] at hu ⊢
  refine Or.imp (Or.imp_left (Or.imp (Or.imp hglobal (hnames ?_)) (hnames ?_))) (hnames ?_) hu
  · exact fun _ => h.mem_marked (by decide)
  · exact fun _ => h.mem_marked (by decide)
  · exact fun _ => h.mem_bracketedData

/-! ## covered selectors -/

theorem covers_append {u : Usage} {s : String} (h : u.covers s = true) (t : String) :
    u.covers (s ++ ", " ++ t) = true := by
  obtain ⟨c, hc, hu⟩ := List.any_eq_true.mp h
  obtain ⟨a, ha, rfl⟩ := List.mem_map.mp hc
  obtain ⟨⟨piece, -, hpiece⟩, hne⟩ := mem_componentChars_iff.mp ha
  obtain ⟨b, hb, hgrown⟩ := exists_grown_component ha (' ' :: t.toList)
  have hchars : (s ++ ", " ++ t).toList = s.toList ++ ',' :: ' ' :: t.toList := by simp
  refine List.any_eq_true.mpr ⟨String.ofList b, ?_, ?_⟩
  · rw [components, hchars]
    exact List.mem_map_of_mem hb
  · exact hgrown.coversComponent (hpiece ▸ trimmed_trim piece) hne hu

theorem joinSelectors_singleton (s : String) : joinSelectors [s] = s :=
  String.intercalate_singleton

theorem joinSelectors_cons_cons (s t : String) (selectors : List String) :
    joinSelectors (s :: t :: selectors) = s ++ ", " ++ joinSelectors (t :: selectors) :=
  String.intercalate_cons_cons

theorem joinSelectors_concat {selectors : List String} (hne : selectors ≠ []) (s : String) :
    joinSelectors (selectors ++ [s]) = joinSelectors selectors ++ ", " ++ s := by
  induction selectors with
  | nil => exact absurd rfl hne
  | cons first selectors ih =>
    cases selectors with
    | nil =>
      rw [List.singleton_append, joinSelectors_cons_cons, joinSelectors_singleton,
        joinSelectors_singleton]
    | cons t selectors =>
      rw [List.cons_append, List.cons_append, joinSelectors_cons_cons, ← List.cons_append,
        ih (List.cons_ne_nil t selectors), joinSelectors_cons_cons]
      simp only [String.append_assoc]

theorem isInfix_joinSelectors {s : String} {selectors : List String} (h : s ∈ selectors) :
    s.toList <:+: (joinSelectors selectors).toList := by
  induction selectors with
  | nil => exact absurd h List.not_mem_nil
  | cons first selectors ih =>
    cases selectors with
    | nil =>
      rw [joinSelectors_singleton]
      exact List.mem_singleton.mp h ▸ List.infix_rfl
    | cons t selectors =>
      rw [joinSelectors_cons_cons, String.toList_append, String.toList_append]
      rcases List.mem_cons.mp h with rfl | h
      · exact ((List.prefix_append _ _).trans (List.prefix_append _ _)).isInfix
      · exact (ih h).trans (List.suffix_append _ _).isInfix

theorem covers_joinSelectors {u : Usage} {s : String} (h : u.covers s = true)
    (selectors : List String) : u.covers (joinSelectors (s :: selectors)) = true := by
  cases selectors with
  | nil => rwa [joinSelectors_singleton]
  | cons t selectors =>
    rw [joinSelectors_cons_cons]
    exact covers_append h _

end Selector

/-! ## texts that stand for themselves -/

theorem TidySelector.append {s t : String} (hs : TidySelector s) (ht : TidySelector t) :
    TidySelector (s ++ ", " ++ t) := by
  have hchars : (s ++ ", " ++ t).toList = s.toList ++ (", ".toList ++ t.toList) := by simp
  obtain ⟨c, cs, hc⟩ := List.exists_cons_of_ne_nil hs.ne
  refine ⟨?_, ?_, ?_⟩
  · rw [hchars]
    exact List.append_ne_nil_of_left_ne_nil hs.ne _
  · rw [hchars]
    exact hs.trimmed.append hs.ne ht.trimmed ht.ne _
  · have hhead := hs.head
    rw [hc] at hhead
    rw [hchars, hc]
    exact hhead

theorem Scan.SelfContained.append {s t : String} (hs : SelfContained s.toList)
    (ht : SelfContained t.toList) : SelfContained (s ++ ", " ++ t).toList := by
  have hchars : (s ++ ", " ++ t).toList = s.toList ++ (", ".toList ++ t.toList) := by simp
  have hcomma : Plain Piece.isEnd ", ".toList := by decide
  rw [hchars]
  refine ⟨hs.plain.append (hcomma.append ht.plain), ?_⟩
  show opensComment start (s.toList ++ ',' :: ' ' :: t.toList) = false
  rw [opensComment_append_cons _ _ _ (by decide) (by decide), hs.quiet, hs.plain.closed,
    opensComment_cons_of_ne _ (by decide)]
  exact ht.quiet

/-- what joining two selectors keeps holds of all joined ones -/
theorem joinSelectors_induction {P : String → Prop}
    (append : ∀ {s t}, P s → P t → P (s ++ ", " ++ t)) {selectors : List String}
    (hne : selectors ≠ []) (h : ∀ s ∈ selectors, P s) : P (joinSelectors selectors) := by
  induction selectors with
  | nil => exact absurd rfl hne
  | cons s selectors ih =>
    obtain ⟨hs, hselectors⟩ := List.forall_mem_cons.mp h
    cases selectors with
    | nil => rwa [Selector.joinSelectors_singleton]
    | cons t selectors =>
      rw [Selector.joinSelectors_cons_cons]
      exact append hs (ih (List.cons_ne_nil t selectors) hselectors)

theorem tidySelector_joinSelectors {selectors : List String} (hne : selectors ≠ [])
    (h : ∀ s ∈ selectors, TidySelector s) : TidySelector (joinSelectors selectors) :=
  joinSelectors_induction TidySelector.append hne h

theorem selfContained_joinSelectors {selectors : List String} (hne : selectors ≠ [])
    (h : ∀ s ∈ selectors, SelfContained s.toList) :
    SelfContained (joinSelectors selectors).toList :=
  joinSelectors_induction (P := fun s => SelfContained s.toList) SelfContained.append hne h

end CssOptimizer
