import CssOptimizer.Proofs.Usage.Tags
import CssOptimizer.Proofs.Usage.Templates

/-!
# Elements that close themselves

Every opening angle bracket with a letter behind it is read as a tag.  Behind an identifier the tag
counts as an element only if it is closed somewhere or closes itself, for which the first angle
bracket behind it decides, be it the end of the tag or a character of an attribute.

* `jsxTag_eq_some_iff`     what is read as the tag of an element;
* `ReadAt`, `Counts`       a place where a tag is read, and when it counts there;
* `mem_tags_ofJsx_iff`     the tags are those that count at some place;
* `SelfClosing`            a source with an element that closes itself;
* `tags_selfClosing`       when its tag is found.
-/

namespace CssOptimizer.Usage
open Text

/-! ## what stands behind a tag -/

/-- the characters that tags go on with -/
def goesOn (c : Char) : Bool := isName c || c == '.'

def isAngle (c : Char) : Bool := c == '<' || c == '>'

/-- the first angle bracket is a closing one, and a slash stands before it, with nothing but blanks
between them -/
def ClosesFirst (cs : List Char) : Prop :=
  ∃ a ws b, cs = a ++ '/' :: (ws ++ '>' :: b) ∧ (∀ c ∈ a, isAngle c = false) ∧ Blank ws

theorem not_isAngle_of_isBlank {c : Char} (h : isBlank c = true) : isAngle c = false := by
  have hopen : c ≠ '<' := by
    rintro rfl
    exact absurd h (by decide)
  have hclose : c ≠ '>' := by
    rintro rfl
    exact absurd h (by decide)
  rw [isAngle, beq_eq_false_iff_ne.mpr hopen, beq_eq_false_iff_ne.mpr hclose]
  rfl

/-- neither the text up to the slash nor the blanks behind it hold an angle bracket -/
theorem not_isAngle_slash {a ws : List Char} (ha : ∀ c ∈ a, isAngle c = false) (hw : Blank ws) :
    ∀ c ∈ a ++ '/' :: ws, isAngle c = false :=
  List.forall_mem_append.mpr ⟨ha, List.forall_mem_cons.mpr
    ⟨by decide, fun c hc => not_isAngle_of_isBlank (hw c hc)⟩⟩

theorem closesItself_iff {cs : List Char} : closesItself cs = true ↔ ClosesFirst cs := by
  constructor
  · intro h
    unfold closesItself at h
    split at h
    · rename_i inner b hcut
      obtain ⟨hinner, -⟩ := cutAt_spec hcut
      obtain ⟨a, ha⟩ := List.isSuffixOf_iff_suffix.mp h
      obtain ⟨ws, hw, he⟩ := exists_trimEnd inner
      have hslash : inner = a ++ '/' :: ws := by
        rw [he, ← ha, List.append_assoc]
        rfl
      refine ⟨a, ws, b, ?_, fun c hc => hinner c ?_, hw⟩
      · rw [cutAt_eq_some hcut, hslash, List.append_assoc, List.cons_append]
      · rw [hslash]
        exact List.mem_append_left _ hc
    · exact absurd h Bool.false_ne_true
  · rintro ⟨a, ws, b, rfl, ha, hw⟩
    have hcut : cutAt isAngle ((a ++ '/' :: ws) ++ '>' :: b) = some (a ++ '/' :: ws, '>', b) :=
      cutAt_append (not_isAngle_slash ha hw) rfl
    have htrim : trimEnd (a ++ '/' :: ws) = a ++ ['/'] := by
      have hblank : trimEnd ws = [] := trimEnd_blank hw []
      rw [trimEnd_append_cons a (by decide), hblank]
    rw [List.append_assoc, List.cons_append] at hcut
    unfold closesItself
    rw [show (fun c => c == '<' || c == '>') = isAngle from rfl, hcut]
    simp only [htrim]
    exact List.isSuffixOf_iff_suffix.mpr (List.suffix_append a ['/'])

/-- a text is followed by the end of a tag that closes itself: it holds no angle bracket, or the
first one in it decides -/
theorem closesFirst_append {cs after : List Char} :
    ClosesFirst (cs ++ '/' :: '>' :: after) ↔
      (∀ c ∈ cs, isAngle c = false) ∨ ClosesFirst cs := by
  constructor
  · rintro ⟨a, ws, b, he, ha, hw⟩
    have hslash := not_isAngle_slash ha hw
    have hcut : cs ++ '/' :: '>' :: after = (a ++ '/' :: ws) ++ '>' :: b := by
      rw [he, List.append_assoc, List.cons_append]
    rcases List.append_eq_append_iff.mp hcut with ⟨x, hx, -⟩ | ⟨x, hcs, hx⟩
    · left
      intro c hc
      apply hslash c
      rw [hx]
      exact List.mem_append_left _ hc
    · cases x with
      | nil =>
        left
        rw [hcs, List.append_nil]
        exact hslash
      | cons d x =>
        right
        rw [List.cons_append, List.cons.injEq] at hx
        refine ⟨a, ws, x, ?_, ha, hw⟩
        rw [hcs, ← hx.1, List.append_assoc, List.cons_append]
  · rintro (h | ⟨a, ws, b, rfl, ha, hw⟩)
    · exact ⟨cs, [], after, rfl, h, blank_nil⟩
    · refine ⟨a, ws, b ++ '/' :: '>' :: after, ?_, ha, hw⟩
      simp only [List.append_assoc, List.cons_append]

/-! ## tags -/

theorem occursIn_iff_infix {part cs : List Char} : occursIn part cs = true ↔ part <:+: cs := by
  induction cs with
  | nil => rw [occursIn, List.isEmpty_iff, List.infix_nil]
  | cons c cs ih =>
    rw [occursIn, Bool.or_eq_true, List.isPrefixOf_iff_prefix, ih, List.infix_cons_iff]

/-- a name that starts with a small letter, as the tags of elements do -/
structure ElementName (tag : List Char) : Prop extends TagName tag where
  small : tag.head?.all (·.isLower) = true

theorem goesOn_of_isName {c : Char} (h : isName c = true) : goesOn c = true := by
  rw [goesOn, h, Bool.true_or]

/-- what is read as a tag: an opening angle bracket with the longest name behind it -/
theorem exists_of_jsxTag {source : List Char} {before : Option Char} {cs : List Char}
    {read : Option (List Char)} {n : Nat} (h : jsxTag source before cs = some (read, n)) :
    ∃ name rest, cs = '<' :: (name ++ rest) ∧ (∀ c ∈ name, goesOn c = true) ∧
      n = name.length + 1 := by
  unfold jsxTag at h
  split at h
  · rename_i c cs
    split at h
    · rename_i hc
      obtain ⟨-, hn⟩ := Prod.mk.inj (Option.some.inj h)
      have hfirst : goesOn c = true :=
        goesOn_of_isName (isName_of_isAsciiName (isAsciiName_of_isAsciiLetter hc))
      have hothers : ∀ d ∈ cs.takeWhile goesOn, goesOn d = true :=
        fun d hd => List.all_eq_true.mp List.all_takeWhile d hd
      refine ⟨c :: cs.takeWhile goesOn, cs.dropWhile goesOn, ?_,
        List.forall_mem_cons.mpr ⟨hfirst, hothers⟩, hn.symm⟩
      rw [List.cons_append, List.takeWhile_append_dropWhile]
    · exact absurd h (by simp)
  · exact absurd h (by simp)

theorem opened_jsxTag (source : List Char) : Opened (jsxTag source) '<' where
  head h := by
    obtain ⟨name, rest, he, -, -⟩ := exists_of_jsxTag h
    exact (List.cons.inj he).1
  inside h := by
    obtain ⟨name, rest, he, hname, hn⟩ := exists_of_jsxTag h
    rw [(List.cons.inj he).2, hn, Nat.add_sub_cancel, List.take_left]
    intro hm
    exact absurd (hname '<' hm) (by decide)

theorem jsxTag_eq_some_iff {source : List Char} {before : Option Char} {cs tag : List Char}
    {n : Nat} : jsxTag source before cs = some (some tag, n) ↔
      ElementName tag ∧ n = tag.length + 1 ∧
      ∃ rest, cs = '<' :: (tag ++ rest) ∧ StartsIn (!goesOn ·) rest ∧
        (before.any endsIdentifier = false ∨ '<' :: '/' :: tag <:+: source ∨
          ClosesFirst rest) := by
  constructor
  · intro h
    have hname := tagName_of_jsxTag h
    unfold jsxTag at h
    split at h
    · rename_i c cs
      split at h
      · obtain ⟨h, hn⟩ := Prod.mk.inj (Option.some.inj h)
        split at h
        · rename_i hplain
          have htag : c :: cs.takeWhile goesOn = tag := Option.some.inj h
          simp only [Bool.and_eq_true, Bool.or_eq_true, Bool.not_eq_true', occursIn_iff_infix,
            closesItself_iff] at hplain
          obtain ⟨helement, hsmall, -⟩ := hplain
          refine ⟨⟨hname, ?_⟩, ?_, cs.dropWhile goesOn, ?_, startsIn_dropWhile goesOn cs, ?_⟩
          · rw [← htag]
            exact hsmall
          · rw [← hn, ← htag]
            rfl
          · rw [← htag, List.cons_append, List.takeWhile_append_dropWhile]
          · rw [← htag, ← or_assoc]
            exact helement
        · exact absurd h (by simp)
      · exact absurd h (by simp)
    · exact absurd h (by simp)
  · rintro ⟨h, rfl, rest, rfl, hr, hcounts⟩
    obtain ⟨c, t, rfl, hc⟩ := h.letter
    have hsmall : c.isLower = true := h.small
    have hgoes : ∀ d ∈ t, goesOn d = true := fun d hd =>
      goesOn_of_isName (h.isName d (List.mem_cons_of_mem c hd))
    have htake : (t ++ rest).takeWhile (fun c => isName c || c == '.') = t :=
      takeWhile_append hgoes hr
    have hdrop : (t ++ rest).dropWhile (fun c => isName c || c == '.') = rest :=
      dropWhile_append hgoes hr
    have hdot : (c :: t).contains '.' = false := by
      rw [List.contains_eq_mem, decide_eq_false_iff_not]
      exact h.not_mem (by decide)
    have helement : (!before.any endsIdentifier || occursIn ('<' :: '/' :: c :: t) source ||
        closesItself rest) = true := by
      rw [Bool.or_eq_true, Bool.or_eq_true, Bool.not_eq_true', occursIn_iff_infix,
        closesItself_iff, or_assoc]
      exact hcounts
    rw [List.cons_append, jsxTag, if_pos hc]
    simp only [htake, hdrop, hdot, helement, hsmall]
    rfl

/-! ## where a tag counts -/

structure ReadAt (source before tag rest : List Char) : Prop where
  source_eq : source = before ++ '<' :: (tag ++ rest)
  element : ElementName tag
  ends : StartsIn (!goesOn ·) rest

/-- no identifier ends before a tag, or the tag is closed somewhere, or it closes itself -/
def Counts (source before tag rest : List Char) : Prop :=
  EndsIn (!endsIdentifier ·) before ∨ '<' :: '/' :: tag <:+: source ∨ ClosesFirst rest

theorem any_endsIdentifier_iff {before : List Char} :
    before.getLast?.any endsIdentifier = false ↔ EndsIn (!endsIdentifier ·) before := by
  cases h : before.getLast? <;> simp [EndsIn, h]

theorem mem_tags_ofJsx_iff {source tag : List Char} :
    String.ofList tag ∈ (ofJsx (String.ofList source)).tags ↔
      ∃ before rest, ReadAt source before tag rest ∧ Counts source before tag rest := by
  have hread : String.ofList tag ∈ (ofJsx (String.ofList source)).tags ↔
      some tag ∈ occurrences (jsxTag source) source := by
    rw [ofJsx, String.toList_ofList, NameSet.mem_ofList, jsxTags, List.mem_map]
    simp only [List.mem_filterMap, id, exists_eq_right, String.ofList_inj]
  rw [hread, mem_occurrences_iff (opened_jsxTag source)]
  simp only [jsxTag_eq_some_iff, any_endsIdentifier_iff]
  constructor
  · rintro ⟨before, c, post, n, hsource, helement, -, rest, he, hends, hcounts⟩
    exact ⟨before, rest, ⟨he ▸ hsource, helement, hends⟩, hcounts⟩
  · rintro ⟨before, rest, h, hcounts⟩
    exact ⟨before, '<', tag ++ rest, _, h.source_eq, h.element, rfl, rest, rfl, h.ends, hcounts⟩

/-! ## elements that close themselves -/

/-- an attribute whose value is a text in quotes or an expression in braces -/
inductive JsxAttribute where
  | quoted (name value : List Char) (unquoted : '\x22' ∉ value)
  | braced (name expression : List Char) (balanced : BracesBalanced expression)
      (opensNone : '<' ∉ expression)

/-- an attribute as it is written, with a space before it -/
def JsxAttribute.text : JsxAttribute → List Char
  | quoted name value _ => ' ' :: (name ++ '=' :: '\x22' :: (value ++ ['\x22']))
  | braced name expression _ _ => ' ' :: (name ++ '=' :: '{' :: (expression ++ ['}']))

structure SelfClosing where
  before : List Char
  tag : List Char
  attributes : List JsxAttribute
  after : List Char
  element : ElementName tag

namespace SelfClosing

/-- the attributes as they are written -/
def inner (s : SelfClosing) : List Char := s.attributes.flatMap (·.text)

def source (s : SelfClosing) : List Char :=
  s.before ++ '<' :: (s.tag ++ (s.inner ++ '/' :: '>' :: s.after))

theorem readAt (s : SelfClosing) :
    ReadAt s.source s.before s.tag (s.inner ++ '/' :: '>' :: s.after) where
  source_eq := rfl
  element := s.element
  ends := by
    unfold inner
    cases s.attributes with
    | nil => exact startsIn_cons (by decide) _
    | cons first others =>
      cases first with
      | quoted name value => exact startsIn_cons (by decide) _
      | braced name expression => exact startsIn_cons (by decide) _

/-- the tag is found if no identifier ends before it, if it is closed somewhere in the source, or if
the first angle bracket in its attributes, should they hold any, is a closing one behind a slash.
Otherwise this place does not count, and the tag is found only if it counts at another one -/
theorem tags_selfClosing (s : SelfClosing) :
    String.ofList s.tag ∈ (ofJsx (String.ofList s.source)).tags ↔
      (EndsIn (!endsIdentifier ·) s.before ∨ '<' :: '/' :: s.tag <:+: s.source ∨
        (∀ c ∈ s.inner, isAngle c = false) ∨ ClosesFirst s.inner) ∨
      ∃ before rest, before ≠ s.before ∧ ReadAt s.source before s.tag rest ∧
        Counts s.source before s.tag rest := by
  have hhere : Counts s.source s.before s.tag (s.inner ++ '/' :: '>' :: s.after) ↔
      EndsIn (!endsIdentifier ·) s.before ∨ '<' :: '/' :: s.tag <:+: s.source ∨
        (∀ c ∈ s.inner, isAngle c = false) ∨ ClosesFirst s.inner := by
    rw [Counts, closesFirst_append]
  rw [mem_tags_ofJsx_iff, ← hhere]
  constructor
  · rintro ⟨before, rest, hread, hcounts⟩
    by_cases hb : before = s.before
    · left
      subst hb
      have hrest : tag s ++ rest = tag s ++ (s.inner ++ '/' :: '>' :: s.after) := by
        have he := List.append_cancel_left (hread.source_eq.symm.trans s.readAt.source_eq)
        exact (List.cons.inj he).2
      rw [← List.append_cancel_left hrest]
      exact hcounts
    · exact Or.inr ⟨before, rest, hb, hread, hcounts⟩
  · rintro (hcounts | ⟨before, rest, -, h⟩)
    · exact ⟨s.before, _, s.readAt, hcounts⟩
    · exact ⟨before, rest, h⟩

/-- a comparison in an attribute of an element that stands behind a letter -/
def comparing : SelfClosing where
  before := "x".toList
  tag := "br".toList
  attributes := [.braced "a".toList "b>c".toList (by decide) (by decide)]
  after := []
  element := ⟨.of_all rfl rfl, rfl⟩

/-- the bracket of the comparison stands in for the end of the tag -/
theorem tags_comparing : comparing.source = "x<br a={b>c}/>".toList ∧
    String.ofList comparing.tag ∉ (ofJsx (String.ofList comparing.source)).tags := by
  refine ⟨rfl, ?_⟩
  rw [NameSet.mem_iff]
  decide +kernel

end SelfClosing
end CssOptimizer.Usage
