import CssOptimizer.Proofs.Scan.Plain
import CssOptimizer.Proofs.Selector.Components

/-!
# Which commas separate components

The components of a selector are read by counting parentheses and brackets, wherever they stand.  A
list separates its members at the commas outside strings, parentheses and brackets, so that the two
differ where a string holds a parenthesis, a bracket or a comma.

* `Separator`            a reading of texts that takes some of their commas for separators;
* `Separator.items_eq_iff`   two readings give the same members exactly if they agree on each comma;
* `Place`                where a text stands: inside a string, and what is open;
* `listed`               the members of a selector list;
* `components_eq_listed_iff`   when the components of a selector are its members.
-/

namespace CssOptimizer.Selector
open Text

/-! ## readings of commas -/

/-- a reading of texts: the state behind each character, and the states in which a comma
separates; blanks and commas leave such a state -/
structure Separator (σ : Type) where
  step : σ → Char → σ
  cuts : σ → Bool
  neutral : ∀ s c, cuts s = true → isBlank c = true ∨ c = ',' → cuts (step s c) = true

/-- the members in pieces: their ends are trimmed, and empty ones do not count -/
def tidy (pieces : List (List Char)) : List (List Char) :=
  (pieces.map trim).filter (!·.isEmpty)

theorem tidy_append (xs ys : List (List Char)) : tidy (xs ++ ys) = tidy xs ++ tidy ys := by
  rw [tidy, List.map_append, List.filter_append]
  rfl

theorem tidy_cons_of_trim {x : List Char} (h : trim x ≠ []) (xs : List (List Char)) :
    tidy (x :: xs) = trim x :: tidy xs := by
  rw [tidy, List.map_cons, List.filter_cons_of_pos]
  · rfl
  · rw [List.isEmpty_eq_false_iff.mpr h]
    rfl

theorem count_comma_trim (cs : List Char) : (trim cs).count ',' = cs.count ',' := by
  obtain ⟨a, b, ha, hb, he⟩ := exists_trim cs
  have hnone {ws : List Char} (h : Blank ws) : ws.count ',' = 0 :=
    List.count_eq_zero.mpr fun hc => ne_of_isBlank (h _ hc) rfl rfl
  rw [he, List.count_append, List.count_append, hnone ha, hnone hb, Nat.zero_add, Nat.add_zero,
    ← he]

namespace Separator

variable {σ τ : Type} (m : Separator σ) (n : Separator τ)

def run (s : σ) (cs : List Char) : σ := cs.foldl m.step s

theorem run_append (s : σ) (a b : List Char) : m.run s (a ++ b) = m.run (m.run s a) b :=
  List.foldl_append

/-- the texts between the commas that separate -/
def pieces : σ → List Char → List (List Char)
  | _, [] => [[]]
  | s, c :: cs =>
    if c = ',' ∧ m.cuts s = true then [] :: pieces (m.step s c) cs
    else (pieces (m.step s c) cs).modifyHead (c :: ·)

/-- the members of a list -/
def items (s : σ) (cs : List Char) : List (List Char) := tidy (m.pieces s cs)

theorem pieces_of_cut {s : σ} {c : Char} (h : c = ',' ∧ m.cuts s = true) (cs : List Char) :
    m.pieces s (c :: cs) = [] :: m.pieces (m.step s c) cs := by
  rw [pieces, if_pos h]

theorem pieces_of_not_cut {s : σ} {c : Char} (h : ¬(c = ',' ∧ m.cuts s = true))
    {cs y : List Char} {ys : List (List Char)} (hy : m.pieces (m.step s c) cs = y :: ys) :
    m.pieces s (c :: cs) = (c :: y) :: ys := by
  rw [pieces, if_neg h, hy]
  rfl

theorem exists_pieces (s : σ) (cs : List Char) : ∃ y ys, m.pieces s cs = y :: ys := by
  induction cs generalizing s with
  | nil => exact ⟨[], [], rfl⟩
  | cons c cs ih =>
    obtain ⟨y, ys, hy⟩ := ih (m.step s c)
    by_cases hc : c = ',' ∧ m.cuts s = true
    · exact ⟨[], y :: ys, by rw [m.pieces_of_cut hc, hy]⟩
    · exact ⟨c :: y, ys, m.pieces_of_not_cut hc hy⟩

/-- what a text leaves open for the text behind it: its last piece, which starts where the text
starts or behind a separator -/
theorem exists_last (s : σ) (a : List Char) : ∃ init x before,
    m.pieces s a = init ++ [x] ∧
    (∀ b y ys, m.pieces (m.run s a) b = y :: ys → m.pieces s (a ++ b) = init ++ (x ++ y) :: ys) ∧
    a = before ++ x ∧ (init = [] → before = []) ∧
    (init ≠ [] → m.cuts (m.run s before) = true) := by
  induction a generalizing s with
  | nil =>
    exact ⟨[], [], [], rfl, fun b y ys h => h, rfl, fun _ => rfl, fun h => absurd rfl h⟩
  | cons c a ih =>
    obtain ⟨init, x, before, hpieces, happend, ha, hfirst, hlater⟩ := ih (m.step s c)
    by_cases hc : c = ',' ∧ m.cuts s = true
    · refine ⟨[] :: init, x, c :: before, ?_, fun b y ys h => ?_, by rw [ha, List.cons_append],
        fun h => absurd h (List.cons_ne_nil _ _), fun _ => ?_⟩
      · rw [m.pieces_of_cut hc, hpieces, List.cons_append]
      · rw [List.cons_append, m.pieces_of_cut hc, happend b y ys h, List.cons_append]
      · by_cases hinit : init = []
        · rw [hfirst hinit]
          exact m.neutral s c hc.2 (Or.inr hc.1)
        · exact hlater hinit
    · cases init with
      | nil =>
        refine ⟨[], c :: x, [], m.pieces_of_not_cut hc hpieces, fun b y ys h => ?_, ?_,
          fun _ => rfl, fun h => absurd rfl h⟩
        · exact m.pieces_of_not_cut hc (happend b y ys h)
        · rw [ha, hfirst rfl]
          rfl
      | cons z init =>
        refine ⟨(c :: z) :: init, x, c :: before, m.pieces_of_not_cut hc hpieces,
          fun b y ys h => ?_, by rw [ha, List.cons_append],
          fun h => absurd h (List.cons_ne_nil _ _), fun _ => hlater (List.cons_ne_nil _ _)⟩
        exact m.pieces_of_not_cut hc (happend b y ys h)

theorem cuts_run_blank {s : σ} (hs : m.cuts s = true) {ws : List Char} (h : Blank ws) :
    m.cuts (m.run s ws) = true := by
  induction ws generalizing s with
  | nil => exact hs
  | cons w ws ih =>
    obtain ⟨hw, hws⟩ := blank_cons.mp h
    exact ih (m.neutral s w hs (Or.inl hw)) hws

/-! ### two readings -/

/-- two readings agree on the commas of a text -/
def Agree (s : σ) (t : τ) (cs : List Char) : Prop :=
  ∀ pre post, cs = pre ++ ',' :: post → m.cuts (m.run s pre) = n.cuts (n.run t pre)

variable {m n}

theorem Agree.left {s : σ} {t : τ} {a b : List Char} (h : Agree m n s t (a ++ b)) :
    Agree m n s t a := by
  intro pre post he
  exact h pre (post ++ b) (by rw [he, List.append_assoc, List.cons_append])

theorem Agree.pieces_eq {s : σ} {t : τ} {cs : List Char} (h : Agree m n s t cs) :
    m.pieces s cs = n.pieces t cs := by
  induction cs generalizing s t with
  | nil => rfl
  | cons c cs ih =>
    have htail : Agree m n (m.step s c) (n.step t c) cs := fun pre post he =>
      h (c :: pre) post (by rw [he, List.cons_append])
    rw [pieces, pieces, ih htail]
    by_cases hc : c = ','
    · have hcuts : m.cuts s = n.cuts t := h [] cs (by rw [hc, List.nil_append])
      rw [hcuts]
    · rw [if_neg fun h => hc h.1, if_neg fun h => hc h.1]

/-- where the readings agree on all commas before this one, and the first of them cuts at it, the
second one cannot go on: its piece would hold a comma more, or start with one -/
theorem cuts_of_items_eq {s : σ} {t : τ} (ht : n.cuts t = true) {pre post : List Char}
    (hpre : Agree m n s t pre)
    (h : m.items s (pre ++ ',' :: post) = n.items t (pre ++ ',' :: post))
    (hm : m.cuts (m.run s pre) = true) : n.cuts (n.run t pre) = true := by
  refine Bool.not_eq_false _ ▸ fun hn => ?_
  obtain ⟨init, x, before, hpieces, happend, hbefore, hfirst, hlater⟩ := n.exists_last t pre
  obtain ⟨init', x', -, hpieces', happend', -⟩ := m.exists_last s pre
  rw [hpre.pieces_eq, hpieces] at hpieces'
  obtain ⟨rfl, hx⟩ := List.append_inj' hpieces' rfl
  rw [List.cons.injEq] at hx
  rw [← hx.1] at happend'
  obtain ⟨y, ys, hy⟩ := n.exists_pieces (n.step (n.run t pre) ',') post
  have hcut := happend' (',' :: post) _ _ (m.pieces_of_cut ⟨rfl, hm⟩ post)
  have hjoin := happend (',' :: post) _ _ (n.pieces_of_not_cut (by rw [hn]; simp) hy)
  rw [items, items, hcut, hjoin, tidy_append, tidy_append, List.append_cancel_left_eq,
    List.append_nil] at h
  have hcommas : (x ++ ',' :: y).count ',' = x.count ',' + (y.count ',' + 1) := by
    rw [List.count_append, List.count_cons_self]
  have hne : trim (x ++ ',' :: y) ≠ [] := by
    intro he
    have := count_comma_trim (x ++ ',' :: y)
    rw [he, hcommas, List.count_nil] at this
    omega
  rw [tidy_cons_of_trim hne] at h
  by_cases hblank : trim x = []
  · have hstart : n.cuts (n.run t before) = true := by
      by_cases hinit : init = []
      · rw [hfirst hinit]
        exact ht
      · exact hlater hinit
    have hend := n.cuts_run_blank hstart (blank_of_trim hblank)
    rw [← run_append, ← hbefore, hn] at hend
    exact Bool.false_ne_true hend
  · rw [tidy_cons_of_trim hblank, List.cons.injEq] at h
    have := congrArg (List.count ',') h.1
    rw [count_comma_trim, count_comma_trim, hcommas] at this
    omega

theorem items_eq_iff {s : σ} {t : τ} (hs : m.cuts s = true) (ht : n.cuts t = true)
    {cs : List Char} : m.items s cs = n.items t cs ↔ Agree m n s t cs := by
  refine ⟨fun h pre => ?_, fun h => congrArg tidy h.pieces_eq⟩
  -- along the commas of the text: up to each of them the readings agree
  induction hk : pre.length using Nat.strongRecOn generalizing pre with
  | ind k ih =>
    intro post he
    have hpre : Agree m n s t pre := by
      intro a b ha
      refine ih a.length ?_ a rfl (b ++ ',' :: post) ?_
      · rw [← hk, ha, List.length_append, List.length_cons]
        omega
      · rw [he, ha, List.append_assoc, List.cons_append]
    have hpre' : Agree n m t s pre := fun a b ha => (hpre a b ha).symm
    rw [he] at h
    rw [Bool.eq_iff_iff]
    exact ⟨cuts_of_items_eq ht hpre h, cuts_of_items_eq hs hpre' h.symm⟩

end Separator

/-! ## the two readings of selectors -/

/-- the reading that counts parentheses and brackets, whether in strings or not -/
def byDepth : Separator Nat where
  step := depthBehind
  cuts depth := depth == 0
  neutral depth c hd hc := by
    have hflat : isFlat c = true := by
      rcases hc with hc | rfl
      · exact isFlat_of_isBlank hc
      · rfl
    rw [depthBehind_of_isFlat hflat]
    exact hd

theorem byDepth_pieces (depth : Nat) (cs : List Char) :
    byDepth.pieces depth cs = splitAtCommas depth cs := by
  induction cs generalizing depth with
  | nil => rfl
  | cons c cs ih =>
    have hstep : byDepth.pieces (byDepth.step depth c) cs =
        splitAtCommas (depthBehind depth c) cs := ih _
    have hcuts : byDepth.cuts depth = true ↔ depth = 0 := beq_iff_eq
    by_cases hc : c = ',' ∧ depth = 0
    · rw [byDepth.pieces_of_cut ⟨hc.1, hcuts.mpr hc.2⟩, hstep, splitAtCommas, if_pos hc, hc.1,
        depthBehind_of_isFlat rfl]
    · rw [Separator.pieces, splitAtCommas, hstep, if_neg hc,
        if_neg fun h => hc ⟨h.1, hcuts.mp h.2⟩]

/-- where a text stands: inside a string or outside, as a scan has it, with the closing characters
of the parentheses and brackets that are open, the innermost first -/
structure Place where
  scan : Scan
  closers : List Char
  deriving DecidableEq

end CssOptimizer.Selector

namespace CssOptimizer.Scan

/-- whether a scan stands inside a string -/
def inString : Scan → Bool
  | outside _ => false
  | inside _ _ _ => true

end CssOptimizer.Scan

namespace CssOptimizer.Selector
open Text

namespace Place

def start : Place := ⟨Scan.start, []⟩

/-- what is open behind a character outside strings; what closes nothing is passed over -/
def closersBehind (closers : List Char) (c : Char) : List Char :=
  if c = '(' then ')' :: closers
  else if c = '[' then ']' :: closers
  else if (c = ')' ∨ c = ']') ∧ closers.head? = some c then closers.tail
  else closers

theorem closersBehind_nil {c : Char} (hround : c ≠ '(') (hsquare : c ≠ '[') :
    closersBehind [] c = [] := by
  rw [closersBehind, if_neg hround, if_neg hsquare, if_neg fun h => by simp at h]

def step (p : Place) (c : Char) : Place where
  scan := p.scan.step c
  closers := if p.scan.inString then p.closers else closersBehind p.closers c

def run (p : Place) (cs : List Char) : Place := cs.foldl step p

/-- outside strings, parentheses and brackets -/
def isOutside (p : Place) : Bool := !p.scan.inString && p.closers.isEmpty

end Place

/-- a text closes its strings, parentheses and brackets -/
def Closes (cs : List Char) : Prop := (Place.start.run cs).isOutside = true

instance (cs : List Char) : Decidable (Closes cs) := inferInstanceAs (Decidable (_ = _))

/-- the reading for which a comma separates outside strings, parentheses and brackets -/
def byPlace : Separator Place where
  step := Place.step
  cuts := Place.isOutside
  neutral p c hp hc := by
    obtain ⟨scan, closers⟩ := p
    have hquiet : Scan.Quiet [c] := by
      rcases hc with hc | rfl
      · exact Scan.quiet_of_blank (blank_cons.mpr ⟨hc, blank_nil⟩)
      · intro d hd
        rw [List.mem_singleton.mp hd]
        decide
    have hopens : c ≠ '(' ∧ c ≠ '[' := by
      rcases hc with hc | rfl
      · exact ⟨ne_of_isBlank hc rfl, ne_of_isBlank hc rfl⟩
      · decide
    cases scan with
    | inside quote escaped parens => exact absurd hp (by simp [Place.isOutside, Scan.inString])
    | outside parens =>
      have hclosers : closers = [] := List.isEmpty_iff.mp hp
      have hscan : (Scan.outside parens).step c = .outside parens :=
        Scan.Sound.step_quiet (s := .outside parens) trivial hquiet
      have hbehind : Place.closersBehind [] c = [] := Place.closersBehind_nil hopens.1 hopens.2
      show (⟨(Scan.outside parens).step c, Place.closersBehind closers c⟩ : Place).isOutside = true
      rw [hclosers, hscan, hbehind]
      rfl

/-- the members of a selector list: what stands between the commas outside strings, parentheses and
brackets, with the ends trimmed and empty members left out -/
def listed (selector : String) : List String :=
  (byPlace.items Place.start selector.toList).map String.ofList

theorem componentChars_eq_items (cs : List Char) : componentChars cs = byDepth.items 0 cs := by
  rw [Separator.items, byDepth_pieces]
  rfl

theorem components_eq_listed (selector : String) : components selector = listed selector ↔
    byDepth.Agree byPlace 0 Place.start selector.toList := by
  rw [components, listed, componentChars_eq_items,
    List.map_inj_right fun _ _ h => String.ofList_inj.mp h]
  exact Separator.items_eq_iff rfl rfl

/-! ## strings that leave the count as it is -/

/-- a character that does not let the count of brackets differ from what is open: in a string no
parenthesis or bracket, and no comma outside of what is open; outside strings, what closes does so
what was opened last -/
structure Place.Calm (p : Place) (c : Char) : Prop where
  flat : p.scan.inString = true → isFlat c = true
  enclosed : p.scan.inString = true → c = ',' → p.closers ≠ []
  nested : p.scan.inString = false → c = ')' ∨ c = ']' → p.closers.head? = some c

/-- a text of such characters only -/
def CalmFrom (p : Place) (cs : List Char) : Prop :=
  ∀ pre c post, cs = pre ++ c :: post → (p.run pre).Calm c

theorem calmFrom_cons {p : Place} {c : Char} {cs : List Char} :
    CalmFrom p (c :: cs) ↔ p.Calm c ∧ CalmFrom (p.step c) cs := by
  constructor
  · intro h
    exact ⟨h [] c cs rfl, fun pre d post he => h (c :: pre) d post (by rw [he, List.cons_append])⟩
  · rintro ⟨hc, hcs⟩ pre d post he
    cases pre with
    | nil =>
      rw [List.nil_append, List.cons.injEq] at he
      rw [← he.1]
      exact hc
    | cons x pre =>
      rw [List.cons_append, List.cons.injEq] at he
      rw [← he.1]
      exact hcs pre d post he.2

/-- while a text is calm, its depth is the number of closing characters that are missing -/
theorem depthBehind_calm {p : Place} {c : Char} (h : p.Calm c) :
    depthBehind p.closers.length c = (p.step c).closers.length := by
  cases hs : p.scan.inString with
  | true => rw [depthBehind_of_isFlat (h.flat hs), Place.step, if_pos hs]
  | false =>
    rw [Place.step, if_neg (by rw [hs]; exact Bool.false_ne_true), Place.closersBehind, depthBehind]
    by_cases hround : c = '('
    · rw [if_pos (Or.inl hround), if_pos hround]
      rfl
    by_cases hsquare : c = '['
    · rw [if_pos (Or.inr hsquare), if_neg hround, if_pos hsquare]
      rfl
    rw [if_neg (not_or.mpr ⟨hround, hsquare⟩), if_neg hround, if_neg hsquare]
    by_cases hclose : c = ')' ∨ c = ']'
    · have hhead := h.nested hs hclose
      rw [if_pos hclose, if_pos ⟨hclose, hhead⟩, List.length_tail]
    · rw [if_neg hclose, if_neg fun hc => hclose hc.1]

theorem CalmFrom.agree {p : Place} {cs : List Char} (h : CalmFrom p cs) :
    byDepth.Agree byPlace p.closers.length p cs := by
  induction cs generalizing p with
  | nil => exact fun pre post he => absurd he (by simp)
  | cons c cs ih =>
    obtain ⟨hc, hcs⟩ := calmFrom_cons.mp h
    intro pre post he
    cases pre with
    | nil =>
      rw [List.nil_append, List.cons.injEq] at he
      show (p.closers.length == 0) = p.isOutside
      cases hs : p.scan.inString with
      | true =>
        have hopen := hc.enclosed hs he.1
        rw [Place.isOutside, hs, Bool.not_true, Bool.false_and, beq_eq_false_iff_ne]
        exact fun hl => hopen (List.length_eq_zero_iff.mp hl)
      | false =>
        rw [Place.isOutside, hs]
        cases p.closers <;> rfl
    | cons x pre =>
      rw [List.cons_append, List.cons.injEq] at he
      have hrest := ih hcs pre post he.2
      rw [← depthBehind_calm hc, he.1] at hrest
      exact hrest

/-- the components of a selector are the members of its list exactly if each comma stands at depth
zero where it stands outside strings, parentheses and brackets, and only there; so it is for every
text that is nested well and whose strings hold no parenthesis, no bracket, and no comma outside of
parentheses and brackets -/
theorem components_eq_listed_iff (selector : String) :
    (components selector = listed selector ↔ ∀ pre post, selector.toList = pre ++ ',' :: post →
      (depthAfter 0 pre = 0 ↔ (Place.start.run pre).isOutside = true)) ∧
    (CalmFrom Place.start selector.toList → components selector = listed selector) := by
  refine ⟨?_, fun h => (components_eq_listed selector).mpr h.agree⟩
  rw [components_eq_listed]
  refine forall_congr' fun pre => forall_congr' fun post => imp_congr_right fun _ => ?_
  show ((depthAfter 0 pre == 0) = (Place.start.run pre).isOutside) ↔ _
  rw [Bool.eq_iff_iff, beq_iff_eq]

instance (p : Place) (c : Char) : Decidable (p.Calm c) :=
  decidable_of_iff ((p.scan.inString = true → isFlat c = true) ∧
      (p.scan.inString = true → c = ',' → p.closers ≠ []) ∧
      (p.scan.inString = false → c = ')' ∨ c = ']' → p.closers.head? = some c))
    ⟨fun h => ⟨h.1, h.2.1, h.2.2⟩, fun h => ⟨h.flat, h.enclosed, h.nested⟩⟩

instance decidableCalmFrom : (p : Place) → (cs : List Char) → Decidable (CalmFrom p cs)
  | _, [] => isTrue fun pre c post he => absurd he (by simp)
  | p, c :: cs =>
    have := decidableCalmFrom (p.step c) cs
    decidable_of_iff _ calmFrom_cons.symm

/-- commas inside brackets, inside a string and inside parentheses -/
def themedLinks : String := "[data-x=\x22a,b\x22] > p, :is(.a, .b), .c"

theorem components_themedLinks :
    CalmFrom Place.start themedLinks.toList ∧ components themedLinks = listed themedLinks ∧
    listed themedLinks = ["[data-x=\x22a,b\x22] > p", ":is(.a, .b)", ".c"] := by
  have hcalm : CalmFrom Place.start themedLinks.toList := by decide +kernel
  exact ⟨hcalm, (components_eq_listed_iff themedLinks).2 hcalm, by decide +kernel⟩

/-- a bracket in a string that hides a comma, and one that lets a comma inside parentheses
separate -/
theorem components_bracketInString :
    Closes "[x=\x22(\x22], html".toList ∧
    listed "[x=\x22(\x22], html" = ["[x=\x22(\x22]", "html"] ∧
    components "[x=\x22(\x22], html" = ["[x=\x22(\x22], html"] ∧
    Closes ":is([x=\x22)\x22], .b)".toList ∧
    listed ":is([x=\x22)\x22], .b)" = [":is([x=\x22)\x22], .b)"] ∧
    components ":is([x=\x22)\x22], .b)" = [":is([x=\x22)\x22]", ".b)"] := by
  decide +kernel

end CssOptimizer.Selector
