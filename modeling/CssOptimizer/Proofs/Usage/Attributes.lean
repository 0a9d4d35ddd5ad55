import CssOptimizer.Proofs.Text.Words
import CssOptimizer.Proofs.Usage.Tags

/-!
# Attributes as they are read

The scans of markup read an attribute wherever its name stands at the start of a text or behind a
character that opens attributes.

* `Assigns`               an attribute as the scans read it;
* `value?_eq_some_iff`    what is read at the start of a text;
* `scanFor`               the scan of HTML for one attribute;
* `scanFor_cons`          where it reads, whatever stands before.
-/

namespace CssOptimizer.Usage
open Text

/-! ## a name with its value -/

def isQuote (c : Char) : Bool := c == '\x22' || c == '\x27'

theorem isQuote_iff {c : Char} : isQuote c = true ↔ c = '\x22' ∨ c = '\x27' := by
  rw [isQuote, Bool.or_eq_true, beq_iff_eq, beq_iff_eq]

/-- an attribute as the scan reads it: blanks may stand around the equals sign, and the value is
quoted -/
inductive Assigns (name value : List Char) : List Char → Prop where
  | mk {w₁ w₂ : List Char} {q : Char} (before : Blank w₁) (behind : Blank w₂)
      (quote : isQuote q = true) (unquoted : q ∉ value) :
      Assigns name value (name ++ (w₁ ++ '=' :: (w₂ ++ q :: (value ++ [q]))))

/-- a quoted text goes on to the next quote of its kind -/
theorem quoted_eq_some_iff {cs value : List Char} {n : Nat} :
    Attribute.quoted cs = some (value, n) ↔ ∃ q rest, cs = q :: (value ++ q :: rest) ∧
      isQuote q = true ∧ q ∉ value ∧ n = value.length + 2 := by
  constructor
  · intro h
    cases cs with
    | nil => exact absurd h (by simp [Attribute.quoted])
    | cons q cs =>
      rw [Attribute.quoted] at h
      split at h
      · rename_i hq
        simp only at h
        split at h
        · exact absurd h (by simp)
        · rename_i hclosed
          obtain ⟨hvalue, hn⟩ := Prod.mk.inj (Option.some.inj h)
          obtain ⟨d, rest, hrest⟩ := List.exists_cons_of_ne_nil
            (fun he => hclosed (List.isEmpty_iff.mpr he))
          have hd : d = q := by
            have := startsIn_dropWhile (· != q) cs d (by rw [hrest]; rfl)
            simpa using this
          refine ⟨q, rest, ?_, ?_, ?_, by rw [← hn, ← hvalue]⟩
          · rw [← hd, ← hrest, ← hvalue, hd, List.takeWhile_append_dropWhile]
          · exact isQuote_iff.mpr hq
          · rw [← hvalue]
            intro hmem
            have := List.all_eq_true.mp List.all_takeWhile q hmem
            simp at this
      · exact absurd h (by simp)
  · rintro ⟨q, rest, rfl, hq, hv, rfl⟩
    have hall : ∀ c ∈ value, (c != q) = true := by
      intro c hc
      rw [bne_iff_ne]
      rintro rfl
      exact hv hc
    have hend : StartsIn (!(· != q) ·) (q :: rest) := startsIn_cons (by simp) rest
    rw [Attribute.quoted, if_pos (isQuote_iff.mp hq)]
    simp only [takeWhile_append hall hend, dropWhile_append hall hend]
    rfl

theorem value?_eq_some_iff {name cs value : List Char} {n : Nat} :
    Attribute.value? name cs = some (value, n) ↔
      ∃ taken rest, cs = taken ++ rest ∧ Assigns name value taken ∧ n = taken.length := by
  constructor
  · intro h
    unfold Attribute.value? at h
    split at h
    · exact absurd h (by simp)
    · rename_i cs₁ hname
      simp only [Attribute.skipBlanks] at h
      split at h
      · rename_i cs₂ hsign
        obtain ⟨⟨v, length⟩, hquoted, he⟩ := Option.map_eq_some_iff.mp h
        obtain ⟨rfl, rfl⟩ := Prod.mk.inj he
        obtain ⟨q, rest, hvalue, hq, hv, rfl⟩ := quoted_eq_some_iff.mp hquoted
        have h₁ := List.takeWhile_append_dropWhile (l := cs₁) (p := isBlank)
        have h₂ := List.takeWhile_append_dropWhile (l := cs₂) (p := isBlank)
        rw [hsign] at h₁
        rw [hvalue] at h₂
        refine ⟨_, rest, ?_, .mk (blank_takeWhile cs₁) (blank_takeWhile cs₂) hq hv, ?_⟩
        · rw [literal_eq_some hname]
          conv => lhs; rw [← h₁, ← h₂]
          simp only [List.append_assoc, List.cons_append, List.nil_append]
        · simp only [List.length_append, List.length_cons, List.length_nil]
          omega
      · exact absurd h (by simp)
  · rintro ⟨taken, rest, rfl, ⟨before, behind, hq, hv⟩, rfl⟩
    rename_i w₁ w₂ q
    have hquote : isBlank q = false := by
      rcases isQuote_iff.mp hq with rfl | rfl
      · decide
      · decide
    have hsign : StartsIn (!isBlank ·) ('=' :: (w₂ ++ q :: (value ++ q :: rest))) :=
      startsIn_cons (by decide) _
    have hopen : StartsIn (!isBlank ·) (q :: (value ++ q :: rest)) :=
      startsIn_cons (by rw [hquote]; rfl) _
    have hquoted : Attribute.quoted (q :: (value ++ q :: rest)) =
        some (value, value.length + 2) :=
      quoted_eq_some_iff.mpr ⟨q, rest, rfl, hq, hv, rfl⟩
    have hassoc : (name ++ (w₁ ++ '=' :: (w₂ ++ q :: (value ++ [q])))) ++ rest =
        name ++ (w₁ ++ '=' :: (w₂ ++ q :: (value ++ q :: rest))) := by
      simp only [List.append_assoc, List.cons_append, List.nil_append]
    rw [hassoc, Attribute.value?, literal_append]
    simp only [Attribute.skipBlanks, dropWhile_append before hsign, takeWhile_append before hsign,
      dropWhile_append behind hopen, takeWhile_append behind hopen, hquoted, Option.map_some,
      List.length_append, List.length_cons, List.length_nil]
    congr 2
    omega

theorem endsNames_blank_append {w rest : List Char} (hw : Blank w) (hr : EndsNames rest) :
    EndsNames (w ++ rest) := by
  cases w with
  | nil => exact hr
  | cons c w => exact endsNames_cons (isName_of_isBlank (blank_cons.mp hw).1) (w ++ rest)

/-- where an attribute is read, its name stands as the longest one -/
theorem leadingName_of_assigns {name value taken : List Char} (hn : ∀ c ∈ name, isName c = true)
    (h : Assigns name value taken) (rest : List Char) : leadingName (taken ++ rest) = name := by
  obtain ⟨hw₁, hw₂, hq, hv⟩ := h
  rw [List.append_assoc, leadingName_append hn]
  rw [List.append_assoc]
  exact endsNames_blank_append hw₁ (endsNames_cons (by decide) _)

/-! ## the scan for an attribute -/

theorem isName_of_opens {c : Char} (h : opensHtmlAttribute c = true) : isName c = false := by
  simp only [opensHtmlAttribute, Bool.or_eq_true, beq_iff_eq] at h
  rcases h with ((h | rfl) | rfl) | rfl
  · exact isName_of_isBlank h
  · decide
  · decide
  · decide

def scanFor (name : List Char) : Pattern (List Char) :=
  Attribute.pattern opensHtmlAttribute [name]

theorem scanFor_cons {name : List Char} (h : TagName name) {before : Option Char} {c : Char}
    (hc : before.isSome = true ∨ isName c = false) (cs : List Char) :
    scanFor name before (c :: cs) = if opensHtmlAttribute c then
      (Attribute.value? name cs).map fun (value, length) => (value, length + 1) else none := by
  have hfind (cs : List Char) :
      [name].findSome? (Attribute.value? · cs) = Attribute.value? name cs := by
    rw [List.findSome?_cons]
    cases Attribute.value? name cs <;> rfl
  have hstart : (if before.isNone then Attribute.value? name (c :: cs) else none) = none := by
    rcases hc with hc | hc
    · rw [Option.isSome_iff_ne_none] at hc
      rw [if_neg (by rwa [Option.isNone_iff_eq_none])]
    · split
      · rw [Option.eq_none_iff_forall_ne_some]
        rintro ⟨value, n⟩ hread
        obtain ⟨taken, rest, he, htaken, -⟩ := value?_eq_some_iff.mp hread
        have hname := leadingName_of_assigns h.isName htaken rest
        rw [← he, leadingName, List.takeWhile_cons, hc] at hname
        exact h.ne_nil hname.symm
      · rfl
  unfold scanFor Attribute.pattern
  simp only [hfind, hstart]

end CssOptimizer.Usage
