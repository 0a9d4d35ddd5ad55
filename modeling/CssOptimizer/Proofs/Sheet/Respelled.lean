import CssOptimizer.Proofs.Sheet.NormalForm
import Mathlib.Data.List.Forall2

/-!
# Spellings of declarations

Two declarations are spellings of each other if their properties and their values are.  They have
the same key unless blanks part the semicolons at an end of one of them.

* `Declaration.Respelled`, `Declaration.Parted`, `Declaration.Matches`   these notions for
                              declarations;
* `Declaration.key_eq_iff`    of two spellings, one of which is not parted, the other has the same
                              key exactly if it is not parted either;
* `keys_eq_iff`               the same for bodies;
* `readAll_respelled`         of two spellings of a body the same declarations are read, up to their
                              spelling.

Blanks and semicolons behind a body get into its last declaration if this leaves a string or a
parenthesis open (`readAll_lengthened`); otherwise they are dropped.
-/

namespace CssOptimizer
open Scan Text

theorem droppable_nil : Droppable [] := fun _ h => absurd h List.not_mem_nil

theorem droppable_append {a b : List Char} : Droppable (a ++ b) ↔ Droppable a ∧ Droppable b :=
  List.forall_mem_append

/-- texts with the same start and droppable characters behind it -/
theorem respelled_append (cs : List Char) {b b' : List Char} (hb : Droppable b)
    (hb' : Droppable b') : Respelled (cs ++ b) (cs ++ b') :=
  ⟨cs, [], b, [], b', rfl, rfl, blank_nil, hb, blank_nil, hb'⟩

/-! ## keys -/

namespace Declaration

/-- declarations whose properties and whose values differ only in the blanks around them and in
the semicolons at their ends -/
def Respelled (d e : Declaration) : Prop :=
  CssOptimizer.Respelled d.property.toList e.property.toList ∧
    CssOptimizer.Respelled d.value.toList e.value.toList

/-- a declaration of which blanks part the semicolons at the end of the property or of the value -/
def Parted (d : Declaration) : Prop :=
  CssOptimizer.Parted d.property.toList ∨ CssOptimizer.Parted d.value.toList

instance (d : Declaration) : Decidable d.Parted := inferInstanceAs (Decidable (_ ∨ _))

def Matches (d e : Declaration) : Prop := d.Respelled e ∧ ¬d.Parted ∧ ¬e.Parted

theorem key_eq_iff {d e : Declaration} (h : d.Respelled e) (hd : ¬d.Parted) :
    d.key = e.key ↔ ¬e.Parted := by
  have hkeys : d.key = e.key ↔ normalize d.property.toList = normalize e.property.toList ∧
      normalize d.value.toList = normalize e.value.toList := by
    rw [key, key, DeclarationKey.ofTexts, DeclarationKey.ofTexts, DeclarationKey.mk.injEq,
      ← String.toList_inj, ← String.toList_inj]
    simp only [toList_onString]
  obtain ⟨hproperty, hvalue⟩ := not_or.mp hd
  rw [hkeys, h.1.normalize_eq_iff hproperty, h.2.normalize_eq_iff hvalue]
  exact not_or.symm

theorem Matches.key_eq {d e : Declaration} (h : d.Matches e) : d.key = e.key :=
  (key_eq_iff h.1 h.2.1).mpr h.2.2

end Declaration

theorem keys_eq_iff {a b : List Declaration} (h : List.Forall₂ Declaration.Respelled a b)
    (ha : ∀ d ∈ a, ¬d.Parted) :
    a.map Declaration.key = b.map Declaration.key ↔ ∀ e ∈ b, ¬e.Parted := by
  induction h with
  | nil => exact ⟨fun _ _ he => absurd he List.not_mem_nil, fun _ => rfl⟩
  | cons hde _ ih =>
    obtain ⟨hd, ha⟩ := List.forall_mem_cons.mp ha
    rw [List.map_cons, List.map_cons, List.cons.injEq, Declaration.key_eq_iff hde hd, ih ha,
      List.forall_mem_cons]

/-! ## reading -/

theorem colon_not_mem_of_droppable {g : List Char} (h : Droppable g) : ':' ∉ g := by
  intro hm
  rcases h ':' hm with hb | he
  · exact absurd hb (by decide)
  · exact absurd he (by decide)

/-- what is droppable behind a text adds droppable characters to it, or nothing -/
theorem exists_trim_append (cs : List Char) {g : List Char} (hg : Droppable g) :
    ∃ left, Droppable left ∧ trim (cs ++ g) = trim cs ++ left := by
  by_cases hnil : trim cs = []
  · obtain ⟨a, b, -, -, he⟩ := exists_trim g
    rw [he, droppable_append, droppable_append] at hg
    refine ⟨trim g, hg.1.2, ?_⟩
    rw [hnil, trim, trimStart_blank (blank_of_trim hnil)]
    rfl
  · obtain ⟨a, b, ha, hb, he⟩ := exists_trim cs
    obtain ⟨gone, -, hgone⟩ := exists_trimEnd (b ++ g)
    have hleft : Droppable (trimEnd (b ++ g) ++ gone) := by
      rw [← hgone]
      exact droppable_append.mpr ⟨fun c hc => Or.inl (hb c hc), hg⟩
    refine ⟨trimEnd (b ++ g), (droppable_append.mp hleft).1, ?_⟩
    have hstart : trimStart (trim cs ++ (b ++ g)) = trim cs ++ (b ++ g) := by
      obtain ⟨c, rest, hcons⟩ := List.exists_cons_of_ne_nil hnil
      have htrimmed := (trimmed_trim cs).start
      rw [hcons] at htrimmed ⊢
      exact trimStart_of_not_isBlank (not_isBlank_of_trimStart htrimmed) _
    calc trim (cs ++ g) = trimEnd (trimStart (a ++ (trim cs ++ (b ++ g)))) := by
          rw [← List.append_assoc, ← List.append_assoc, ← he]
          rfl
      _ = trimEnd (trim cs ++ (b ++ g)) := by rw [trimStart_blank ha, hstart]
      _ = trim cs ++ trimEnd (b ++ g) := (trimmed_trim cs).trimEnd_append hnil _

namespace Declaration

theorem read?_of_no_colon {text : List Char} (h : ':' ∉ text) : read? text = none := by
  refine Option.eq_none_iff_forall_ne_some.mpr fun d hd => h ?_
  obtain ⟨-, a, y, x, b, -, rfl⟩ := writtenAs_of_read? hd
  simp

theorem readAll_of_no_colon (text : List Char) : ':' ∉ text → readAll text = [] := by
  refine bodyInduction (P := fun text ds => ':' ∉ text → ds = []) ?_ ?_ text
  · intro seg _ h
    rw [read?_of_no_colon h]
    rfl
  · intro seg rest _ ih h
    rw [List.mem_append, List.mem_cons, not_or, not_or] at h
    rw [read?_of_no_colon h.1, ih h.2.2]
    rfl

/-- a declaration with more blanks and semicolons behind its value -/
def Lengthened (d e : Declaration) : Prop :=
  e.property = d.property ∧ ∃ g, Droppable g ∧ e.value.toList = d.value.toList ++ g

theorem Lengthened.refl (d : Declaration) : d.Lengthened d :=
  ⟨rfl, [], droppable_nil, (List.append_nil _).symm⟩

theorem Lengthened.respelled {c d e : Declaration} (hd : c.Lengthened d) (he : c.Lengthened e) :
    d.Respelled e := by
  obtain ⟨hproperty, g, hg, hvalue⟩ := hd
  obtain ⟨hproperty', g', hg', hvalue'⟩ := he
  constructor
  · rw [hproperty, hproperty', ← List.append_nil c.property.toList]
    exact respelled_append c.property.toList droppable_nil droppable_nil
  · rw [hvalue, hvalue']
    exact respelled_append c.value.toList hg hg'

theorem respelled_of_lengthened {cs ds es : List Declaration}
    (hd : List.Forall₂ Lengthened cs ds) (he : List.Forall₂ Lengthened cs es) :
    List.Forall₂ Respelled ds es := by
  induction hd generalizing es with
  | nil =>
    cases he
    exact .nil
  | cons hcd _ ih =>
    cases he with
    | cons hce he => exact .cons (hcd.respelled hce) (ih he)

theorem read?_lengthened (seg : List Char) {g : List Char} (hg : Droppable g) :
    List.Forall₂ Lengthened (read? seg).toList (read? (seg ++ g)).toList := by
  cases hcut : cutAt (· == ':') seg with
  | none =>
    have hseg : ':' ∉ seg := fun hm => absurd (cutAt_eq_none hcut ':' hm) (by decide)
    have hboth : ':' ∉ seg ++ g :=
      fun hm => (List.mem_append.mp hm).elim hseg (colon_not_mem_of_droppable hg)
    rw [read?_of_no_colon hseg, read?_of_no_colon hboth]
    exact .nil
  | some r =>
    obtain ⟨p, c, v⟩ := r
    obtain ⟨hp, hc⟩ := cutAt_spec hcut
    obtain ⟨left, hleft, hv⟩ := exists_trim_append v hg
    rw [cutAt_eq_some hcut, eq_of_beq hc, List.append_assoc, List.cons_append, read?_colon hp,
      read?_colon hp, hv]
    split
    · exact .nil
    · refine .cons ⟨rfl, left, hleft, ?_⟩ .nil
      rw [String.toList_ofList, String.toList_ofList]

theorem readAll_lengthened (text : List Char) {g : List Char} (hg : Droppable g) :
    List.Forall₂ Lengthened (readAll text) (readAll (text ++ g)) := by
  refine bodyInduction (P := fun text ds => List.Forall₂ Lengthened ds (readAll (text ++ g)))
    ?_ ?_ text
  · intro seg hseg
    cases hcut : cut (· == ';') start (seg ++ g) with
    | none =>
      rw [readAll_last (cut_eq_none_iff.mp hcut)]
      exact read?_lengthened seg hg
    | some r =>
      obtain ⟨before, e, rest⟩ := r
      have hplain := (plain_of_cut hcut).1
      obtain ⟨hsplit, he⟩ := cut_eq_some hcut
      rw [cut_append_right hseg, Option.map_eq_some_iff] at hcut
      obtain ⟨⟨inner, e', rest'⟩, hinner, heq⟩ := hcut
      simp only [Prod.mk.injEq] at heq
      obtain ⟨rfl, rfl, rfl⟩ := heq
      have hends := hg
      rw [(cut_eq_some hinner).1, droppable_append] at hends
      have hrest : ':' ∉ rest' := fun hm =>
        colon_not_mem_of_droppable hends.2 (List.mem_cons_of_mem _ hm)
      rw [hsplit, eq_of_beq he, readAll_append hplain, readAll_of_no_colon rest' hrest,
        List.append_nil]
      exact read?_lengthened seg hends.1
  · intro seg rest hseg ih
    rw [List.append_assoc, List.cons_append, readAll_append hseg]
    exact List.rel_append (List.forall₂_same.mpr fun d _ => Lengthened.refl d) ih

/-- blanks in front of a body are dropped -/
theorem readAll_blanks {ws : List Char} (h : Blank ws) (text : List Char) :
    readAll (ws ++ text) = readAll text := by
  have hread (seg : List Char) : read? (ws ++ seg) = read? seg := by
    rw [read?, read?, trim, trimStart_blank h, trim]
  have hbare : hasBare (· == ';') start ws = false := hasBare_blanks (visible_beq rfl) start h
  refine bodyInduction (P := fun text ds => readAll (ws ++ text) = ds) ?_ ?_ text
  · intro seg hseg
    have hboth : hasBare (· == ';') start (ws ++ seg) = false := by
      rw [hasBare_append, hbare, run_start_blanks h, hseg]
      rfl
    rw [readAll_last hboth, hread]
  · intro seg rest hseg _
    have hplain : Plain (· == ';') (ws ++ seg) := Plain.append ⟨run_start_blanks h, hbare⟩ hseg
    rw [← List.append_assoc, readAll_append hplain, hread]

theorem readAll_respelled {s t : List Char} (h : CssOptimizer.Respelled s t) :
    List.Forall₂ Respelled (readAll s) (readAll t) := by
  obtain ⟨core, a, b, a', b', rfl, rfl, ha, hb, ha', hb'⟩ := h
  rw [List.append_assoc, List.append_assoc, readAll_blanks ha, readAll_blanks ha']
  exact respelled_of_lengthened (readAll_lengthened core hb) (readAll_lengthened core hb')

end Declaration
end CssOptimizer
