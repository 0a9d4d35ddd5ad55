import CssOptimizer.Proofs.Scan.Spacing
import CssOptimizer.Proofs.Sheet.Condition

/-!
# The texts of declarations and headers

* `Declaration.WrittenAs d text`      `text` is `d` with blanks around it and around its colon;
* `Header.WrittenAs name params text` `text` is the header of an at-rule with blanks around it and
                                      behind its name.

All the texts of a declaration, and all those of a header, have the structure of the one without
superfluous blanks (`WrittenAs.alike`).
-/

namespace CssOptimizer
open Scan Text

/-! ## declarations -/

namespace Declaration

def WrittenAs (d : Declaration) (text : List Char) : Prop :=
  ∃ a y x b, (Blank a ∧ Blank y ∧ Blank x ∧ Blank b) ∧
    text = a ++ (d.property.toList ++ (y ++ ':' :: (x ++ d.value.toList))) ++ b

theorem isBlank_colon : isBlank ':' = false := rfl

/-- a text is read as what stands before its first colon and what stands behind it -/
theorem read?_colon {p : List Char} (hp : ∀ c ∈ p, (c == ':') = false) (v : List Char) :
    read? (p ++ ':' :: v) =
      if (trim p).isEmpty then none
      else some ⟨String.ofList (trim p), String.ofList (trim v)⟩ := by
  have hstart : ∀ c ∈ trimStart p, (c == ':') = false := fun c hc =>
    hp c ((List.dropWhile_sublist _).subset hc)
  have htrim : trim (trimStart p) = trim p :=
    congrArg trimEnd (dropWhile_idem isBlank p)
  rw [read?, trim, trimStart_append_cons p isBlank_colon, trimEnd_append_cons _ isBlank_colon,
    cutAt_append hstart (show (':' == ':') = true from rfl)]
  show (if (trim (trimStart p)).isEmpty then none else _) = _
  rw [htrim, trim_trimEnd]

theorem read?_of_writtenAs {d : Declaration} (hd : d.Tidy) {text : List Char}
    (h : d.WrittenAs text) : read? text = some d := by
  obtain ⟨a, y, x, b, ⟨ha, hy, hx, hb⟩, rfl⟩ := h
  have hproperty : ∀ c ∈ a ++ d.property.toList ++ y, (c == ':') = false := by
    intro c hc
    rw [beq_eq_false_iff_ne]
    rw [List.mem_append, List.mem_append] at hc
    rcases hc with (hc | hc) | hc
    · exact ne_of_isBlank (ha c hc) isBlank_colon
    · exact fun he => hd.property_colon (he ▸ hc)
    · exact ne_of_isBlank (hy c hc) isBlank_colon
  have hne : d.property.toList.isEmpty = false := List.isEmpty_eq_false_iff.mpr hd.property_ne
  calc read? (a ++ (d.property.toList ++ (y ++ ':' :: (x ++ d.value.toList))) ++ b)
      = read? ((a ++ d.property.toList ++ y) ++ ':' :: (x ++ d.value.toList ++ b)) := by
        simp only [List.append_assoc, List.cons_append]
    _ = some d := by
      rw [read?_colon hproperty, trim_between ha hy hd.property_trimmed,
        trim_between hx hb hd.value_trimmed, hne, if_neg Bool.false_ne_true, String.ofList_toList,
        String.ofList_toList]

theorem writtenAs_of_read? {d : Declaration} {text : List Char} (h : read? text = some d) :
    d.Tidy ∧ d.WrittenAs text := by
  unfold read? at h
  split at h
  · simp at h
  · rename_i p c v hcut
    obtain ⟨hp, hc⟩ := cutAt_spec hcut
    have htext := cutAt_eq_some hcut
    rw [eq_of_beq hc] at htext
    simp only at h
    split at h
    · simp at h
    · rename_i hne
      rw [Option.some.injEq] at h
      subst h
      obtain ⟨a, b, ha, hb, he⟩ := exists_trim text
      obtain ⟨a', y, ha', hy, hpe⟩ := exists_trim p
      obtain ⟨x, b', hx, hb', hve⟩ := exists_trim v
      refine ⟨⟨?_, ?_, ?_, ?_⟩, a ++ a', y, x, b' ++ b, ⟨ha.append ha', hy, hx, hb'.append hb⟩, ?_⟩
      · rw [String.toList_ofList]
        exact fun hn => hne (List.isEmpty_iff.mpr hn)
      · rw [String.toList_ofList]
        exact trimmed_trim p
      · rw [String.toList_ofList]
        intro hm
        have hmp : ':' ∈ p := by
          rw [hpe]
          exact List.mem_append_left _ (List.mem_append_right _ hm)
        exact absurd (hp ':' hmp) (by simp)
      · rw [String.toList_ofList]
        exact trimmed_trim v
      · rw [String.toList_ofList, String.toList_ofList]
        calc text = a ++ (p ++ ':' :: v) ++ b := by rw [← htext]; exact he
          _ = a ++ ((a' ++ trim p ++ y) ++ ':' :: (x ++ trim v ++ b')) ++ b := by rw [← hpe, ← hve]
          _ = (a ++ a') ++ (trim p ++ (y ++ ':' :: (x ++ trim v))) ++ (b' ++ b) := by
            simp only [List.append_assoc, List.cons_append]

theorem quiet_colon : Quiet [':'] := by
  intro c hc
  rw [List.mem_singleton.mp hc]
  decide

/-- behind a colon blanks change nothing -/
theorem run_blanks_colon {s : Scan} (hs : s.Sound) {ws : List Char} (h : Blank ws) :
    (s.step ':').run ws = s.step ':' := by
  by_cases he : ws = []
  · rw [he, run_nil]
  · have hc : s.step ':' = s.unescape := hs.step_quiet quiet_colon
    rw [(hs.step ':').run_quiet (quiet_of_blank h) he, hc, unescape_unescape]

theorem WrittenAs.alike {d : Declaration} {text : List Char} (h : d.WrittenAs text) :
    Alike start text d.chars := by
  obtain ⟨a, y, x, b, ⟨ha, hy, hx, hb⟩, rfl⟩ := h
  have hs : (start.run d.property.toList).Sound := sound_start.run _
  have hhead : (y ++ ':' :: (x ++ d.value.toList)).head? ≠ some '*' := by
    cases y with
    | nil => simp
    | cons c y =>
      rw [List.cons_append, List.head?_cons, ne_eq, Option.some.injEq]
      exact ne_of_isBlank (blank_cons.mp hy).1 rfl
  refine (alike_between ha hb _).trans (Alike.append_left _ hhead (by simp) ?_)
  refine (hs.alike_before hy rfl (by decide) (by decide) _).trans ?_
  exact Alike.cons (by decide) (alike_blanks hx (run_blanks_colon hs hx) _)

end Declaration

/-! ## headers -/

namespace Header

theorem read?_style {selector : String} (h : TidySelector selector) {a b : List Char}
    (ha : Blank a) (hb : Blank b) :
    read? (a ++ selector.toList ++ b) = some (.style selector.toList) := by
  rw [read?, trim_between ha hb h.trimmed]
  cases hs : selector.toList with
  | nil => exact absurd hs h.ne
  | cons c cs =>
    have hc : c ≠ '@' := by
      intro hc
      apply h.head
      rw [hs, hc]
      rfl
    split
    · rename_i he
      simp at he
    · rename_i he
      rw [List.cons.injEq] at he
      exact absurd he.1 hc
    · rfl

theorem of_read?_style {text selector : List Char} (h : read? text = some (.style selector)) :
    TidySelector (String.ofList selector) ∧
      ∃ a b, (Blank a ∧ Blank b) ∧ text = a ++ selector ++ b := by
  obtain ⟨a, b, ha, hb, he⟩ := exists_trim text
  have ht := trimmed_trim text
  unfold read? at h
  split at h
  · simp at h
  · simp only at h
    split at h <;> simp at h
  · rename_i h₁ h₂
    simp only [Option.some.injEq, Header.style.injEq] at h
    rw [h] at he ht h₁ h₂
    refine ⟨⟨?_, ?_, ?_⟩, a, b, ⟨ha, hb⟩, he⟩
    · rw [String.toList_ofList]
      exact h₁
    · rw [String.toList_ofList]
      exact ht
    · rw [String.toList_ofList]
      intro hat
      obtain ⟨cs, hcs⟩ := List.head?_eq_some_iff.mp hat
      exact h₂ cs hcs

/-- blanks may stand around a header and behind its name; only a parenthesis needs none there -/
def WrittenAs (name params : String) (text : List Char) : Prop :=
  ∃ a x b, (Blank a ∧ Blank x ∧ Blank b) ∧
    (x = [] → params.toList = [] ∨ params.toList.head? = some '(') ∧
    text = a ++ '@' :: (name.toList ++ (x ++ params.toList)) ++ b

/-- what stands behind the name starts with a character that ends it -/
theorem endsName_of_head {x params : List Char} (hx : Blank x)
    (h : x = [] → params = [] ∨ params.head? = some '(') {c : Char}
    (hc : (x ++ params).head? = some c) : endsName c = true := by
  cases x with
  | nil =>
    rcases h rfl with h | h
    · simp [h] at hc
    · rw [List.nil_append, h, Option.some.injEq] at hc
      rw [← hc]
      rfl
  | cons d x =>
    rw [List.cons_append, List.head?_cons, Option.some.injEq] at hc
    rw [endsName, ← hc, (blank_cons.mp hx).1]
    rfl

theorem head?_trimEnd {cs : List Char} {c : Char} (h : (trimEnd cs).head? = some c) :
    cs.head? = some c := by
  obtain ⟨b, _, he⟩ := exists_trimEnd cs
  obtain ⟨t, ht⟩ := List.head?_eq_some_iff.mp h
  rw [he, ht]
  rfl

theorem read?_atRule {name params : String} (h : TidyHeader name params) {text : List Char}
    (hw : WrittenAs name params text) :
    read? text = some (.atRule name.toList params.toList) := by
  obtain ⟨a, x, b, ⟨ha, hx, hb⟩, htight, rfl⟩ := hw
  have hat : isBlank '@' = false := rfl
  have hname : ∀ c ∈ name.toList, isBlank c = false := by
    intro c hc
    have := h.word c hc
    rw [endsName, Bool.or_eq_false_iff] at this
    exact this.1
  have htrim : trim (a ++ '@' :: (name.toList ++ (x ++ params.toList)) ++ b) =
      '@' :: (name.toList ++ trimEnd (x ++ params.toList)) := by
    have hend := trimEnd_append_cons [] hat (name.toList ++ (x ++ params.toList))
    rw [List.nil_append, List.nil_append, trimEnd_word hname] at hend
    rw [trim, List.append_assoc, trimStart_blank ha, List.cons_append,
      trimStart_of_not_isBlank hat, ← List.cons_append, trimEnd_blank hb, hend]
  have hword : ∀ c ∈ name.toList, (!endsName c) = true := by
    intro c hc
    rw [h.word c hc]
    rfl
  have hrest : (trimEnd (x ++ params.toList)).takeWhile (!endsName ·) = [] ∧
      (trimEnd (x ++ params.toList)).dropWhile (!endsName ·) = trimEnd (x ++ params.toList) := by
    cases ht : trimEnd (x ++ params.toList) with
    | nil => exact ⟨rfl, rfl⟩
    | cons c cs =>
      have hc : endsName c = true := endsName_of_head hx htight (head?_trimEnd (by rw [ht]; rfl))
      simp [hc]
  have hparams : trim (trimEnd (x ++ params.toList)) = params.toList := by
    rw [trim_trimEnd, ← List.append_nil (x ++ params.toList)]
    exact trim_between hx blank_nil h.trimmed
  have hne : name.toList.isEmpty = false := List.isEmpty_eq_false_iff.mpr h.ne
  have htake : (name.toList ++ trimEnd (x ++ params.toList)).takeWhile (!endsName ·) =
      name.toList := by
    rw [List.takeWhile_append_of_pos hword, hrest.1, List.append_nil]
  have hdrop : (name.toList ++ trimEnd (x ++ params.toList)).dropWhile (!endsName ·) =
      trimEnd (x ++ params.toList) := by
    rw [List.dropWhile_append_of_pos hword, hrest.2]
  rw [read?, htrim]
  show (if (List.takeWhile (!endsName ·) _).isEmpty = true then none
    else some (Header.atRule (List.takeWhile (!endsName ·) _)
      (trim (List.dropWhile (!endsName ·) _)))) = _
  rw [htake, hdrop, hparams, hne, if_neg Bool.false_ne_true]

theorem of_read?_atRule {text name params : List Char}
    (h : read? text = some (.atRule name params)) :
    TidyHeader (String.ofList name) (String.ofList params) ∧
      WrittenAs (String.ofList name) (String.ofList params) text := by
  obtain ⟨a, b, ha, hb, he⟩ := exists_trim text
  unfold read? at h
  split at h
  · simp at h
  · rename_i cs hcs
    simp only at h
    split at h
    · simp at h
    · rename_i hne
      simp only [Option.some.injEq, Header.atRule.injEq] at h
      obtain ⟨hn, hp⟩ := h
      have hsplit : cs = name ++ cs.dropWhile (!endsName ·) := by
        rw [← hn]
        exact (List.takeWhile_append_dropWhile ..).symm
      obtain ⟨x, y, hx, hy, hpe⟩ := exists_trim (cs.dropWhile (!endsName ·))
      have hparams : trim (cs.dropWhile (!endsName ·)) = params := hp
      rw [hparams] at hpe
      refine ⟨⟨?_, ?_, ?_⟩, a, x, y ++ b, ⟨ha, hx, hy.append hb⟩, ?_, ?_⟩
      · rw [String.toList_ofList]
        intro hnil
        exact hne (List.isEmpty_iff.mpr (hn.trans hnil))
      · rw [String.toList_ofList]
        intro c hc
        have hall := List.all_eq_true.mp (List.all_takeWhile (p := (!endsName ·)) (l := cs)) c
          (by rw [show cs.takeWhile (!endsName ·) = name from hn]; exact hc)
        simpa using hall
      · rw [String.toList_ofList, ← hparams]
        exact trimmed_trim _
      · rw [String.toList_ofList]
        intro hnil
        cases params with
        | nil => exact Or.inl rfl
        | cons c params =>
          have hstart : trimStart (c :: params) = c :: params := by
            rw [← hparams]
            exact trimStart_trim _
          have hb := not_isBlank_of_trimStart hstart
          have hd := List.head?_dropWhile_not (!endsName ·) cs
          rw [hpe, hnil] at hd
          have hc : endsName c = true := by simpa using hd
          rw [endsName, hb, Bool.false_or] at hc
          rw [eq_of_beq hc]
          exact Or.inr rfl
      · rw [String.toList_ofList, String.toList_ofList]
        calc text = a ++ ('@' :: cs) ++ b := by rw [← hcs]; exact he
          _ = a ++ ('@' :: (name ++ (x ++ params ++ y))) ++ b := by rw [← hpe, ← hsplit]
          _ = a ++ '@' :: (name ++ (x ++ params)) ++ (y ++ b) := by
            simp only [List.append_assoc, List.cons_append]
  · simp at h

theorem head?_ne_star {x params : List Char} (hx : Blank x)
    (h : x = [] → params = [] ∨ params.head? = some '(') : (x ++ params).head? ≠ some '*' := by
  intro hs
  exact absurd (endsName_of_head hx h hs) (by decide)

theorem WrittenAs.alike {name params : String} {text : List Char}
    (h : WrittenAs name params text) : Alike start text (headerChars name params) := by
  obtain ⟨a, x, b, ⟨ha, hx, hb⟩, htight, rfl⟩ := h
  have hs : (start.run ('@' :: name.toList)).Sound := sound_start.run _
  have hspace : Blank [' '] := blank_replicate 1
  refine (alike_between ha hb _).trans ?_
  refine Alike.append_left ('@' :: name.toList) (head?_ne_star hx htight) (by simp) ?_
  by_cases hnil : x = []
  · subst hnil
    rw [List.nil_append]
    rcases htight rfl with hp | hp
    · rw [hp]
      exact (hs.alike_behind hspace []).symm
    · obtain ⟨cs, hcs⟩ := List.head?_eq_some_iff.mp hp
      rw [hcs]
      exact (hs.alike_before hspace rfl (by decide) (by decide) cs).symm
  · exact hs.alike_exchange hx hspace hnil (by simp) _

end Header
end CssOptimizer
