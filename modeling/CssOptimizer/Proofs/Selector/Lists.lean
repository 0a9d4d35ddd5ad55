import CssOptimizer.Proofs.Selector.Names

/-!
# The names in a list of selectors

A name in a list is a name of one of its components, since neither commas nor blanks stand in
names.

* `mem_marked_append`              names on both sides of a character that ends them;
* `mem_marked_componentChars`      the names behind a mark in a list and in its components;
* `mem_classes_iff`, `mem_ids_iff`   the classes and ids of a list;
* `mem_classes_joinSelectors`, `mem_ids_joinSelectors`   those of joined selectors.
-/

namespace CssOptimizer.Selector
open Text

theorem leadingName_append_right (cs : List Char) {post : List Char} (hp : EndsNames post) :
    leadingName (cs ++ post) = leadingName cs := by
  induction cs with
  | nil => exact leadingName_append (fun c hc => absurd hc List.not_mem_nil) hp
  | cons c cs ih =>
    rw [leadingName, leadingName, List.cons_append, List.takeWhile_cons, List.takeWhile_cons]
    split
    · exact congrArg (c :: ·) ih
    · rfl

section
variable {mark : Char} {name : List Char} (hmark : isName mark = false)
include hmark

theorem mem_marked_iff {cs : List Char} :
    name ∈ occurrences (marked mark) cs ↔
      name ≠ [] ∧ ∃ pre post, cs = pre ++ mark :: post ∧ leadingName post = name := by
  rw [mem_occurrences_iff (opened_marked hmark)]
  constructor
  · rintro ⟨pre, c, post, n, hcs, hm⟩
    obtain rfl := (opened_marked hmark).head hm
    rw [marked_cons] at hm
    split at hm
    · rename_i hne
      simp only [Option.some.injEq, Prod.mk.injEq] at hm
      rw [← hm.1]
      exact ⟨hne.2, pre, post, hcs, rfl⟩
    · exact absurd hm (Option.some_ne_none _).symm
  · rintro ⟨hne, pre, post, hcs, rfl⟩
    exact ⟨pre, mark, post, _, hcs, by rw [marked_cons, if_pos ⟨rfl, hne⟩]⟩

theorem mem_marked_append {x : Char} (hx : isName x = false) (hne : x ≠ mark) (a b : List Char) :
    name ∈ occurrences (marked mark) (a ++ x :: b) ↔
      name ∈ occurrences (marked mark) a ∨ name ∈ occurrences (marked mark) b := by
  have hends (cs : List Char) : leadingName (cs ++ x :: b) = leadingName cs :=
    leadingName_append_right cs (endsNames_cons hx b)
  simp only [mem_marked_iff hmark]
  constructor
  · rintro ⟨hname, pre, post, he, hlead⟩
    rcases List.append_eq_append_iff.mp he with ⟨mid, hpre, hmid⟩ | ⟨mid, ha, hmid⟩
    · cases mid with
      | nil => exact absurd (List.cons.inj hmid).1 hne
      | cons y mid =>
        obtain ⟨rfl, rfl⟩ := List.cons.inj hmid
        exact Or.inr ⟨hname, mid, post, rfl, hlead⟩
    · cases mid with
      | nil => exact absurd (List.cons.inj hmid).1.symm hne
      | cons y mid =>
        obtain ⟨rfl, hpost⟩ := List.cons.inj hmid
        have hpost : post = mid ++ x :: b := hpost
        rw [hpost, hends] at hlead
        exact Or.inl ⟨hname, pre, mid, ha, hlead⟩
  · rintro (⟨hname, pre, post, rfl, hlead⟩ | ⟨hname, pre, post, rfl, hlead⟩)
    · refine ⟨hname, pre, post ++ x :: b, by simp, ?_⟩
      rw [hends, hlead]
    · exact ⟨hname, a ++ x :: pre, post, by simp, hlead⟩

theorem mem_marked_pieces {x : List Char} {xs : List (List Char)} (hcomma : ',' ≠ mark) :
    name ∈ occurrences (marked mark) (x ++ xs.flatMap (',' :: ·)) ↔
      ∃ y ∈ x :: xs, name ∈ occurrences (marked mark) y := by
  induction xs generalizing x with
  | nil => simp
  | cons y xs ih =>
    rw [List.flatMap_cons, List.cons_append, mem_marked_append hmark (by decide) hcomma, ih]
    simp only [List.mem_cons, exists_eq_or_imp]

/-- names in a joined selector are those of its parts -/
theorem mem_marked_joinSelectors (hcomma : ',' ≠ mark) (hspace : ' ' ≠ mark)
    {selectors : List String} :
    name ∈ occurrences (marked mark) (joinSelectors selectors).toList ↔
      ∃ s ∈ selectors, name ∈ occurrences (marked mark) s.toList := by
  induction selectors with
  | nil => exact ⟨fun h => absurd h List.not_mem_nil, fun ⟨s, hs, _⟩ => absurd hs List.not_mem_nil⟩
  | cons s selectors ih =>
    simp only [List.mem_cons, exists_eq_or_imp]
    rw [← ih]
    cases selectors with
    | nil =>
      have hjoin : joinSelectors [s] = s := String.intercalate_singleton
      rw [hjoin]
      exact (or_iff_left List.not_mem_nil).symm
    | cons t selectors =>
      have hjoin : (joinSelectors (s :: t :: selectors)).toList =
          s.toList ++ ',' :: ([] ++ ' ' :: (joinSelectors (t :: selectors)).toList) := by
        rw [joinSelectors, String.intercalate_cons_cons]
        simp [joinSelectors]
      rw [hjoin, mem_marked_append hmark (by decide) hcomma,
        mem_marked_append hmark (by decide) hspace]
      exact or_congr_right (or_iff_right List.not_mem_nil)

variable (hblank : isBlank mark = false)
include hblank

/-- no name stands in the blanks around a text -/
theorem mem_marked_trim {cs : List Char} :
    name ∈ occurrences (marked mark) (trim cs) ↔ name ∈ occurrences (marked mark) cs := by
  have hne {w : Char} (hw : isBlank w = true) : w ≠ mark := ne_of_isBlank hw hblank
  have hnone {ws : List Char} (h : Blank ws) : name ∉ occurrences (marked mark) ws := by
    rw [occurrences_eq_nil (opened_marked hmark) fun hm => hne (h _ hm) rfl]
    exact List.not_mem_nil
  have hstart {ws : List Char} (h : Blank ws) (cs : List Char) :
      name ∈ occurrences (marked mark) (ws ++ cs) ↔ name ∈ occurrences (marked mark) cs := by
    induction ws with
    | nil => exact Iff.rfl
    | cons w ws ih =>
      obtain ⟨hw, hws⟩ := blank_cons.mp h
      have hcut : name ∈ occurrences (marked mark) ([] ++ w :: (ws ++ cs)) ↔ _ :=
        mem_marked_append hmark (isName_of_isBlank hw) (hne hw) [] (ws ++ cs)
      exact hcut.trans ((or_iff_right (hnone blank_nil)).trans (ih hws))
  have hend {ws : List Char} (h : Blank ws) (cs : List Char) :
      name ∈ occurrences (marked mark) (cs ++ ws) ↔ name ∈ occurrences (marked mark) cs := by
    cases ws with
    | nil => rw [List.append_nil]
    | cons w ws =>
      obtain ⟨hw, hws⟩ := blank_cons.mp h
      rw [mem_marked_append hmark (isName_of_isBlank hw) (hne hw)]
      exact or_iff_left (hnone hws)
  obtain ⟨a, b, ha, hb, he⟩ := exists_trim cs
  rw [List.append_assoc] at he
  have hcs := (hstart ha (trim cs ++ b)).trans (hend hb (trim cs))
  rw [← he] at hcs
  exact hcs.symm

theorem mem_marked_componentChars (hcomma : ',' ≠ mark) {cs : List Char} :
    name ∈ occurrences (marked mark) cs ↔
      ∃ c ∈ componentChars cs, name ∈ occurrences (marked mark) c := by
  obtain ⟨x, xs, hsplit, hcs, -, -⟩ := exists_pieces 0 cs
  have hpieces : name ∈ occurrences (marked mark) cs ↔
      ∃ y ∈ splitAtCommas 0 cs, name ∈ occurrences (marked mark) y := by
    rw [hsplit, ← mem_marked_pieces hmark hcomma, ← hcs]
  rw [hpieces]
  constructor
  · rintro ⟨piece, hpiece, hname⟩
    rw [← mem_marked_trim hmark hblank] at hname
    refine ⟨trim piece, mem_componentChars_iff.mpr ⟨⟨piece, hpiece, rfl⟩, fun hnil => ?_⟩, hname⟩
    rw [hnil] at hname
    exact absurd hname List.not_mem_nil
  · rintro ⟨c, hc, hname⟩
    obtain ⟨⟨piece, hpiece, rfl⟩, -⟩ := mem_componentChars_iff.mp hc
    exact ⟨piece, hpiece, (mem_marked_trim hmark hblank).mp hname⟩

end

section
variable {name : String}

theorem mem_map_ofList {names : List (List Char)} :
    name ∈ names.map String.ofList ↔ name.toList ∈ names := by
  rw [List.mem_map]
  constructor
  · rintro ⟨cs, hcs, rfl⟩
    rwa [String.toList_ofList]
  · intro h
    exact ⟨_, h, String.ofList_toList⟩

theorem exists_components_iff {p : List Char → Prop} {selector : String} :
    (∃ c ∈ components selector, p c.toList) ↔ ∃ c ∈ componentChars selector.toList, p c := by
  constructor
  · rintro ⟨c, hc, h⟩
    obtain ⟨cs, hcs, rfl⟩ := List.mem_map.mp hc
    rw [String.toList_ofList] at h
    exact ⟨cs, hcs, h⟩
  · rintro ⟨cs, hcs, h⟩
    refine ⟨_, List.mem_map_of_mem hcs, ?_⟩
    rwa [String.toList_ofList]

theorem mem_classes_iff {selector : String} :
    name ∈ classes selector ↔ ∃ c ∈ components selector, name ∈ classes c := by
  simp only [classes, mem_map_ofList]
  rw [exists_components_iff (p := fun c => name.toList ∈ occurrences (marked '.') c)]
  exact mem_marked_componentChars (by decide) (by decide) (by decide)

theorem mem_ids_iff {selector : String} :
    name ∈ ids selector ↔ ∃ c ∈ components selector, name ∈ ids c := by
  simp only [ids, mem_map_ofList]
  rw [exists_components_iff (p := fun c => name.toList ∈ occurrences (marked '#') c)]
  exact mem_marked_componentChars (by decide) (by decide) (by decide)

theorem mem_classes_joinSelectors {selectors : List String} :
    name ∈ classes (joinSelectors selectors) ↔ ∃ s ∈ selectors, name ∈ classes s := by
  simp only [classes, mem_map_ofList]
  exact mem_marked_joinSelectors (by decide) (by decide) (by decide)

theorem mem_ids_joinSelectors {selectors : List String} :
    name ∈ ids (joinSelectors selectors) ↔ ∃ s ∈ selectors, name ∈ ids s := by
  simp only [ids, mem_map_ofList]
  exact mem_marked_joinSelectors (by decide) (by decide) (by decide)

end
end CssOptimizer.Selector
