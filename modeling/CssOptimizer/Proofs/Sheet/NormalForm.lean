import CssOptimizer.Proofs.Sheet.Key
import CssOptimizer.Proofs.Text.Words

/-!
# Normal forms of spellings

A normal form drops the blanks around a text and the semicolons at its end, once.  Where these are
parted by blanks, only those behind the last blanks go, and a semicolon is left at the end.

* `Parted`                    texts of which a semicolon is left;
* `getLast?_normalize_iff`    the normal form ends in a semicolon exactly for these;
* `normalize_normalize_iff`   it is its own normal form exactly for the others;
* `bare`                      a text without the blanks around it, and without all semicolons and
                              blanks at its end;
* `Respelled`                 texts that differ only in what is dropped there;
* `normalize_eq_bare`         the normal form of a text that is not parted, so that it is the same
                              for all these texts (`Respelled.normalize_eq_iff`).
-/

namespace CssOptimizer
open Text

/-- a text that ends in a semicolon, blanks and semicolons again, with or without blanks behind -/
def Parted (cs : List Char) : Prop :=
  ∃ init blanks semicolons rest, cs = init ++ ';' :: blanks ++ semicolons ++ rest ∧
    blanks ≠ [] ∧ Blank blanks ∧ semicolons ≠ [] ∧ (∀ c ∈ semicolons, (c == ';') = true) ∧
    Blank rest

/-! ## the end of a normal form -/

theorem normalize_parted (init : List Char) {blanks semicolons rest : List Char}
    (hne : blanks ≠ []) (hblanks : Blank blanks) (hne' : semicolons ≠ [])
    (hsemicolons : ∀ c ∈ semicolons, (c == ';') = true) (hrest : Blank rest) :
    normalize (init ++ ';' :: blanks ++ semicolons ++ rest) = trimStart init ++ [';'] := by
  have hsolid : EndsIn (!isBlank ·) (trimStart init ++ ';' :: blanks ++ semicolons) := by
    refine endsIn_append_of_forall hne' (fun c hc => ?_) _
    rw [eq_of_beq (hsemicolons c hc)]
    rfl
  have hstop : EndsIn (fun c => !(c == ';')) (trimStart init ++ ';' :: blanks) := by
    rw [← List.singleton_append, ← List.append_assoc]
    refine endsIn_append_of_forall hne (fun c hc => ?_) _
    rw [Bool.not_eq_true', beq_eq_false_iff_ne]
    exact ne_of_isBlank (hblanks c hc) rfl
  have htrim : trim (init ++ ';' :: blanks ++ semicolons ++ rest) =
      trimStart init ++ ';' :: blanks ++ semicolons := by
    rw [trim, List.append_assoc, List.append_assoc, List.cons_append,
      trimStart_append_cons init rfl, ← List.cons_append, ← List.append_assoc,
      ← List.append_assoc, trimEnd_blank hrest]
    exact dropEndWhile_eq_self hsolid
  have hnone : trimEnd blanks = [] := trimEnd_blank hblanks []
  rw [normalize, htrim, dropEndWhile_append hsemicolons, dropEndWhile_eq_self hstop,
    trimEnd_append_cons _ rfl, hnone]

theorem getLast?_normalize_iff {cs : List Char} :
    (normalize cs).getLast? = some ';' ↔ Parted cs := by
  constructor
  · intro h
    obtain ⟨init, hinit⟩ := List.getLast?_eq_some_iff.mp h
    obtain ⟨a, b, -, hb, hcs⟩ := exists_trim cs
    obtain ⟨semicolons, hsemicolons, htrim⟩ := exists_dropEndWhile_append (· == ';') (trim cs)
    obtain ⟨blanks, hblanks, hkept⟩ := exists_trimEnd (dropEndWhile (· == ';') (trim cs))
    have hnormal : trimEnd (dropEndWhile (· == ';') (trim cs)) = init ++ [';'] := hinit
    rw [hnormal] at hkept
    have hne : blanks ≠ [] := by
      rintro rfl
      have hend := endsIn_dropEndWhile (· == ';') (trim cs)
      rw [hkept, List.append_nil] at hend
      exact absurd (hend ';' List.getLast?_concat) (by decide)
    have hne' : semicolons ≠ [] := by
      rintro rfl
      have hend : EndsIn (!isBlank ·) (trim cs) := endsIn_dropEndWhile isBlank (trimStart cs)
      rw [← htrim, List.append_nil, hkept] at hend
      obtain ⟨c, hc⟩ := List.getLast?_isSome.mpr hne |> Option.isSome_iff_exists.mp
      have hsolid := (endsIn_append_iff hne _).mp hend c hc
      rw [hblanks c (List.mem_of_getLast? hc)] at hsolid
      exact Bool.false_ne_true hsolid
    refine ⟨a ++ init, blanks, semicolons, b, ?_, hne, hblanks, hne', hsemicolons, hb⟩
    calc cs = a ++ (init ++ [';'] ++ blanks ++ semicolons) ++ b := by
          rw [← hkept, htrim]
          exact hcs
      _ = a ++ init ++ ';' :: blanks ++ semicolons ++ b := by simp
  · rintro ⟨init, blanks, semicolons, rest, rfl, hne, hblanks, hne', hsemicolons, hrest⟩
    rw [normalize_parted init hne hblanks hne' hsemicolons hrest]
    exact List.getLast?_concat

instance (cs : List Char) : Decidable (Parted cs) := decidable_of_iff _ getLast?_normalize_iff

/-- a trimmed text with a semicolon at its end gets shorter -/
theorem length_normalize_lt {init : List Char} (h : Trimmed (init ++ [';'])) :
    (normalize (init ++ [';'])).length < (init ++ [';']).length := by
  have hdrop : normalize (init ++ [';']) = trimEnd (dropEndWhile (· == ';') init) := by
    rw [normalize, show trim (init ++ [';']) = init ++ [';'] from h,
      dropEndWhile_append_singleton, if_pos (beq_self_eq_true ';')]
  have hle (p : Char → Bool) (cs : List Char) : (dropEndWhile p cs).length ≤ cs.length := by
    obtain ⟨gone, -, hgone⟩ := exists_dropEndWhile_append p cs
    have hlength := congrArg List.length hgone
    rw [List.length_append] at hlength
    omega
  calc (normalize (init ++ [';'])).length
      = (dropEndWhile isBlank (dropEndWhile (· == ';') init)).length := congrArg _ hdrop
    _ ≤ (dropEndWhile (· == ';') init).length := hle isBlank _
    _ ≤ init.length := hle (· == ';') init
    _ < (init ++ [';']).length := by
      rw [List.length_append, List.length_singleton]
      omega

theorem normalize_normalize_iff {cs : List Char} :
    normalize (normalize cs) = normalize cs ↔ ¬Parted cs := by
  have htrimmed : Trimmed (normalize cs) := trim_normalize cs
  rw [← getLast?_normalize_iff]
  refine ⟨fun h hlast => ?_, fun h => normalize_of_trimmed htrimmed h⟩
  obtain ⟨init, hinit⟩ := List.getLast?_eq_some_iff.mp hlast
  rw [hinit] at h htrimmed
  exact Nat.ne_of_lt (length_normalize_lt htrimmed) (congrArg List.length h)

/-! ## spellings -/

/-- blanks and semicolons -/
def isDroppable (c : Char) : Bool := isBlank c || c == ';'

theorem isDroppable_iff {c : Char} : isDroppable c = true ↔ isBlank c = true ∨ c = ';' := by
  rw [isDroppable, Bool.or_eq_true, beq_iff_eq]

theorem droppable_iff {g : List Char} : Droppable g ↔ ∀ c ∈ g, isDroppable c = true :=
  forall₂_congr fun _ _ => isDroppable_iff.symm

instance (g : List Char) : Decidable (Droppable g) :=
  decidable_of_iff (g.all isDroppable = true) (List.all_eq_true.trans droppable_iff.symm)

/-- a text without the blanks before it, and without all blanks and semicolons at its end -/
def bare (cs : List Char) : List Char := dropEndWhile isDroppable (trimStart cs)

/-- texts that differ only in the blanks around them and in the semicolons at their ends -/
def Respelled (s t : List Char) : Prop :=
  ∃ core a b a' b', s = a ++ core ++ b ∧ t = a' ++ core ++ b' ∧
    Blank a ∧ Droppable b ∧ Blank a' ∧ Droppable b'

theorem bare_between {a b : List Char} (ha : Blank a) (hb : Droppable b) (core : List Char) :
    bare (a ++ core ++ b) = bare core := by
  rw [bare, List.append_assoc, trimStart_blank ha, trimStart, List.dropWhile_append]
  split
  · rename_i hnil
    have hrest : ∀ c ∈ b.dropWhile isBlank, isDroppable c = true := fun c hc =>
      droppable_iff.mp hb c ((List.dropWhile_sublist _).subset hc)
    rw [bare, trimStart, List.isEmpty_iff.mp hnil]
    exact dropEndWhile_append hrest []
  · exact dropEndWhile_append (droppable_iff.mp hb) _

theorem Respelled.bare_eq {s t : List Char} (h : Respelled s t) : bare s = bare t := by
  obtain ⟨core, a, b, a', b', rfl, rfl, ha, hb, ha', hb'⟩ := h
  rw [bare_between ha hb, bare_between ha' hb']

theorem normalize_eq_bare {cs : List Char} (h : ¬Parted cs) : normalize cs = bare cs := by
  have htrimmed : Trimmed (normalize cs) := trim_normalize cs
  have hend : EndsIn (!isDroppable ·) (normalize cs) := by
    intro c hc
    have hblank : (!isBlank c) = true := endsIn_dropEndWhile isBlank _ c hc
    have hsemicolon : c ≠ ';' := by
      rintro rfl
      exact h (getLast?_normalize_iff.mp hc)
    show (!(isBlank c || c == ';')) = true
    rw [(Bool.not_eq_true' _).mp hblank, beq_eq_false_iff_ne.mpr hsemicolon]
    rfl
  have hkept : bare (normalize cs) = normalize cs := by
    rw [bare, htrimmed.start, dropEndWhile_eq_self hend]
  obtain ⟨a, b, ha, hb, hcs⟩ := exists_normalize cs
  calc normalize cs = bare (normalize cs) := hkept.symm
    _ = bare (a ++ normalize cs ++ b) := (bare_between ha hb _).symm
    _ = bare cs := by rw [← hcs]

theorem Respelled.normalize_eq_iff {s t : List Char} (h : Respelled s t) (hs : ¬Parted s) :
    normalize s = normalize t ↔ ¬Parted t := by
  constructor
  · intro he
    rwa [← getLast?_normalize_iff, ← he, getLast?_normalize_iff]
  · intro ht
    rw [normalize_eq_bare hs, normalize_eq_bare ht, h.bare_eq]

end CssOptimizer
