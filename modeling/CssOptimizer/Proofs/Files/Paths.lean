import CssOptimizer.Files.Path
import CssOptimizer.Proofs.Text.Words
import Mathlib.Data.List.DropRight

/-!
# Names in a directory

* `IsFileName`         a name that a file can have in a directory;
* `IsDirectoryText`    the text of a directory with the slash behind it, or no text at all;
* `exists_directory`   every path is the text of a directory and something with no slash behind it;
* `parts_append`       the segments of a file below a directory are those of the directory, and its
                       name;
* `exists_parent`      its parent has the names of the directory and starts as the directory does;
* `join_eq`            a name is joined to a directory by putting it behind the directory's text;
* `resolve`            where a reference in a file leads, next to the file or from the root.

A path is split at its slashes, so that a text that ends in a slash and a name without one come
apart again.
-/

namespace CssOptimizer.Path
open Text

structure IsFileName (name : String) : Prop where
  noSlash : ∀ c ∈ name.toList, (c == '/') = false
  notEmpty : name ≠ ""
  notHere : name ≠ "."
  notUp : name ≠ ".."

def IsDirectoryText (directory : String) : Prop := EndsIn (· == '/') directory.toList

/-- the segments that are not empty -/
def parts (path : String) : List String :=
  ((segments path.toList).filter (!·.isEmpty)).map String.ofList

/-! ## segments -/

section
variable {cs : List Char}

theorem segments_append_slash (u v : List Char) :
    segments (u ++ '/' :: v) = segments u ++ segments v :=
  pieces_append_cons (p := (· == '/')) rfl u v

/-- behind its last slash a text has an empty segment -/
theorem segments_of_endsIn (h : EndsIn (· == '/') cs) :
    ∃ inner, segments cs = inner ++ [[]] ∧
      ∀ name, (∀ c ∈ name, (c == '/') = false) → segments (cs ++ name) = inner ++ [name] := by
  rcases h.cases with rfl | ⟨init, d, rfl, hd⟩
  · exact ⟨[], rfl, fun name hname => pieces_of_forall hname⟩
  · obtain rfl : d = '/' := eq_of_beq hd
    refine ⟨segments init, segments_append_slash init [], fun name hname => ?_⟩
    have hname : segments name = [name] := pieces_of_forall hname
    rw [List.append_assoc, List.singleton_append, segments_append_slash, hname]

theorem not_mem_segment {x : List Char} (h : x ∈ segments cs) : ∀ c ∈ x, (c == '/') = false := by
  obtain ⟨a, b, -, -, hx, -⟩ := mem_pieces_iff.mp h
  exact hx

theorem intercalate_segments (cs : List Char) : ['/'].intercalate (segments cs) = cs := by
  induction cs with
  | nil => rfl
  | cons c cs ih =>
    obtain ⟨x, xs, hsegments⟩ := List.exists_cons_of_ne_nil (pieces_ne_nil (· == '/') cs)
    rw [segments, hsegments] at ih
    rw [segments, pieces, hsegments]
    split
    · rename_i hc
      rw [List.intercalate_cons_cons, ih, eq_of_beq hc]
      rfl
    · rw [List.modifyHead_cons]
      cases xs with
      | nil => rw [List.intercalate_singleton] at ih ⊢; rw [ih]
      | cons y xs =>
        rw [List.intercalate_cons_cons] at ih ⊢
        rw [← ih]
        rfl

theorem intercalate_prefix {xs ys : List (List Char)} (h : xs <+: ys) :
    ['/'].intercalate xs <+: ['/'].intercalate ys := by
  induction xs generalizing ys with
  | nil => exact List.nil_prefix
  | cons x xs ih =>
    obtain ⟨more, rfl⟩ := h
    cases xs with
    | nil =>
      cases more with
      | nil => exact List.prefix_refl _
      | cons y more =>
        rw [List.singleton_append, List.intercalate_cons_cons, List.intercalate_singleton,
          List.append_assoc]
        exact List.prefix_append _ _
    | cons z xs =>
      have hrest := ih (List.prefix_append (z :: xs) more)
      rw [List.cons_append, List.cons_append, List.intercalate_cons_cons,
        List.intercalate_cons_cons, List.append_assoc, List.append_assoc]
      exact (List.prefix_append_right_inj _).mpr ((List.prefix_append_right_inj _).mpr hrest)

theorem segments_intercalate {xs : List (List Char)} (hne : xs ≠ [])
    (h : ∀ x ∈ xs, ∀ c ∈ x, (c == '/') = false) : segments (['/'].intercalate xs) = xs := by
  induction xs with
  | nil => exact absurd rfl hne
  | cons x xs ih =>
    have hx : segments x = [x] := pieces_of_forall (h x List.mem_cons_self)
    cases xs with
    | nil => rw [List.intercalate_singleton, hx]
    | cons y ys =>
      have hrest := ih (List.cons_ne_nil y ys) fun z hz => h z (List.mem_cons_of_mem _ hz)
      rw [List.intercalate_cons_cons, List.append_assoc, List.singleton_append,
        segments_append_slash, hx, hrest]
      rfl

end

/-! ## names -/

section
variable {directory name : String}

namespace IsFileName

theorem slash_not_mem (h : IsFileName name) : '/' ∉ name.toList := fun hm =>
  absurd (h.noSlash '/' hm) (by decide)

theorem isIdle_eq (h : IsFileName name) : isIdle name.toList = false := by
  rw [isIdle, Bool.or_eq_false_iff]
  refine ⟨by simpa using h.notEmpty, ?_⟩
  rw [beq_eq_false_iff_ne]
  intro he
  exact h.notHere (String.toList_inj.mp he)

end IsFileName

theorem beq_slash_of_not_mem {cs : List Char} (h : '/' ∉ cs) : ∀ c ∈ cs, (c == '/') = false := by
  intro c hc
  rw [beq_eq_false_iff_ne]
  rintro rfl
  exact h hc

/-- dots alone are at most two characters -/
theorem isFileName_append (hslash : '/' ∉ name.toList) {ending : String}
    (hending : '/' ∉ ending.toList) (hlength : 2 < ending.length) :
    IsFileName (name ++ ending) := by
  have hne (s : String) (hs : s.length ≤ 2) : name ++ ending ≠ s := by
    rintro rfl
    rw [String.length_append] at hs
    omega
  have hboth : '/' ∉ (name ++ ending).toList := by
    rw [String.toList_append]
    exact fun hm => (List.mem_append.mp hm).elim hslash hending
  exact ⟨beq_slash_of_not_mem hboth, hne _ (by decide), hne _ (by decide), hne _ (by decide)⟩

/-- a path up to its last slash -/
def directoryOf (path : String) : String := onString (dropEndWhile (· != '/')) path

theorem isDirectoryText_directoryOf (path : String) : IsDirectoryText (directoryOf path) := by
  intro c hc
  rw [directoryOf, toList_onString] at hc
  simpa using endsIn_dropEndWhile (· != '/') path.toList c hc

theorem directoryOf_append (hdirectory : IsDirectoryText directory) {last : String}
    (hslash : '/' ∉ last.toList) : directoryOf (directory ++ last) = directory := by
  have hlast : ∀ c ∈ last.toList, (c != '/') = true := fun c hc =>
    bne_iff_ne.mpr fun he => hslash (he ▸ hc)
  have hend : EndsIn (fun c => !(c != '/')) directory.toList := fun c hc => by
    simpa using hdirectory c hc
  rw [directoryOf, onString, String.toList_append, dropEndWhile_append hlast,
    dropEndWhile_eq_self hend, String.ofList_toList]

theorem exists_directory (path : String) :
    ∃ directory last, path = directory ++ last ∧ IsDirectoryText directory ∧
      '/' ∉ last.toList := by
  obtain ⟨gone, hgone, hpath⟩ := exists_dropEndWhile_append (· != '/') path.toList
  refine ⟨directoryOf path, String.ofList gone, ?_, isDirectoryText_directoryOf path, fun hm => ?_⟩
  · rw [directoryOf, onString, ← String.ofList_append, hpath, String.ofList_toList]
  · rw [String.toList_ofList] at hm
    exact absurd (hgone '/' hm) (by decide)

theorem parts_append (hdirectory : IsDirectoryText directory) {last : String}
    (hslash : '/' ∉ last.toList) (hne : last ≠ "") :
    parts (directory ++ last) = parts directory ++ [last] := by
  obtain ⟨inner, hinner, happend⟩ := segments_of_endsIn hdirectory
  rw [parts, parts, String.toList_append, happend _ (beq_slash_of_not_mem hslash), hinner,
    List.filter_append, List.filter_append, List.map_append, List.map_append]
  simp [hne]

theorem names_append (hdirectory : IsDirectoryText directory) (hname : IsFileName name) :
    names (directory ++ name) = names directory ++ [name] := by
  obtain ⟨inner, hinner, happend⟩ := segments_of_endsIn hdirectory
  rw [names, names, nameChars, nameChars, String.toList_append, happend _ hname.noSlash, hinner,
    List.filter_append, List.filter_append, List.map_append, List.map_append,
    List.filter_cons_of_pos (by rw [hname.isIdle_eq]; rfl),
    List.filter_cons_of_neg (by simp [isIdle])]
  simp

theorem fileName?_append (hdirectory : IsDirectoryText directory) (hname : IsFileName name) :
    fileName? (directory ++ name) = some name := by
  rw [fileName?, names_append hdirectory hname, List.getLast?_concat, Option.filter_some,
    if_pos (decide_eq_true hname.notUp)]

/-! ## parents -/

/-- whether a path starts at the root -/
def IsAbsolute (path : String) : Prop := path.toList.head? = some '/'

theorem isAbsolute_append (directory : String) (hslash : '/' ∉ name.toList) :
    IsAbsolute (directory ++ name) ↔ IsAbsolute directory := by
  rw [IsAbsolute, IsAbsolute, String.toList_append, List.head?_append]
  cases hcs : directory.toList with
  | cons c cs => exact Iff.rfl
  | nil => exact iff_of_false (fun he => hslash (List.mem_of_mem_head? he)) (by simp)

/-- the start of a path in front of a text: nothing, the slash of the root, or a dot that the text
is empty behind or has a slash behind -/
def LeadsInto (start rest : List Char) : Prop :=
  start = [] ∨ start = ['/'] ∨ start = ['.'] ∧ (rest = [] ∨ ∃ more, rest = '/' :: more)

/-- the start of a path holds no name -/
theorem nameChars_lead {start rest : List Char} (h : LeadsInto start rest) :
    (segments (start ++ rest)).filter (!isIdle ·) = (segments rest).filter (!isIdle ·) := by
  rcases h with rfl | rfl | ⟨rfl, rfl | ⟨more, rfl⟩⟩
  · rfl
  · have hslash : segments (['/'] ++ rest) = [] :: segments rest := segments_append_slash [] rest
    rw [hslash]
    rfl
  · rfl
  · have hdot : segments (['.'] ++ '/' :: more) = ['.'] :: segments more :=
      segments_append_slash ['.'] more
    have hslash : segments ('/' :: more) = [] :: segments more := segments_append_slash [] more
    rw [hdot, hslash]
    rfl

theorem lead_eq_nil {cs : List Char} (hslash : ∀ more, cs ≠ '/' :: more) (hdot : cs ≠ ['.'])
    (hboth : ∀ more, cs ≠ '.' :: '/' :: more) : lead cs = ([], cs) := by
  unfold lead
  split
  · exact absurd rfl (hslash _)
  · exact absurd rfl hdot
  · exact absurd rfl (hboth _)
  · rfl

theorem endsIn_tail {c : Char} {cs : List Char} (h : EndsIn (· == '/') (c :: cs)) :
    EndsIn (· == '/') cs := by
  cases cs with
  | nil => exact endsIn_nil
  | cons d cs => exact (endsIn_append_iff (List.cons_ne_nil d cs) [c]).mp h

/-- a directory without a name starts with a slash or a dot -/
theorem exists_lead_of_idle {cs : List Char} (h : EndsIn (· == '/') cs) (hne : cs ≠ [])
    (hidle : ∀ x ∈ segments cs, isIdle x = true) :
    ∃ more, cs = '/' :: more ∨ cs = '.' :: '/' :: more := by
  obtain ⟨init, d, hcs, hd⟩ := h.cases.resolve_left hne
  cases hcut : cutAt (· == '/') cs with
  | none =>
    have hnot := cutAt_eq_none hcut d (by rw [hcs]; exact List.mem_concat_self)
    exact absurd (hnot.symm.trans hd) Bool.false_ne_true
  | some cut =>
    obtain ⟨x, e, more⟩ := cut
    obtain ⟨hx, he⟩ := cutAt_spec hcut
    obtain rfl : e = '/' := eq_of_beq he
    have heq := cutAt_eq_some hcut
    have hfirst : isIdle x = true := by
      refine hidle x ?_
      rw [heq, segments_append_slash, segments, pieces_of_forall hx]
      exact List.mem_append_left _ (List.mem_singleton_self x)
    rw [isIdle, Bool.or_eq_true, beq_iff_eq, beq_iff_eq] at hfirst
    rcases hfirst with rfl | rfl
    · exact ⟨more, Or.inl heq⟩
    · exact ⟨more, Or.inr heq⟩

/-- what a directory starts with, and the rest of it; a file in it starts with the same -/
theorem exists_lead {cs : List Char} (h : EndsIn (· == '/') cs) (hname : IsFileName name) :
    ∃ start rest, cs = start ++ rest ∧ LeadsInto start rest ∧ EndsIn (· == '/') rest ∧
      (start = [] → cs.head? ≠ some '/' ∧ ((∀ x ∈ segments cs, isIdle x = true) → cs = [])) ∧
      lead (cs ++ name.toList) = (start, rest ++ name.toList) := by
  by_cases hroot : ∃ more, cs = '/' :: more
  · obtain ⟨more, rfl⟩ := hroot
    exact ⟨['/'], more, rfl, Or.inr (Or.inl rfl), endsIn_tail h, fun he => absurd he (by simp), rfl⟩
  by_cases hhere : ∃ more, cs = '.' :: '/' :: more
  · obtain ⟨more, rfl⟩ := hhere
    exact ⟨['.'], '/' :: more, rfl, Or.inr (Or.inr ⟨rfl, Or.inr ⟨more, rfl⟩⟩), endsIn_tail h,
      fun he => absurd he (by simp), rfl⟩
  have hhead : cs.head? ≠ some '/' := by
    intro he
    obtain ⟨more, rfl⟩ := List.head?_eq_some_iff.mp he
    exact hroot ⟨more, rfl⟩
  refine ⟨[], cs, rfl, Or.inl rfl, h, fun _ => ⟨hhead, fun hidle => by_contra fun hne => ?_⟩, ?_⟩
  · obtain ⟨more, he | he⟩ := exists_lead_of_idle h hne hidle
    · exact hroot ⟨more, he⟩
    · exact hhere ⟨more, he⟩
  · have hslash := hname.slash_not_mem
    have hnonempty : name.toList ≠ [] := fun he => hname.notEmpty (String.toList_eq_nil_iff.mp he)
    match cs, h with
    | [], _ =>
      refine lead_eq_nil (fun more he => hslash ?_) (fun he => ?_) (fun more he => hslash ?_)
      · rw [← List.nil_append name.toList, he]
        exact List.mem_cons_self
      · exact hname.notHere (String.toList_inj.mp he)
      · rw [← List.nil_append name.toList, he]
        exact List.mem_cons_of_mem _ List.mem_cons_self
    | [c], h =>
      obtain rfl : c = '/' := eq_of_beq (h c rfl)
      exact absurd ⟨[], rfl⟩ hroot
    | c :: d :: cs, _ =>
      refine lead_eq_nil (fun more he => hroot ?_) (fun he => ?_) (fun more he => hhere ?_)
      · exact ⟨d :: cs, by rw [(List.cons.inj he).1]⟩
      · exact absurd he (by simp)
      · obtain ⟨hc, hrest⟩ := List.cons.inj he
        exact ⟨cs, by rw [hc, (List.cons.inj hrest).1]⟩

theorem filter_dropIdleEnd (xs : List (List Char)) :
    (dropIdleEnd xs).filter (!isIdle ·) = xs.filter (!isIdle ·) := by
  have hsplit : dropIdleEnd xs ++ xs.rtakeWhile isIdle = xs := List.rdropWhile_append_rtakeWhile
  have hgone : (xs.rtakeWhile isIdle).filter (!isIdle ·) = [] := by
    refine List.filter_eq_nil_iff.mpr fun x hx => ?_
    rw [List.mem_rtakeWhile_imp hx]
    exact Bool.false_ne_true
  calc (dropIdleEnd xs).filter (!isIdle ·)
      = (dropIdleEnd xs ++ xs.rtakeWhile isIdle).filter (!isIdle ·) := by
        rw [List.filter_append, hgone, List.append_nil]
    _ = xs.filter (!isIdle ·) := by rw [hsplit]

/-- the text of segments without those at the end that count for nothing, as a start of a text -/
structure CutText (rest cut : List Char) : Prop where
  isPrefix : cut <+: rest
  nameChars : (segments cut).filter (!isIdle ·) = (segments rest).filter (!isIdle ·)
  isIdle_of_nil : cut = [] → ∀ x ∈ segments rest, isIdle x = true

theorem cutText_dropIdleEnd {rest : List Char} {inner : List (List Char)}
    (h : segments rest = inner ++ [[]]) :
    CutText rest (['/'].intercalate (dropIdleEnd inner)) := by
  have hpart : dropIdleEnd inner <+: inner := List.rdropWhile_prefix isIdle inner
  have hsegments (hne : dropIdleEnd inner ≠ []) :
      segments (['/'].intercalate (dropIdleEnd inner)) = dropIdleEnd inner := by
    refine segments_intercalate hne fun x hx => ?_
    have hmem : x ∈ segments rest := by
      rw [h]
      exact List.mem_append_left _ (hpart.subset hx)
    exact not_mem_segment hmem
  have hidle (hnil : dropIdleEnd inner = []) : ∀ x ∈ inner, isIdle x = true :=
    List.rdropWhile_eq_nil_iff.mp hnil
  refine ⟨?_, ?_, fun hcut => ?_⟩
  · have hprefix := intercalate_prefix (hpart.trans (List.prefix_append inner [[]]))
    rwa [← h, intercalate_segments] at hprefix
  · have hlast : (inner ++ [[]]).filter (!isIdle ·) = inner.filter (!isIdle ·) := by
      rw [List.filter_append]
      exact List.append_nil _
    rw [h, hlast, ← filter_dropIdleEnd inner]
    by_cases hnil : dropIdleEnd inner = []
    · rw [hnil]
      rfl
    · rw [hsegments hnil]
  · have hnil : dropIdleEnd inner = [] := by
      by_contra hne
      have hall : ∀ x ∈ dropIdleEnd inner, isIdle x = true := by
        rw [← hsegments hne, hcut]
        exact List.forall_mem_singleton.mpr rfl
      exact List.rdropWhile_last_not isIdle inner hne (hall _ (List.getLast_mem hne))
    intro x hx
    rw [h] at hx
    rcases List.mem_append.mp hx with hx | hx
    · exact hidle hnil x hx
    · rw [List.mem_singleton.mp hx]
      rfl

theorem exists_parent (hdirectory : IsDirectoryText directory) (hname : IsFileName name) :
    ∃ parent, parent? (directory ++ name) = some parent ∧ names parent = names directory ∧
      (IsAbsolute parent ↔ IsAbsolute directory) ∧ (parent = "" → directory = "") := by
  obtain ⟨start, rest, hcs, hinto, hends, hstart, hlead⟩ := exists_lead hdirectory hname
  obtain ⟨inner, hinner, happend⟩ := segments_of_endsIn hends
  have hcut := cutText_dropIdleEnd hinner
  have hlast : dropIdleEnd (inner ++ [name.toList]) = inner ++ [name.toList] :=
    List.rdropWhile_concat_neg _ _ _ (by rw [hname.isIdle_eq]; exact Bool.false_ne_true)
  have hparent : parent? (directory ++ name) =
      some (String.ofList (start ++ ['/'].intercalate (dropIdleEnd inner))) := by
    rw [parent?, String.toList_append, hlead]
    simp only [happend _ hname.noSlash, hlast]
    split
    · rename_i hnil
      exact absurd hnil (by simp)
    · rw [List.dropLast_concat]
  generalize ['/'].intercalate (dropIdleEnd inner) = cut at hcut hparent
  have hintocut : LeadsInto start cut := by
    refine hinto.imp id (Or.imp id (And.imp id fun h => ?_))
    rcases h with rfl | ⟨more, rfl⟩
    · exact Or.inl (List.prefix_nil.mp hcut.isPrefix)
    · exact (List.prefix_cons_iff.mp hcut.isPrefix).imp id fun ⟨t, ht, _⟩ => ⟨t, ht⟩
  refine ⟨_, hparent, ?_, ?_, ?_⟩
  · rw [names, names, nameChars, nameChars, String.toList_ofList, nameChars_lead hintocut, hcs,
      nameChars_lead hinto, hcut.nameChars]
  · rw [IsAbsolute, IsAbsolute, String.toList_ofList, hcs]
    rcases hinto with rfl | rfl | ⟨rfl, -⟩
    · have hrest := (hstart rfl).1
      rw [hcs] at hrest
      refine iff_of_false (fun he => hrest ?_) hrest
      obtain ⟨t, rfl⟩ := hcut.isPrefix
      rw [List.nil_append] at he ⊢
      rw [List.head?_append, he]
      rfl
    · exact Iff.rfl
    · exact iff_of_false (by simp) (by simp)
  · intro hempty
    have hnil : start ++ cut = [] := String.ofList_eq_empty_iff.mp hempty
    obtain ⟨rfl, rfl⟩ := List.append_eq_nil_iff.mp hnil
    rw [List.nil_append] at hcs
    rw [← hcs] at hcut
    exact String.toList_eq_nil_iff.mp ((hstart rfl).2 (hcut.isIdle_of_nil rfl))

/-! ## joined paths -/

/-- the text of a directory with a slash behind it, where a name is put behind it -/
def directoryText (directory : String) : String :=
  if directory.toList.getLast?.all (· == '/') then directory else directory ++ "/"

/-- a path that does not start at the root is joined to a directory by putting it behind the
directory's text -/
theorem join_of_relative {path : String} (h : ¬IsAbsolute path) (directory : String) :
    join directory path = directoryText directory ++ path := by
  unfold join directoryText
  rw [if_neg (show ¬path.toList.head? = some '/' from h)]
  split <;> rfl

theorem join_eq (hname : IsFileName name) (directory : String) :
    join directory name = directoryText directory ++ name :=
  join_of_relative (fun he => hname.slash_not_mem (List.mem_of_mem_head? he)) directory

theorem directoryText_eq (hdirectory : IsDirectoryText directory) :
    directoryText directory = directory := if_pos ((Option.all_eq_true _ _).mpr hdirectory)

/-- where a reference in a file leads, which is relative to the directory of the file -/
def resolve (file reference : String) : String := join (directoryOf file) reference

/-- the name of a file leads to the file next to the one it stands in -/
theorem resolve_next (hdirectory : IsDirectoryText directory) {last : String}
    (hslash : '/' ∉ last.toList) (hname : IsFileName name) :
    resolve (directory ++ last) name = directory ++ name := by
  rw [resolve, directoryOf_append hdirectory hslash, join_eq hname, directoryText_eq hdirectory]

/-- a reference leads to itself exactly if the file has no directory or it starts at the root -/
theorem resolve_eq_self_iff {file reference : String} :
    resolve file reference = reference ↔ '/' ∉ file.toList ∨ IsAbsolute reference := by
  by_cases habsolute : IsAbsolute reference
  · have hself : resolve file reference = reference := if_pos habsolute
    exact iff_of_true hself (Or.inr habsolute)
  · obtain ⟨directory, last, rfl, hdirectory, hslash⟩ := exists_directory file
    rw [resolve, directoryOf_append hdirectory hslash, join_of_relative habsolute,
      directoryText_eq hdirectory, or_iff_left habsolute, String.toList_append, List.mem_append,
      or_iff_left hslash, String.append_eq_right_iff]
    refine ⟨?_, fun hnot => ?_⟩
    · rintro rfl
      exact List.not_mem_nil
    · rcases hdirectory.cases with hnil | ⟨init, d, hcs, hd⟩
      · exact String.toList_eq_nil_iff.mp hnil
      · rw [hcs, eq_of_beq hd] at hnot
        exact absurd List.mem_concat_self hnot

end

end CssOptimizer.Path
