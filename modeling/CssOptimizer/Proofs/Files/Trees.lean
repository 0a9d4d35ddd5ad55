import CssOptimizer.Files.Storage
import CssOptimizer.Proofs.Files.Paths
import Mathlib.Logic.Function.Basic

/-!
# Directories and files of a disk

* `Disk.follow`             the directory that a path leads to, which depends on its names and on
                            whether it starts at the root;
* `Disk.files`              the text of the file at each place;
* `Disk.Keeps`              a later disk where directories are still directories;
* `Disk.Written`            a later disk with one more file, or another text in a file;
* `Disk.PartlyWritten`      what a failed writing leaves;
* `Disk.Grants`             a disk that refuses neither to write a file nor to make its directory;
* `Disk.writeEnds`          how the writing of a file ends: as the tree allows if it is granted;
* `Disk.AddsDirectories`    a later disk with more directories and nothing else;
* `Disk.prepare`            make the directory that a file lies in.
-/

namespace CssOptimizer.Disk
open CssOptimizer.Path

variable {d d' d'' : Disk} {place : Place} {path directory name : String}

/-! ## paths that lead to directories -/

/-- where a path starts -/
def start (d : Disk) (path : String) : Place :=
  if path.toList.head? = some '/' then [] else d.workingDirectory

def follow (d : Disk) (path : String) : Except FileError Place :=
  (names path).foldlM d.descend (d.start path)

theorem start_congr {path' : String} (h : IsAbsolute path ↔ IsAbsolute path') (d : Disk) :
    d.start path = d.start path' := by
  unfold start
  exact if_congr h rfl rfl

/-- a path is followed by its names, from the root or from the working directory -/
theorem follow_congr {path' : String} (hnames : names path = names path')
    (habsolute : IsAbsolute path ↔ IsAbsolute path') (d : Disk) :
    d.follow path = d.follow path' := by
  rw [follow, follow, hnames, start_congr habsolute]

theorem follow_empty (d : Disk) : d.follow "" = .ok d.workingDirectory := rfl

theorem exists_descend_iff {segment : String} :
    (∃ below, d.descend place segment = .ok below) ↔
      segment = "." ∨ segment = ".." ∨ d.at? (place ++ [segment]) = some .directory := by
  unfold descend
  by_cases hhere : segment = "."
  · rw [if_pos hhere]
    exact iff_of_true ⟨_, rfl⟩ (Or.inl hhere)
  by_cases hup : segment = ".."
  · rw [if_neg hhere, if_pos hup]
    exact iff_of_true ⟨_, rfl⟩ (Or.inr (Or.inl hup))
  rw [if_neg hhere, if_neg hup, or_iff_right hhere, or_iff_right hup]
  split
  · rename_i h
    exact iff_of_true ⟨_, rfl⟩ h
  · rename_i h
    exact iff_of_false (by rintro ⟨_, he⟩; cases he) (by rw [h]; simp)
  · rename_i h
    exact iff_of_false (by rintro ⟨_, he⟩; cases he) (by rw [h]; simp)

/-- dots lead nowhere else -/
theorem foldlM_filter_dots (d : Disk) (segments : List String) (place : Place) :
    (segments.filter (· ≠ ".")).foldlM d.descend place = segments.foldlM d.descend place := by
  induction segments generalizing place with
  | nil => rfl
  | cons segment segments ih =>
    by_cases h : segment = "."
    · have hstay : d.descend place segment = .ok place := by rw [descend, if_pos h]
      rw [List.filter_cons_of_neg (by simpa using h), ih, List.foldlM_cons, hstay]
      rfl
    · rw [List.filter_cons_of_pos (by simpa using h), List.foldlM_cons, List.foldlM_cons]
      exact congrArg _ (funext ih)

theorem names_eq_filter_parts (path : String) : names path = (parts path).filter (· ≠ ".") := by
  have htest (x : List Char) :
      (!isIdle x) = ((!x.isEmpty) && decide (String.ofList x ≠ ".")) := by
    have hdot : String.ofList x = "." ↔ x = ['.'] := by
      rw [← String.toList_inj, String.toList_ofList]
      rfl
    rw [Bool.eq_iff_iff]
    simp [isIdle, hdot]
  rw [names, nameChars, parts, List.filter_map, List.filter_filter]
  congr 1
  exact List.filter_congr fun x _ => by rw [htest, Bool.and_comm]; rfl

theorem follow_eq (d : Disk) (path : String) :
    d.follow path = (parts path).foldlM d.descend (d.start path) := by
  rw [follow, names_eq_filter_parts, foldlM_filter_dots]

/-! ## places that paths lead to -/

theorem locate_of_parts_nil (hne : path ≠ "") (h : parts path = []) (d : Disk) :
    d.locate path = .ok (.directory (d.start path)) := by
  unfold parts at h
  unfold locate
  rw [if_neg hne, h]
  rfl

theorem locate_of_parts_concat (hne : path ≠ "") {init : List String} {last : String}
    (h : parts path = init ++ [last]) (d : Disk) :
    d.locate path = init.foldlM d.descend (d.start path) >>= fun place =>
      if last = "." ∨ last = ".." then .directory <$> d.descend place last
      else .ok (.named place last (path.toList.getLast? == some '/')) := by
  unfold parts at h
  unfold locate
  rw [if_neg hne, h]
  simp only [List.dropLast_concat, List.getLast?_concat]
  refine congrArg (init.foldlM d.descend (d.start path) >>= ·) (funext fun place => ?_)
  split
  · cases d.descend place last <;> rfl
  · rfl

theorem isDirectory_of_directory (h : d.locate path = .ok (.directory place)) :
    d.isDirectory path = true := by
  rw [isDirectory, h]

theorem isDirectory_of_named {slash : Bool} (h : d.locate path = .ok (.named place name slash)) :
    d.isDirectory path = (d.at? (place ++ [name]) == some .directory) := by
  rw [isDirectory, h]

theorem isDirectory_of_error {e : FileError} (h : d.locate path = .error e) :
    d.isDirectory path = false := by
  rw [isDirectory, h]

/-- a path that is followed leads to a directory -/
theorem isDirectory_iff :
    d.isDirectory path = true ↔ path ≠ "" ∧ ∃ place, d.follow path = .ok place := by
  by_cases hne : path = ""
  · subst hne
    exact iff_of_false Bool.false_ne_true fun h => h.1 rfl
  rw [follow_eq, and_iff_right hne]
  rcases List.eq_nil_or_concat (parts path) with hparts | ⟨init, last, hparts⟩
  · rw [isDirectory_of_directory (locate_of_parts_nil hne hparts d), hparts]
    exact iff_of_true rfl ⟨_, rfl⟩
  rw [List.concat_eq_append] at hparts
  have hlocate := locate_of_parts_concat hne hparts d
  rw [hparts, List.foldlM_append]
  cases hinit : init.foldlM d.descend (d.start path) with
  | error e =>
    rw [hinit] at hlocate
    rw [isDirectory_of_error hlocate]
    exact iff_of_false Bool.false_ne_true (by rintro ⟨_, h⟩; cases h)
  | ok place =>
    rw [hinit] at hlocate
    have hlast : (∃ below, [last].foldlM d.descend place = .ok below) ↔
        last = "." ∨ last = ".." ∨ d.at? (place ++ [last]) = some .directory := by
      rw [← exists_descend_iff, List.foldlM_cons]
      simp only [List.foldlM_nil, bind_pure]
    refine Iff.trans ?_ hlast.symm
    by_cases hdots : last = "." ∨ last = ".."
    · have hstays : last = "." ∨ last = ".." ∨ d.at? (place ++ [last]) = some .directory :=
        hdots.imp id Or.inl
      obtain ⟨below, hbelow⟩ := exists_descend_iff.mpr hstays
      have hdirectory : d.locate path = .ok (.directory below) := by
        rw [hlocate]
        show (if _ then _ else _) = _
        rw [if_pos hdots, hbelow]
        rfl
      rw [isDirectory_of_directory hdirectory]
      exact iff_of_true rfl hstays
    · have hnamed : d.locate path =
          .ok (.named place last (path.toList.getLast? == some '/')) := by
        rw [hlocate]
        exact if_neg hdots
      rw [isDirectory_of_named hnamed, ← or_assoc, or_iff_right hdots]
      exact beq_iff_eq

theorem locate_append (hdirectory : IsDirectoryText directory) (hname : IsFileName name)
    (d : Disk) :
    d.locate (directory ++ name) =
      (d.follow directory).map fun place => .named place name false := by
  have hchars : name.toList ≠ [] := fun he => hname.notEmpty (String.toList_eq_nil_iff.mp he)
  have hne : directory ++ name ≠ "" := by
    rw [Ne, String.append_eq_empty_iff]
    exact fun h => hname.notEmpty h.2
  have hslash : ((directory ++ name).toList.getLast? == some '/') = false := by
    rw [String.toList_append, List.getLast?_append_of_ne_nil _ hchars,
      List.getLast?_eq_some_getLast hchars]
    exact hname.noSlash _ (List.getLast_mem hchars)
  have hdots : ¬(name = "." ∨ name = "..") := not_or.mpr ⟨hname.notHere, hname.notUp⟩
  rw [locate_of_parts_concat hne (parts_append hdirectory hname.slash_not_mem hname.notEmpty),
    hslash, start_congr (isAbsolute_append directory hname.slash_not_mem), ← follow_eq]
  simp only [if_neg hdots]
  cases d.follow directory <;> rfl

/-- a path that leads to a name in a directory ends in that name, but for a slash -/
theorem parts_of_locate {slash : Bool} (h : d.locate path = .ok (.named place name slash)) :
    ∃ init, parts path = init ++ [name] ∧ name ≠ "." ∧ name ≠ ".." ∧
      slash = (path.toList.getLast? == some '/') := by
  have hne : path ≠ "" := by
    rintro rfl
    cases h
  rcases List.eq_nil_or_concat (parts path) with hparts | ⟨init, last, hparts⟩
  · rw [locate_of_parts_nil hne hparts] at h
    cases h
  rw [List.concat_eq_append] at hparts
  rw [locate_of_parts_concat hne hparts] at h
  cases hinit : init.foldlM d.descend (d.start path) with
  | error e => rw [hinit] at h; cases h
  | ok place' =>
    rw [hinit] at h
    change (if last = "." ∨ last = ".." then Target.directory <$> d.descend place' last
      else .ok (.named place' last (path.toList.getLast? == some '/'))) = _ at h
    by_cases hdots : last = "." ∨ last = ".."
    · rw [if_pos hdots] at h
      cases hlast : d.descend place' last with
      | error e => rw [hlast] at h; cases h
      | ok below => rw [hlast] at h; cases h
    · rw [if_neg hdots] at h
      obtain ⟨-, rfl, rfl⟩ := Target.named.inj (Except.ok.inj h)
      exact ⟨init, hparts, (not_or.mp hdots).1, (not_or.mp hdots).2, rfl⟩

/-- a path that leads to a file is the text of its directory with the name of the file behind it -/
theorem exists_of_locate (h : d.locate path = .ok (.named place name false)) :
    ∃ directory, path = directory ++ name ∧ IsDirectoryText directory ∧ IsFileName name ∧
      d.follow directory = .ok place := by
  obtain ⟨init, hparts, hhere, hup, hslash⟩ := parts_of_locate h
  obtain ⟨directory, last, rfl, hdirectory, hlast⟩ := exists_directory path
  have hne : last ≠ "" := by
    rintro rfl
    rw [String.append_empty] at hslash hparts
    rcases hdirectory.cases with hnil | ⟨front, c, hcs, hc⟩
    · rw [parts, hnil] at hparts
      exact List.append_ne_nil_of_right_ne_nil init (List.cons_ne_nil name []) hparts.symm
    · rw [hcs, List.getLast?_concat, eq_of_beq hc] at hslash
      cases hslash
  rw [parts_append hdirectory hlast hne] at hparts
  obtain rfl : last = name := List.singleton_inj.mp (List.append_inj' hparts rfl).2
  have hname : IsFileName last := ⟨beq_slash_of_not_mem hlast, hne, hhere, hup⟩
  rw [locate_append hdirectory hname] at h
  cases hfollow : d.follow directory with
  | error e => rw [hfollow] at h; cases h
  | ok place' =>
    rw [hfollow] at h
    obtain ⟨rfl, -⟩ := Target.named.inj (Except.ok.inj h)
    exact ⟨directory, rfl, hdirectory, hname, hfollow⟩

/-! ## files -/

def files (d : Disk) (place : Place) : Option String :=
  match d.at? place with
  | some (.file text) => some text
  | _ => none

theorem ne_nil_of_at?_ne (h : d.at? place ≠ some .directory) : place ≠ [] := by
  rintro rfl
  exact h rfl

theorem files_set_file (hne : place ≠ []) (text : String) :
    (d.set place (.file text)).files = Function.update d.files place (some text) := by
  funext place'
  rw [Function.update_apply, files, at?_set d place place' _ hne]
  by_cases h : place = place'
  · rw [if_pos h, if_pos h.symm]
  · rw [if_neg h, if_neg fun he => h he.symm, files]

/-- a file is written unless a directory stands in its place -/
theorem write_of_locate (h : d.locate path = .ok (.named place name false)) (text : String) :
    d.write path text =
      if d.at? (place ++ [name]) = some .directory then .error .isDirectory
      else .ok (d.set (place ++ [name]) (.file text)) := by
  rw [write, h]
  simp only [bind, Except.bind]
  cases d.at? (place ++ [name]) with
  | none => rfl
  | some entry => cases entry <;> rfl

/-- what cannot be written where a file can be is in the way of a directory -/
theorem at?_of_write_error {text : String} {e : FileError} (hwrite : d.write path text = .error e)
    (h : d.locate path = .ok (.named place name false)) :
    d.at? (place ++ [name]) = some .directory := by
  by_contra hat
  rw [write_of_locate h, if_neg hat] at hwrite
  cases hwrite

theorem write_ok {text : String} (hwrite : d.write path text = .ok d') :
    ∃ place name, d.locate path = .ok (.named place name false) ∧
      d.at? (place ++ [name]) ≠ some .directory ∧
      d' = d.set (place ++ [name]) (.file text) := by
  cases hlocate : d.locate path with
  | error e => rw [write, hlocate] at hwrite; cases hwrite
  | ok target =>
    cases target with
    | directory place => rw [write, hlocate] at hwrite; cases hwrite
    | named place name slash =>
      cases slash with
      | true => rw [write, hlocate] at hwrite; cases hwrite
      | false =>
        rw [write_of_locate hlocate] at hwrite
        split at hwrite
        · cases hwrite
        · rename_i hat
          exact ⟨place, name, rfl, hat, (Except.ok.inj hwrite).symm⟩

/-! ## later disks -/

structure Keeps (d d' : Disk) : Prop where
  workingDirectory : d'.workingDirectory = d.workingDirectory
  refusal : d'.refusal? = d.refusal?
  directory : ∀ place, d.at? place = some .directory → d'.at? place = some .directory

namespace Keeps

theorem refl (d : Disk) : Keeps d d := ⟨rfl, rfl, fun _ h => h⟩

theorem trans (h : Keeps d d') (h' : Keeps d' d'') : Keeps d d'' :=
  ⟨h'.workingDirectory.trans h.workingDirectory, h'.refusal.trans h.refusal,
    fun place hp => h'.directory place (h.directory place hp)⟩

theorem descend (h : Keeps d d') {segment : String} {below : Place}
    (hd : d.descend place segment = .ok below) : d'.descend place segment = .ok below := by
  unfold Disk.descend at hd ⊢
  split
  · rename_i hdot
    rwa [if_pos hdot] at hd
  · rename_i hdot
    rw [if_neg hdot] at hd
    split
    · rename_i hup
      rwa [if_pos hup] at hd
    · rename_i hup
      rw [if_neg hup] at hd
      cases hat : d.at? (place ++ [segment]) with
      | none => rw [hat] at hd; cases hd
      | some entry =>
        rw [hat] at hd
        cases entry with
        | file text => cases hd
        | directory => rw [h.directory _ hat]; exact hd

theorem foldlM_descend (h : Keeps d d') {segments : List String} {below : Place}
    (hd : segments.foldlM d.descend place = .ok below) :
    segments.foldlM d'.descend place = .ok below := by
  induction segments generalizing place with
  | nil => exact hd
  | cons segment segments ih =>
    rw [List.foldlM_cons] at hd ⊢
    cases hstep : d.descend place segment with
    | error e => rw [hstep] at hd; cases hd
    | ok next =>
      rw [hstep] at hd
      rw [h.descend hstep]
      exact ih hd

theorem start (h : Keeps d d') (path : String) : d'.start path = d.start path := by
  unfold Disk.start
  rw [h.workingDirectory]

theorem follow (h : Keeps d d') (hf : d.follow path = .ok place) : d'.follow path = .ok place := by
  unfold Disk.follow at hf ⊢
  rw [h.start]
  exact h.foldlM_descend hf

theorem locate (h : Keeps d d') {target : Target} (hl : d.locate path = .ok target) :
    d'.locate path = .ok target := by
  have hne : path ≠ "" := by
    rintro rfl
    cases hl
  rcases List.eq_nil_or_concat (parts path) with hparts | ⟨init, last, hparts⟩
  · rw [locate_of_parts_nil hne hparts] at hl ⊢
    rw [h.start]
    exact hl
  · rw [List.concat_eq_append] at hparts
    rw [locate_of_parts_concat hne hparts] at hl ⊢
    rw [h.start]
    cases hinit : init.foldlM d.descend (d.start path) with
    | error e => rw [hinit] at hl; cases hl
    | ok place =>
      rw [hinit] at hl
      rw [h.foldlM_descend hinit]
      change (if last = "." ∨ last = ".." then Target.directory <$> d.descend place last
        else _) = _ at hl
      change (if last = "." ∨ last = ".." then Target.directory <$> d'.descend place last
        else _) = _
      split
      · rename_i hdots
        rw [if_pos hdots] at hl
        cases hlast : d.descend place last with
        | error e => rw [hlast] at hl; cases hl
        | ok below =>
          rw [hlast] at hl
          rw [h.descend hlast]
          exact hl
      · rename_i hdots
        rwa [if_neg hdots] at hl

theorem set_file (h : d.at? place ≠ some .directory) (text : String) :
    Keeps d (d.set place (.file text)) := by
  refine ⟨rfl, rfl, fun place' hp => ?_⟩
  rw [at?_set d place place' _ (ne_nil_of_at?_ne h), if_neg (by rintro rfl; exact h hp)]
  exact hp

end Keeps

structure Written (d d' : Disk) (path text : String) (place : Place) (name : String) : Prop where
  keeps : Keeps d d'
  locate : d'.locate path = .ok (.named place name false)
  files : d'.files = Function.update d.files (place ++ [name]) (some text)
  other : ∀ place', place' ≠ place ++ [name] → d'.at? place' = d.at? place'

theorem written_of_write {text : String} (hwrite : d.write path text = .ok d') :
    ∃ place name, Written d d' path text place name := by
  obtain ⟨place, name, hlocate, hat, rfl⟩ := write_ok hwrite
  have hne : place ++ [name] ≠ [] := by simp
  have hkeeps := Keeps.set_file hat text
  refine ⟨place, name, hkeeps, hkeeps.locate hlocate, files_set_file hne text, fun place' h => ?_⟩
  rw [at?_set d _ _ _ hne, if_neg fun he => h he.symm]

/-- no directory is made where a file is written -/
theorem Written.directory_before {text : String} (h : Written d d' path text place name)
    {place' : Place} (hat : d'.at? place' = some .directory) :
    d.at? place' = some .directory := by
  by_cases he : place' = place ++ [name]
  · have hfile := congrFun h.files place'
    rw [Disk.files, hat, he, Function.update_self] at hfile
    cases hfile
  · rwa [h.other place' he] at hat

/-! ## writing files -/

/-- a disk that refuses neither to write a file nor to make the directory that it lies in -/
structure Grants (d : Disk) (path : String) : Prop where
  write : ∀ tree text, d.refusal? tree (.write path text) = none
  parent : ∀ tree, ∀ parent ∈ parent? path,
    d.refusal? tree (.makeDirectory parent) = none ∧ d.refusal? tree (.isDirectory parent) = none

theorem Grants.keeps (h : d.Grants path) (hkeeps : Keeps d d') : d'.Grants path := by
  constructor
  · rw [hkeeps.refusal]
    exact h.write
  · rw [hkeeps.refusal]
    exact h.parent

section
variable {request : Request} {operation : Disk → Except FileError Disk}

theorem run_change_refused {refusal : Refusal} (h : d.refused? request = some refusal) :
    (change request operation).run d = (.error refusal.cause, d.leave request refusal) := by
  show change request operation d = _
  simp only [change, h]

theorem run_change_ok (hgranted : d.refused? request = none) (h : operation d = .ok d') :
    (change request operation).run d = (.ok (), d') := by
  show change request operation d = _
  simp only [change, hgranted, h]

theorem run_change_error (hgranted : d.refused? request = none) {e : FileError}
    (h : operation d = .error e) : (change request operation).run d = (.error e, d) := by
  show change request operation d = _
  simp only [change, hgranted, h]

end

/-- the files of `d` are `files`, but the one at `path` may hold the beginning of `text` -/
def PartlyWritten (d : Disk) (files : Place → Option String) (path text : String) : Prop :=
  d.files = files ∨ ∃ place name part, part.toList <+: text.toList ∧
    d.locate path = .ok (.named place name false) ∧
    d.files = Function.update files (place ++ [name]) (some part)

/-- the disk, full behind the first characters of a file -/
def fullAt (d : Disk) (path : String) (kept : Nat) : Disk :=
  { d with
    refusal? := fun _ request =>
      match request with
      | .write target _ =>
        if target = path then some ⟨.other "No space left on device (os error 28)", some kept⟩
        else none
      | _ => none }

/-- how the writing of a file ends; if the disk grants it, it fails only if the tree does not allow
it -/
inductive WriteEnds (d : Disk) (path text : String) : Except FileError Unit → Disk → Prop
  | written {after : Disk} : d.write path text = .ok after → WriteEnds d path text (.ok ()) after
  | failed {after : Disk} {e : FileError} :
      Keeps d after → after.PartlyWritten d.files path text →
      (d.Grants path → d.write path text = .error e) → WriteEnds d path text (.error e) after

/-- a refused file is not there, or the beginning of it is -/
theorem leave_write (d : Disk) (path text : String) (refusal : Refusal) :
    d.leave (.write path text) refusal = d ∨ ∃ part, part.toList <+: text.toList ∧
      d.write path part = .ok (d.leave (.write path text) refusal) := by
  obtain ⟨cause, kept⟩ := refusal
  cases kept with
  | none => exact Or.inl rfl
  | some kept =>
    show (d.write path (String.ofList (text.toList.take kept))).toOption.getD d = d ∨ ∃ part, _ ∧
      _ = Except.ok ((d.write path (String.ofList (text.toList.take kept))).toOption.getD d)
    cases hwrite : d.write path (String.ofList (text.toList.take kept)) with
    | error e => exact Or.inl rfl
    | ok d' =>
      refine Or.inr ⟨_, ?_, hwrite⟩
      rw [String.toList_ofList]
      exact List.take_prefix kept _

theorem writeEnds (d : Disk) (path text : String) :
    WriteEnds d path text ((storage.write path text).run d).1
      ((storage.write path text).run d).2 := by
  cases hrefused : d.refused? (.write path text) with
  | some refusal =>
    have hrun : (storage.write path text).run d =
        (.error refusal.cause, d.leave (.write path text) refusal) := run_change_refused hrefused
    have hgrants (h : d.Grants path) : d.write path text = .error refusal.cause := by
      rw [refused?, h.write] at hrefused
      cases hrefused
    rw [hrun]
    rcases leave_write d path text refusal with hsame | ⟨part, hprefix, hpart⟩
    · rw [hsame]
      exact .failed (Keeps.refl d) (Or.inl rfl) hgrants
    · obtain ⟨place, name, hwritten⟩ := written_of_write hpart
      exact .failed hwritten.keeps
        (Or.inr ⟨place, name, part, hprefix, hwritten.locate, hwritten.files⟩) hgrants
  | none =>
    cases hwrite : d.write path text with
    | error e =>
      have hrun : (storage.write path text).run d = (.error e, d) :=
        run_change_error hrefused hwrite
      rw [hrun]
      exact .failed (Keeps.refl d) (Or.inl rfl) fun _ => hwrite
    | ok after =>
      have hrun : (storage.write path text).run d = (.ok (), after) :=
        run_change_ok hrefused hwrite
      rw [hrun]
      exact .written hwrite

structure AddsDirectories (d d' : Disk) : Prop where
  workingDirectory : d'.workingDirectory = d.workingDirectory
  refusal : d'.refusal? = d.refusal?
  at? : ∀ place, d'.at? place = d.at? place ∨
    d.at? place = none ∧ d'.at? place = some .directory

namespace AddsDirectories

theorem refl (d : Disk) : AddsDirectories d d := ⟨rfl, rfl, fun _ => Or.inl rfl⟩

theorem trans (h : AddsDirectories d d') (h' : AddsDirectories d' d'') : AddsDirectories d d'' := by
  refine ⟨h'.workingDirectory.trans h.workingDirectory, h'.refusal.trans h.refusal,
    fun place => ?_⟩
  rcases h.at? place with he | ⟨hnone, hnew⟩ <;> rcases h'.at? place with he' | ⟨hnone', hnew'⟩
  · exact Or.inl (he'.trans he)
  · exact Or.inr ⟨he ▸ hnone', hnew'⟩
  · exact Or.inr ⟨hnone, he'.trans hnew⟩
  · rw [hnew] at hnone'
    cases hnone'

theorem keeps (h : AddsDirectories d d') : Keeps d d' := by
  refine ⟨h.workingDirectory, h.refusal, fun place hp => ?_⟩
  rcases h.at? place with he | ⟨-, hnew⟩
  · exact he.trans hp
  · exact hnew

theorem files_eq (h : AddsDirectories d d') : d'.files = d.files := by
  funext place
  unfold files
  rcases h.at? place with he | ⟨hnone, hnew⟩
  · rw [he]
  · rw [hnone, hnew]

theorem set_directory (h : d.at? place = none) : AddsDirectories d (d.set place .directory) := by
  have hne : place ≠ [] := ne_nil_of_at?_ne (by rw [h]; exact Option.some_ne_none _ |>.symm)
  refine ⟨rfl, rfl, fun place' => ?_⟩
  rw [at?_set d place place' _ hne]
  by_cases he : place = place'
  · rw [if_pos he]
    exact Or.inr ⟨he ▸ h, rfl⟩
  · rw [if_neg he]
    exact Or.inl rfl

end AddsDirectories

/-! ## making directories -/

theorem makeDirectory_of_some {slash : Bool} {entry : DiskEntry}
    (h : d.locate path = .ok (.named place name slash))
    (hat : d.at? (place ++ [name]) = some entry) :
    d.makeDirectory path = .error .alreadyExists := by
  rw [makeDirectory, h]
  simp only [bind, Except.bind, hat]
  rfl

theorem makeDirectory_of_none {slash : Bool} (h : d.locate path = .ok (.named place name slash))
    (hat : d.at? (place ++ [name]) = none) :
    d.makeDirectory path = .ok (d.set (place ++ [name]) .directory) := by
  rw [makeDirectory, h]
  simp only [bind, Except.bind, hat]
  rfl

theorem makeDirectory_of_isDirectory (h : d.isDirectory path = true) :
    d.makeDirectory path = .error .alreadyExists := by
  cases hlocate : d.locate path with
  | error e =>
    rw [isDirectory_of_error hlocate] at h
    cases h
  | ok target =>
    cases target with
    | directory place => rw [makeDirectory, hlocate]; rfl
    | named place name slash =>
      rw [isDirectory_of_named hlocate, beq_iff_eq] at h
      exact makeDirectory_of_some hlocate h

theorem makeDirectory_spec (h : d.makeDirectory path = .ok d') :
    AddsDirectories d d' ∧ d'.isDirectory path = true := by
  cases hlocate : d.locate path with
  | error e => rw [makeDirectory, hlocate] at h; cases h
  | ok target =>
    cases target with
    | directory place => rw [makeDirectory, hlocate] at h; cases h
    | named place name slash =>
      cases hat : d.at? (place ++ [name]) with
      | some entry => rw [makeDirectory_of_some hlocate hat] at h; cases h
      | none =>
        rw [makeDirectory_of_none hlocate hat] at h
        obtain rfl := Except.ok.inj h
        have hadds := AddsDirectories.set_directory hat
        refine ⟨hadds, ?_⟩
        rw [isDirectory_of_named (hadds.keeps.locate hlocate), beq_iff_eq,
          at?_set d _ _ _ (by simp), if_pos rfl]

/-- what an operation does that only makes directories: if it succeeds, they lead to a path -/
structure LeadsTo (d : Disk) (path : String) (done : Except FileError Unit × Disk) : Prop where
  adds : AddsDirectories d done.2
  isDirectory : done.1 = .ok () → done.2.isDirectory path = true

/-- how the making of a directory ends; if the disk does not refuse it, as the tree allows -/
inductive MakeEnds (d : Disk) (path : String) : Except FileError Unit → Disk → Prop
  | made {after : Disk} : d.makeDirectory path = .ok after → MakeEnds d path (.ok ()) after
  | failed {e : FileError} :
      (d.refused? (.makeDirectory path) = none → d.makeDirectory path = .error e) →
      MakeEnds d path (.error e) d

theorem makeEnds (d : Disk) (path : String) :
    MakeEnds d path ((storage.makeDirectory path).run d).1
      ((storage.makeDirectory path).run d).2 := by
  cases hrefused : d.refused? (.makeDirectory path) with
  | some refusal =>
    have hrun : (storage.makeDirectory path).run d = (.error refusal.cause, d) :=
      run_change_refused hrefused
    rw [hrun]
    exact .failed fun h => by rw [h] at hrefused; cases hrefused
  | none =>
    cases hmake : d.makeDirectory path with
    | error e =>
      have hrun : (storage.makeDirectory path).run d = (.error e, d) :=
        run_change_error hrefused hmake
      rw [hrun]
      exact .failed fun _ => hmake
    | ok after =>
      have hrun : (storage.makeDirectory path).run d = (.ok (), after) :=
        run_change_ok hrefused hmake
      rw [hrun]
      exact .made hmake

theorem run_isDirectory (d : Disk) (path : String) :
    (storage.isDirectory path).run d =
      ((d.refused? (.isDirectory path)).isNone && d.isDirectory path, d) := rfl

/-- a path that is a directory already is fine, whatever else was tried -/
theorem leadsTo_orFail (d : Disk) (path : String) (e : FileError) :
    LeadsTo d path ((do
      if ← storage.isDirectory path then return .ok () else return .error e :
        StateM Disk (Except FileError Unit)).run d) := by
  rw [StateT.run_bind, run_isDirectory]
  cases hlook : (d.refused? (.isDirectory path)).isNone && d.isDirectory path with
  | true => exact ⟨AddsDirectories.refl d, fun _ => (Bool.and_eq_true_iff.mp hlook).2⟩
  | false => exact ⟨AddsDirectories.refl d, fun h => by cases h⟩

theorem ensureDirectory_leadsTo (d : Disk) (path : String) :
    LeadsTo d path ((storage.ensureDirectory path).run d) := by
  rw [Storage.ensureDirectory, StateT.run_bind]
  have hends := makeEnds d path
  generalize (storage.makeDirectory path).run d = made at hends ⊢
  obtain ⟨result, after⟩ := made
  cases hends with
  | made hmake =>
    obtain ⟨hadds, hdirectory⟩ := makeDirectory_spec hmake
    exact ⟨hadds, fun _ => hdirectory⟩
  | failed => exact leadsTo_orFail after path _

theorem ensureAll_step {parents : List String}
    (hparents : ∀ d, AddsDirectories d ((storage.ensureAll parents).run d).2) (d : Disk)
    (path : String) : LeadsTo d path ((storage.ensureAll (path :: parents)).run d) := by
  rw [Storage.ensureAll, StateT.run_bind]
  have hends := makeEnds d path
  generalize (storage.makeDirectory path).run d = made at hends ⊢
  obtain ⟨result, after⟩ := made
  cases hends with
  | made hmake =>
    obtain ⟨hadds, hdirectory⟩ := makeDirectory_spec hmake
    exact ⟨hadds, fun _ => hdirectory⟩
  | @failed e _ =>
    cases e with
    | notFound =>
      have hadds := hparents after
      show LeadsTo after path ((storage.ensureAll parents >>= fun r => _).run after)
      rw [StateT.run_bind]
      generalize (storage.ensureAll parents).run after = above at hadds ⊢
      obtain ⟨result, d'⟩ := above
      cases result with
      | error e => exact ⟨hadds, fun h => by cases h⟩
      | ok u =>
        have hlast := ensureDirectory_leadsTo d' path
        exact ⟨hadds.trans hlast.adds, hlast.isDirectory⟩
    | alreadyExists => exact leadsTo_orFail after path .alreadyExists
    | notDirectory => exact leadsTo_orFail after path .notDirectory
    | isDirectory => exact leadsTo_orFail after path .isDirectory
    | other text => exact leadsTo_orFail after path (.other text)

theorem ensureAll_adds (paths : List String) (d : Disk) :
    AddsDirectories d ((storage.ensureAll paths).run d).2 := by
  induction paths generalizing d with
  | nil => exact AddsDirectories.refl d
  | cons path parents ih => exact (ensureAll_step ih d path).adds

theorem exists_ancestors (hne : path ≠ "") : ∃ parents, ancestors path = path :: parents := by
  unfold ancestors ancestorsFrom
  rw [if_neg hne]
  exact ⟨_, rfl⟩

theorem makeDirectories_leadsTo (hne : path ≠ "") (d : Disk) :
    LeadsTo d path ((storage.makeDirectories path).run d) := by
  obtain ⟨parents, hancestors⟩ := exists_ancestors hne
  rw [Storage.makeDirectories, hancestors]
  exact ensureAll_step (ensureAll_adds parents) d path

theorem makeDirectories_of_isDirectory (h : d.isDirectory path = true)
    (hmake : d.refused? (.makeDirectory path) = none)
    (hlook : d.refused? (.isDirectory path) = none) :
    (storage.makeDirectories path).run d = (.ok (), d) := by
  obtain ⟨parents, hancestors⟩ := exists_ancestors (isDirectory_iff.mp h).1
  rw [Storage.makeDirectories, hancestors, Storage.ensureAll, StateT.run_bind]
  have hrun : (storage.makeDirectory path).run d = (.error .alreadyExists, d) :=
    run_change_error hmake (makeDirectory_of_isDirectory h)
  rw [hrun]
  show (storage.isDirectory path >>= fun b => _).run d = _
  rw [StateT.run_bind, run_isDirectory, hlook, h]
  rfl

/-- make the directory that a file lies in; the answer tells which directory cannot be made -/
def prepare (path : String) : StateM Disk (Except (String × FileError) Unit) :=
  match (parent? path).filter (· ≠ "") with
  | none => pure (.ok ())
  | some parent => return (← storage.makeDirectories parent).mapError (parent, ·)

theorem prepare_adds (path : String) (d : Disk) :
    AddsDirectories d ((prepare path).run d).2 := by
  unfold prepare
  cases hparent : (parent? path).filter (· ≠ "") with
  | none => exact AddsDirectories.refl d
  | some parent =>
    have hne : parent ≠ "" := of_decide_eq_true (Option.filter_eq_some_iff.mp hparent).2
    show AddsDirectories d ((storage.makeDirectories parent >>= fun r => pure _).run d).2
    rw [StateT.run_bind]
    exact (makeDirectories_leadsTo hne d).adds

/-- what it means to have made the directory of a file, or to have failed -/
structure Prepared (d : Disk) (directory path : String)
    (done : Except (String × FileError) Unit × Disk) : Prop where
  follow : done.1 = .ok () → ∃ place, done.2.follow directory = .ok place
  idle : d.Grants path → (∃ place, d.follow directory = .ok place) →
    done = (.ok (), d)

theorem prepared (hdirectory : IsDirectoryText directory) (hname : IsFileName name) (d : Disk) :
    Prepared d directory (directory ++ name) ((prepare (directory ++ name)).run d) := by
  obtain ⟨parent, hparent, hnames, habsolute, hempty⟩ := exists_parent hdirectory hname
  have hfollow (d : Disk) : d.follow parent = d.follow directory :=
    follow_congr hnames habsolute d
  by_cases hne : parent = ""
  · have hrun : (prepare (directory ++ name)).run d = (.ok (), d) := by
      rw [prepare, hparent, Option.filter_some, if_neg (by simpa using hne)]
      rfl
    rw [hrun, hempty hne]
    exact ⟨fun _ => ⟨_, follow_empty d⟩, fun _ _ => rfl⟩
  have hrun : (prepare (directory ++ name)).run d =
      (((storage.makeDirectories parent).run d).1.mapError (parent, ·),
        ((storage.makeDirectories parent).run d).2) := by
    rw [prepare, hparent, Option.filter_some, if_pos (by simpa using hne)]
    rfl
  have hleads := makeDirectories_leadsTo hne d
  rw [hrun]
  refine ⟨fun h => ?_, fun hgrants h => ?_⟩
  · rw [← hfollow]
    refine (isDirectory_iff.mp (hleads.isDirectory ?_)).2
    cases hresult : ((storage.makeDirectories parent).run d).1 with
    | ok u => rfl
    | error e => rw [hresult] at h; cases h
  · rw [← hfollow] at h
    obtain ⟨hmake, hlook⟩ := hgrants.parent d.entries parent hparent
    rw [makeDirectories_of_isDirectory (isDirectory_iff.mpr ⟨hne, h⟩) hmake hlook]
    rfl

/-- where a file can be, no directory has to be made -/
theorem prepare_of_locate (h : d.locate path = .ok (.named place name false))
    (hgrants : d.Grants path) : (prepare path).run d = (.ok (), d) := by
  obtain ⟨directory, rfl, hdirectory, hname, hfollow⟩ := exists_of_locate h
  exact (prepared hdirectory hname d).idle hgrants ⟨place, hfollow⟩

end CssOptimizer.Disk
