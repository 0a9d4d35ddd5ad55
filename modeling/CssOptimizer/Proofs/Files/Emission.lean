import CssOptimizer.Proofs.Files.Trees
import CssOptimizer.Proofs.SourceMap

/-!
# What an emission leaves on a disk

The directory is made, the source map is made out to the file and written, and then the stylesheet
is written.  Each of these can fail, because of the tree or because the disk refuses it.

* `Emission`          how an emission ends, with its result and on which disk;
* `emission`          every emission ends in one of these ways;
* `emit_leaves`       one that succeeds has written its files and no others; one that fails has
                      written nothing, but for the beginning of the file that could not be written,
                      and for the source map if that file is the stylesheet.

There is no way back: once the source map is written it stays, although the stylesheet cannot be
written (`emit_leaves_map`).
-/

namespace CssOptimizer
open SourceMap

variable {d d' : Disk} {o : Outcome} {path name : String}

/-- something in the tree is in the way of an emission that the disk grants, or its source map is
malformed, unless its directory had to be made -/
def Obstructed (d : Disk) (o : Outcome) (path name : String) : Prop :=
  d.Grants path → d.Grants (mapPath path) →
    ∀ place, d.locate path = .ok (.named place name false) →
      d.at? (place ++ [name]) = some .directory ∨
        ∃ map, o.sourceMap = some map ∧ (d.at? (place ++ [mapPath name]) = some .directory ∨
          ∃ cause, Json.parse map = .error cause)

/-- what is in the way is a directory or a source map that cannot be read -/
theorem Obstructed.not_clear (h : Obstructed d o path name) (hgrants : d.Grants path)
    (hgrantsMap : d.Grants (mapPath path)) {place : Place}
    (hplace : d.locate path = .ok (.named place name false))
    (hfree : d.at? (place ++ [name]) ≠ some .directory) :
    ¬∀ map, o.sourceMap = some map → d.at? (place ++ [mapPath name]) ≠ some .directory ∧
      ∃ v, Json.parse map = .ok v := by
  intro hmaps
  obtain ⟨map, hmap, hat | ⟨cause, hcause⟩⟩ :=
    (h hgrants hgrantsMap place hplace).resolve_left hfree
  · exact (hmaps map hmap).1 hat
  · obtain ⟨v, hv⟩ := (hmaps map hmap).2
    cases hcause.symm.trans hv

inductive Emission (d : Disk) (o : Outcome) (path name : String) :
    Except EmitError Unit → Disk → Prop
  | plain {after : Disk} {place : Place} :
      o.sourceMap = none → after.locate path = .ok (.named place name false) →
      after.files = Function.update d.files (place ++ [name]) (some o.css) →
      Emission d o path name (.ok ()) after
  | mapped {after : Disk} {place : Place} {map : String} {v w : Json.Value} :
      o.sourceMap = some map → Json.parse map = .ok v → MadeOut v w name →
      after.locate (mapPath path) = .ok (.named place (mapPath name) false) →
      after.locate path = .ok (.named place name false) →
      after.files = Function.update
        (Function.update d.files (place ++ [mapPath name]) (some (Json.compact w)))
        (place ++ [name]) (some (o.css ++ mapTrailer name)) →
      Emission d o path name (.ok ()) after
  | unprepared {after : Disk} {e : EmitError} :
      (∀ target cause, e ≠ .write target cause) → after.files = d.files →
      Obstructed d o path name → Emission d o path name (.error e) after
  | plainRefused {after : Disk} {cause : FileError} :
      o.sourceMap = none → after.PartlyWritten d.files path o.css →
      Obstructed d o path name → Emission d o path name (.error (.write path cause)) after
  | mapRefused {after : Disk} {cause : FileError} {map : String} {v w : Json.Value} :
      o.sourceMap = some map → Json.parse map = .ok v → MadeOut v w name →
      after.PartlyWritten d.files (mapPath path) (Json.compact w) → Obstructed d o path name →
      Emission d o path name (.error (.write (mapPath path) cause)) after
  | mapLeft {after : Disk} {cause : FileError} {place : Place} {file map : String}
      {v w : Json.Value} :
      o.sourceMap = some map → Json.parse map = .ok v → MadeOut v w name →
      after.locate (mapPath path) = .ok (.named place file false) →
      after.PartlyWritten (Function.update d.files (place ++ [file]) (some (Json.compact w))) path
        (o.css ++ mapTrailer name) →
      Obstructed d o path name → Emission d o path name (.error (.write path cause)) after

/-! ## the steps of an emission -/

/-- what is done behind the directory of a path -/
def writeOutcome (path : String) (o : Outcome) : ExceptT EmitError (StateM Disk) Unit := do
  let files ← orThrow .sourceMap (pure (o.files ((Path.fileName? path).getD "")))
  match files.map with
  | none => pure ()
  | some map => orThrow (.write (mapPath path)) (Disk.storage.write (mapPath path) map)
  orThrow (.write path) (Disk.storage.write path files.css)

theorem run_orThrow {ε α : Type} (tell : ε → EmitError) (action : StateM Disk (Except ε α))
    (d : Disk) :
    (orThrow tell action).run.run d = ((action.run d).1.mapError tell, (action.run d).2) := rfl

/-- two steps, the second of which is taken if the first one succeeds -/
theorem run_then {α β : Type} (x : ExceptT EmitError (StateM Disk) α)
    (f : α → ExceptT EmitError (StateM Disk) β) (d : Disk) :
    (x >>= f).run.run d =
      match x.run.run d with
      | (.ok a, d') => (f a).run.run d'
      | (.error e, d') => (.error e, d') := by
  rw [ExceptT.run_bind, StateT.run_bind]
  obtain ⟨result, d'⟩ := x.run.run d
  cases result <;> rfl

theorem run_emit (path : String) (o : Outcome) (d : Disk) :
    (emit Disk.storage path o).run.run d =
      match (Disk.prepare path).run d with
      | (.ok (), d') => (writeOutcome path o).run.run d'
      | (.error (parent, cause), d') => (.error (.createDirectory parent cause), d') := by
  unfold emit Disk.prepare
  cases hparent : (Path.parent? path).filter (· ≠ "") with
  | none => rfl
  | some parent =>
    show (orThrow (.createDirectory parent) (Disk.storage.makeDirectories parent) >>= fun _ =>
      writeOutcome path o).run.run d = _
    rw [run_then, run_orThrow]
    show _ = match (Disk.storage.makeDirectories parent >>= fun r =>
      pure (r.mapError (parent, ·))).run d with
      | (.ok (), d') => _
      | (.error (parent, cause), d') => _
    rw [StateT.run_bind]
    obtain ⟨result, d'⟩ := (Disk.storage.makeDirectories parent).run d
    cases result <;> rfl

/-- the texts of an outcome are put together, or its source map cannot be read -/
theorem files_cases (o : Outcome) (file : String) :
    (∃ map cause, o.sourceMap = some map ∧ Json.parse map = .error cause ∧
      o.files file = .error cause) ∨
    (o.sourceMap = none ∧ o.files file = .ok ⟨o.css, none⟩) ∨
    ∃ map v w, o.sourceMap = some map ∧ Json.parse map = .ok v ∧ MadeOut v w file ∧
      o.files file = .ok ⟨o.css ++ mapTrailer file, some (Json.compact w)⟩ := by
  unfold Outcome.files linkFiles retarget
  cases o.sourceMap with
  | none => exact Or.inr (Or.inl ⟨rfl, rfl⟩)
  | some map =>
    cases hparse : Json.parse map with
    | error cause =>
      refine Or.inl ⟨map, cause, rfl, hparse, ?_⟩
      simp only [hparse]
      rfl
    | ok v =>
      refine Or.inr (Or.inr ⟨map, v, _, rfl, hparse, madeOut_withField v file, ?_⟩)
      simp only [hparse]
      rfl

theorem run_writeOutcome {texts : EmittedFiles} (hname : Path.fileName? path = some name)
    (hfiles : o.files name = .ok texts) (d : Disk) :
    (writeOutcome path o).run.run d =
      ((match texts.map with
        | none => pure ()
        | some map => orThrow (.write (mapPath path)) (Disk.storage.write (mapPath path) map)) >>=
        fun _ => orThrow (.write path) (Disk.storage.write path texts.css)).run.run d := by
  unfold writeOutcome
  rw [run_then, run_orThrow, hname]
  simp only [Option.getD_some, hfiles]
  obtain ⟨css, map⟩ := texts
  cases map <;> rfl

theorem writeOutcome_error {cause : Json.Failure} (hname : Path.fileName? path = some name)
    (hfiles : o.files name = .error cause) (d : Disk) :
    (writeOutcome path o).run.run d = (.error (.sourceMap cause), d) := by
  unfold writeOutcome
  rw [run_then, run_orThrow, hname]
  simp only [Option.getD_some, hfiles]
  rfl

/-! ## where the source map is -/

theorem mapPath_append (directory name : String) :
    mapPath (directory ++ name) = directory ++ mapPath name := String.append_assoc

theorem isFileName_mapPath (hslash : '/' ∉ name.toList) : Path.IsFileName (mapPath name) :=
  Path.isFileName_append hslash (by decide) (by decide)

/-- the source map of a file is next to it -/
theorem locate_mapPath {place : Place} (h : d.locate path = .ok (.named place name false)) :
    d.locate (mapPath path) = .ok (.named place (mapPath name) false) := by
  obtain ⟨directory, rfl, hdirectory, hname, hfollow⟩ := Disk.exists_of_locate h
  rw [mapPath_append, Disk.locate_append hdirectory (isFileName_mapPath hname.slash_not_mem),
    hfollow]
  rfl

theorem fileName?_of_locate {place : Place} {file : String}
    (h : d.locate path = .ok (.named place file false)) : Path.fileName? path = some file := by
  obtain ⟨directory, rfl, hdirectory, hname, -⟩ := Disk.exists_of_locate h
  exact Path.fileName?_append hdirectory hname

/-- a file that is written has the name that its path ends in -/
theorem exists_written {text : String} (hname : Path.fileName? path = some name)
    (hwrite : d.write path text = .ok d') : ∃ place, Disk.Written d d' path text place name := by
  obtain ⟨place, file, hwritten⟩ := Disk.written_of_write hwrite
  obtain rfl : file = name :=
    Option.some.inj ((fileName?_of_locate hwritten.locate).symm.trans hname)
  exact ⟨place, hwritten⟩

/-! ## the ways of an emission -/

section
variable {start : Disk} (hadds : Disk.AddsDirectories start d)
  (hidle : start.Grants path → ∀ place, start.locate path = .ok (.named place name false) →
    d = start)
  (hname : Path.fileName? path = some name)
include hadds hidle hname

theorem emission_plain (hmap : o.sourceMap = none) (hfiles : o.files name = .ok ⟨o.css, none⟩) :
    Emission start o path name ((writeOutcome path o).run.run d).1
      ((writeOutcome path o).run.run d).2 := by
  rw [run_writeOutcome hname hfiles]
  simp only [pure_bind, run_orThrow]
  have hends := Disk.writeEnds d path o.css
  generalize (Disk.storage.write path o.css).run d = ending at hends ⊢
  obtain ⟨result, after⟩ := ending
  cases hends with
  | written hwrite =>
    obtain ⟨place, hwritten⟩ := exists_written hname hwrite
    exact .plain hmap hwritten.locate (hwritten.files.trans (by rw [hadds.files_eq]))
  | failed _ hpart hgranted =>
    rw [hadds.files_eq] at hpart
    refine .plainRefused hmap hpart fun hgrants _ place hplace => Or.inl ?_
    obtain rfl := hidle hgrants place hplace
    exact Disk.at?_of_write_error (hgranted hgrants) hplace

theorem emission_mapped {map : String} {v w : Json.Value} (hmap : o.sourceMap = some map)
    (hparse : Json.parse map = .ok v) (hmade : MadeOut v w name)
    (hfiles : o.files name = .ok ⟨o.css ++ mapTrailer name, some (Json.compact w)⟩) :
    Emission start o path name ((writeOutcome path o).run.run d).1
      ((writeOutcome path o).run.run d).2 := by
  rw [run_writeOutcome hname hfiles, run_then]
  simp only [run_orThrow]
  have hends := Disk.writeEnds d (mapPath path) (Json.compact w)
  generalize (Disk.storage.write (mapPath path) (Json.compact w)).run d = ending at hends ⊢
  obtain ⟨result, linked⟩ := ending
  cases hends with
  | failed _ hpart hgranted =>
    rw [hadds.files_eq] at hpart
    refine .mapRefused hmap hparse hmade hpart fun hgrants hgrantsMap place hplace =>
      Or.inr ⟨map, hmap, Or.inl ?_⟩
    obtain rfl := hidle hgrants place hplace
    exact Disk.at?_of_write_error (hgranted hgrantsMap) (locate_mapPath hplace)
  | written hwriteMap =>
    obtain ⟨mapPlace, mapFile, hlinked⟩ := Disk.written_of_write hwriteMap
    have hlinkedFiles := hlinked.files
    rw [hadds.files_eq] at hlinkedFiles
    have hends := Disk.writeEnds linked path (o.css ++ mapTrailer name)
    show Emission start o path name
      (((Disk.storage.write path (o.css ++ mapTrailer name)).run linked).1.mapError _)
      ((Disk.storage.write path (o.css ++ mapTrailer name)).run linked).2
    generalize (Disk.storage.write path (o.css ++ mapTrailer name)).run linked = ending
      at hends ⊢
    obtain ⟨result, after⟩ := ending
    cases hends with
    | failed hkeeps hpart hgranted =>
      rw [hlinkedFiles] at hpart
      refine .mapLeft hmap hparse hmade (hkeeps.locate hlinked.locate) hpart
        fun hgrants _ place hplace => Or.inl ?_
      obtain rfl := hidle hgrants place hplace
      exact hlinked.directory_before (Disk.at?_of_write_error
        (hgranted (hgrants.keeps hlinked.keeps)) (hlinked.keeps.locate hplace))
    | written hwrite =>
      obtain ⟨place, hwritten⟩ := exists_written hname hwrite
      have hmapLocate := hwritten.keeps.locate hlinked.locate
      obtain ⟨rfl, rfl, -⟩ := Disk.Target.named.inj
        (Except.ok.inj (hmapLocate.symm.trans (locate_mapPath hwritten.locate)))
      refine .mapped hmap hparse hmade hmapLocate hwritten.locate ?_
      rw [hwritten.files, hlinkedFiles]

theorem emission_of_prepared (o : Outcome) :
    Emission start o path name ((writeOutcome path o).run.run d).1
      ((writeOutcome path o).run.run d).2 := by
  rcases files_cases o name with ⟨map, cause, hmap, hparse, hfiles⟩ | ⟨hmap, hfiles⟩ |
    ⟨map, v, w, hmap, hparse, hmade, hfiles⟩
  · rw [writeOutcome_error hname hfiles]
    exact .unprepared (fun _ _ h => by cases h) hadds.files_eq fun _ _ _ _ =>
      Or.inr ⟨map, hmap, Or.inr ⟨cause, hparse⟩⟩
  · exact emission_plain hadds hidle hname hmap hfiles
  · exact emission_mapped hadds hidle hname hmap hparse hmade hfiles

end

theorem emission (hname : Path.fileName? path = some name) (d : Disk) (o : Outcome) :
    Emission d o path name ((emit Disk.storage path o).run.run d).1
      ((emit Disk.storage path o).run.run d).2 := by
  have hadds := Disk.prepare_adds path d
  rw [run_emit]
  cases hprepare : (Disk.prepare path).run d with
  | mk result d' =>
    rw [hprepare] at hadds
    have hidle (hgrants : d.Grants path) (place : Place)
        (hplace : d.locate path = .ok (.named place name false)) : (result, d') = (.ok (), d) :=
      hprepare.symm.trans (Disk.prepare_of_locate hplace hgrants)
    cases result with
    | error e =>
      exact .unprepared (fun _ _ h => by cases h) hadds.files_eq fun hgrants _ place hplace => by
        cases hidle hgrants place hplace
    | ok u =>
      exact emission_of_prepared hadds
        (fun hgrants place hplace => (Prod.mk.inj (hidle hgrants place hplace)).2) hname o

/-! ## what is left -/

/-- an emission that succeeds has written the stylesheet, and its source map if it has one, and no
other file.  One that fails has written no file, but for the beginning of the one whose writing
failed; if this is the stylesheet, its source map was written before.  It succeeds where the disk
grants both files and nothing in the tree is in their way -/
theorem emit_leaves (hname : Path.fileName? path = some name) (d : Disk) (o : Outcome) :
    let ending := (emit Disk.storage path o).run.run d
    (ending.1 = .ok () → ∃ place, ending.2.locate path = .ok (.named place name false) ∧
      (o.sourceMap = none ∧
          ending.2.files = Function.update d.files (place ++ [name]) (some o.css) ∨
        ∃ map v w, o.sourceMap = some map ∧ Json.parse map = .ok v ∧ MadeOut v w name ∧
          ending.2.locate (path ++ ".map") = .ok (.named place (name ++ ".map") false) ∧
          ending.2.files = Function.update
            (Function.update d.files (place ++ [name ++ ".map"]) (some (Json.compact w)))
            (place ++ [name]) (some (o.css ++ mapTrailer name)))) ∧
    (∀ e, ending.1 = .error e →
      (∀ target cause, e ≠ .write target cause) ∧ ending.2.files = d.files ∨
      ∃ cause, (e = .write path cause ∧ o.sourceMap = none ∧
          ending.2.PartlyWritten d.files path o.css) ∨
        ∃ map v w, o.sourceMap = some map ∧ Json.parse map = .ok v ∧ MadeOut v w name ∧
          (e = .write (path ++ ".map") cause ∧
              ending.2.PartlyWritten d.files (path ++ ".map") (Json.compact w) ∨
            ∃ place file, e = .write path cause ∧
              ending.2.locate (path ++ ".map") = .ok (.named place file false) ∧
              ending.2.PartlyWritten
                (Function.update d.files (place ++ [file]) (some (Json.compact w))) path
                (o.css ++ mapTrailer name))) ∧
    (d.Grants path → d.Grants (path ++ ".map") →
      ∀ place, d.locate path = .ok (.named place name false) →
        d.at? (place ++ [name]) ≠ some .directory →
        (∀ map, o.sourceMap = some map → d.at? (place ++ [name ++ ".map"]) ≠ some .directory ∧
          ∃ v, Json.parse map = .ok v) → ending.1 = .ok ()) := by
  intro ending
  have hends : Emission d o path name ending.1 ending.2 := emission hname d o
  generalize ending.1 = result at hends ⊢
  generalize ending.2 = after at hends ⊢
  refine ⟨fun h => ?_, fun e h => ?_, fun hgrants hgrantsMap place hplace hfree hmaps => ?_⟩
  · subst h
    cases hends with
    | plain hnone hplace hfiles => exact ⟨_, hplace, Or.inl ⟨hnone, hfiles⟩⟩
    | mapped hmap hparse hmade hmapPlace hplace hfiles =>
      exact ⟨_, hplace, Or.inr ⟨_, _, _, hmap, hparse, hmade, hmapPlace, hfiles⟩⟩
  · subst h
    cases hends with
    | unprepared hother hfiles _ => exact Or.inl ⟨hother, hfiles⟩
    | plainRefused hnone hpart _ => exact Or.inr ⟨_, Or.inl ⟨rfl, hnone, hpart⟩⟩
    | mapRefused hmap hparse hmade hpart _ =>
      exact Or.inr ⟨_, Or.inr ⟨_, _, _, hmap, hparse, hmade, Or.inl ⟨rfl, hpart⟩⟩⟩
    | mapLeft hmap hparse hmade hmapPlace hpart _ =>
      exact Or.inr ⟨_, Or.inr ⟨_, _, _, hmap, hparse, hmade,
        Or.inr ⟨_, _, rfl, hmapPlace, hpart⟩⟩⟩
  · have hclear (hobstructed : Obstructed d o path name) : result = .ok () :=
      absurd hmaps (hobstructed.not_clear hgrants hgrantsMap hplace hfree)
    cases hends with
    | plain => rfl
    | mapped => rfl
    | unprepared _ _ hobstructed => exact hclear hobstructed
    | plainRefused _ _ hobstructed => exact hclear hobstructed
    | mapRefused _ _ _ _ hobstructed => exact hclear hobstructed
    | mapLeft _ _ _ _ _ hobstructed => exact hclear hobstructed

/-- an outcome with a source map -/
def mappedOutcome (map : String) : Outcome where
  css := ".a\x7bx:1\x7d"
  report := .ofCounts 0 0 0 0 0
  composition := []
  sourceMap := some map
  diagnostics := []

/-- a disk with a directory at a place -/
def directoryDisk (place : Place) : Disk := { entries := [(place, .directory)] }

theorem emit_leaves_out :
    Path.fileName? "out/s.css" = some "s.css" ∧
      ((emit Disk.storage "out/s.css" (mappedOutcome "\x7b\x7d")).run.run
        (directoryDisk ["out"])).1 = .ok () ∧
      ∃ place v w, Json.parse "\x7b\x7d" = .ok v ∧ MadeOut v w "s.css" ∧
        ((emit Disk.storage "out/s.css" (mappedOutcome "\x7b\x7d")).run.run
          (directoryDisk ["out"])).2.files (place ++ ["s.css" ++ ".map"]) =
            some (Json.compact w) := by
  have hname : Path.fileName? "out/s.css" = some "s.css" := by decide +kernel
  have hparse : Json.parse "\x7b\x7d" = .ok (.object []) := by
    have htext : Json.compact (.object []) = "\x7b\x7d" := by decide +kernel
    rw [← htext]
    exact Json.parse_compact fun _ h => absurd h List.not_mem_nil
  have hplace : (directoryDisk ["out"]).locate "out/s.css" =
      .ok (.named ["out"] "s.css" false) := by decide +kernel
  obtain ⟨hsuccess, -, hfree⟩ :=
    emit_leaves hname (directoryDisk ["out"]) (mappedOutcome "\x7b\x7d")
  have hok := hfree ⟨fun _ _ => rfl, fun _ _ _ => ⟨rfl, rfl⟩⟩
    ⟨fun _ _ => rfl, fun _ _ _ => ⟨rfl, rfl⟩⟩ ["out"] hplace (by decide +kernel) fun map hmap => by
    obtain rfl : "\x7b\x7d" = map := Option.some.inj hmap
    exact ⟨by decide +kernel, _, hparse⟩
  refine ⟨hname, hok, ?_⟩
  obtain ⟨place, -, hplain | ⟨map, v, w, hmap, hv, hmade, -, hfiles⟩⟩ := hsuccess hok
  · exact absurd hplain.1 (Option.some_ne_none _)
  · obtain rfl : "\x7b\x7d" = map := Option.some.inj hmap
    refine ⟨place, v, w, hv, hmade, ?_⟩
    rw [hfiles, Function.update_of_ne, Function.update_self]
    exact fun he => mapPath_ne "s.css" (List.singleton_inj.mp (List.append_cancel_left he))

/-- a source map stays behind although the stylesheet could not be written, and so may the beginning
of the stylesheet; a source map that is a list gets no name of a file -/
theorem emit_leaves_map :
    ((emit Disk.storage "s.css" (mappedOutcome "\x7b\x7d")).run.run (directoryDisk ["s.css"])).1 =
        .error (.write "s.css" .isDirectory) ∧
      (directoryDisk ["s.css"]).files ["s.css.map"] = none ∧
      ((emit Disk.storage "s.css" (mappedOutcome "\x7b\x7d")).run.run
        (directoryDisk ["s.css"])).2.files ["s.css.map"] =
          some "\x7b\"file\":\"s.css\"\x7d" ∧
      ((emit Disk.storage "s.css" (mappedOutcome "\x7b\x7d")).run.run
        (Disk.fullAt {} "s.css" 2)).1.isOk = false ∧
      ((emit Disk.storage "s.css" (mappedOutcome "\x7b\x7d")).run.run
        (Disk.fullAt {} "s.css" 2)).2.files ["s.css"] = some ".a" ∧
      ((emit Disk.storage "s.css" (mappedOutcome "[]")).run.run {}).1 = .ok () ∧
      ((emit Disk.storage "s.css" (mappedOutcome "[]")).run.run {}).2.files ["s.css.map"] =
        some "[]" := by
  decide +kernel

end CssOptimizer
