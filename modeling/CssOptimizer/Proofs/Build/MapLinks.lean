import CssOptimizer.Proofs.Build.Modules
import CssOptimizer.Proofs.Files.Emission

/-!
# Where a stylesheet finds its source map

The last line of a stylesheet names its source map by a reference.  It is read relative to the
directory of the stylesheet, so it has to be the last name of the path of the source map.

* `linked`               a stylesheet with this line;
* `PutOut`               a stylesheet with this line, and its source map, among files;
* `reference_leads`      on a disk the line holds the last name, and leads to the source map; in a
                         bundle it holds the whole name, which leads there only if the stylesheet is
                         in no directory or is named from the root.

A stylesheet in a directory of a bundle looks for its source map in a directory of that name inside
this one (`reference_misses_map`).
-/

namespace CssOptimizer
open CssOptimizer.Path

def linked (css reference : String) : String :=
  css ++ ("\n/*# sourceMappingURL=" ++ reference ++ " */\n")

/-- among files, read by their names, a stylesheet that ends in a reference, and its source map -/
structure PutOut (read : String → Option String) (path css reference map : String) : Prop where
  stylesheet : read path = some (linked css reference)
  sourceMap : read (mapPath path) = some map

/-! ## on a disk -/

theorem Disk.read_of_locate {d : Disk} {place : Place} {path name text : String}
    (h : d.locate path = .ok (.named place name false))
    (hfile : d.files (place ++ [name]) = some text) : d.read path = .ok text := by
  rw [Disk.files] at hfile
  rw [Disk.read, h]
  simp only [bind, Except.bind]
  split at hfile
  · rename_i hat
    rw [hat, ← Option.some.inj hfile]
    rfl
  · cases hfile

/-- the name of the source map leads from its stylesheet to the file next to it -/
theorem resolve_mapPath_of_locate {d : Disk} {place : Place} {path name : String}
    (h : d.locate path = .ok (.named place name false)) :
    resolve path (mapPath name) = mapPath path := by
  obtain ⟨directory, rfl, hdirectory, hname, -⟩ := Disk.exists_of_locate h
  have hslash := hname.slash_not_mem
  rw [resolve_next hdirectory hslash (isFileName_mapPath hslash), mapPath_append]

theorem putOut_of_emission {d after : Disk} {o : Outcome} {path name map : String}
    (hmap : o.sourceMap = some map) (h : Emission d o path name (.ok ()) after) :
    ∃ v w, Json.parse map = .ok v ∧ SourceMap.MadeOut v w name ∧
      PutOut (fun path => (after.read path).toOption) path o.css (mapPath name)
        (Json.compact w) ∧
      resolve path (mapPath name) = mapPath path := by
  cases h with
  | plain hnone _ _ => exact absurd (hnone.symm.trans hmap) (Option.some_ne_none _).symm
  | @mapped _ place text v w htext hparse hmade hmapPlace hplace hfiles =>
    obtain rfl : map = text := Option.some.inj (hmap.symm.trans htext)
    have hne : place ++ [mapPath name] ≠ place ++ [name] := fun he =>
      mapPath_ne name (List.singleton_inj.mp (List.append_cancel_left he))
    have hstylesheet : after.files (place ++ [name]) = some (linked o.css (mapPath name)) := by
      rw [hfiles, Function.update_self]
      rfl
    have hsource : after.files (place ++ [mapPath name]) = some (Json.compact w) := by
      rw [hfiles, Function.update_of_ne hne, Function.update_self]
    refine ⟨v, w, hparse, hmade, ⟨?_, ?_⟩, resolve_mapPath_of_locate hplace⟩
    · rw [Disk.read_of_locate hplace hstylesheet]
      rfl
    · rw [Disk.read_of_locate hmapPlace hsource]
      rfl

/-! ## in a bundle -/

theorem putOut_generate {x : BuildStep} (h : x.options.sourceMap = true) (b : Bundle) :
    ∃ b', x.generate b = .ok b' ∧
      PutOut b'.get? x.fileName x.outcome.css (mapPath x.fileName)
        (SourceMap.generate x.options.sourceName x.fileName) := by
  refine ⟨_, BuildStep.generate_eq x b, ?_⟩
  rw [if_pos h]
  refine ⟨?_, ?_⟩
  · rw [Bundle.get?_emit, if_neg (mapPath_ne x.fileName), Bundle.get?_emit, if_pos rfl,
      BuildStep.text, if_pos h]
    rfl
  · rw [Bundle.get?_emit, if_pos rfl]

/-- the whole name of a source map leads to it from a stylesheet without a directory, and from one
that is named from the root -/
theorem resolve_mapPath_iff (file : String) :
    resolve file (mapPath file) = mapPath file ↔ '/' ∉ file.toList ∨ IsAbsolute file := by
  rw [resolve_eq_self_iff, mapPath, isAbsolute_append file (by decide)]

/-! ## both -/

/-- the reference in a stylesheet that was written to a disk leads to its source map; in a bundle it
does so exactly if the name of the stylesheet has no slash or starts with one -/
theorem reference_leads (d : Disk) (o : Outcome) (path : String) (x : BuildStep) (b : Bundle) :
    (∀ name map : String, Path.fileName? path = some name → o.sourceMap = some map →
      let ending := (emit Disk.storage path o).run.run d
      ending.1 = .ok () → ∃ reference v w, Json.parse map = .ok v ∧
        SourceMap.MadeOut v w name ∧
        PutOut (fun path => (ending.2.read path).toOption) path o.css reference
          (Json.compact w) ∧
        resolve path reference = path ++ ".map") ∧
    (x.options.sourceMap = true →
      ∃ b' reference, x.generate b = .ok b' ∧
        PutOut b'.get? x.fileName x.outcome.css reference
          (SourceMap.generate x.options.sourceName x.fileName) ∧
        (resolve x.fileName reference = x.fileName ++ ".map" ↔
          '/' ∉ x.fileName.toList ∨ IsAbsolute x.fileName)) := by
  constructor
  · intro name map hname hmap ending hok
    have hends : Emission d o path name ending.1 ending.2 := emission hname d o
    rw [hok] at hends
    exact ⟨mapPath name, putOut_of_emission hmap hends⟩
  · intro h
    obtain ⟨b', hgenerate, hput⟩ := putOut_generate h b
    exact ⟨b', mapPath x.fileName, hgenerate, hput, resolve_mapPath_iff x.fileName⟩

/-- a stylesheet that is put out in a directory of a bundle -/
def nestedStep : BuildStep where
  registry := { entries := [⟨.style "", 0, some "c0", [.rule ".c0" [⟨"color", "red"⟩]]⟩] }
  options := { minify := true, sourceMap := true, sourceName := "app.css" }
  fileName := "css/app.css"

theorem reference_leads_out :
    (Path.fileName? "out/s.css" = some "s.css" ∧
      (mappedOutcome "\x7b\x7d").sourceMap = some "\x7b\x7d" ∧
      ((emit Disk.storage "out/s.css" (mappedOutcome "\x7b\x7d")).run.run
        (directoryDisk ["out"])).1 = .ok () ∧
      ∃ reference map, PutOut (fun path => (((emit Disk.storage "out/s.css"
          (mappedOutcome "\x7b\x7d")).run.run (directoryDisk ["out"])).2.read path).toOption)
          "out/s.css" ".a\x7bx:1\x7d" reference map ∧
        resolve "out/s.css" reference = "out/s.css" ++ ".map") ∧
    nestedStep.options.sourceMap = true ∧
      ∃ b' reference, nestedStep.generate [] = .ok b' ∧
        PutOut b'.get? "css/app.css" nestedStep.outcome.css reference
          (SourceMap.generate "app.css" "css/app.css") ∧
        resolve "css/app.css" reference ≠ "css/app.css" ++ ".map" := by
  have hname : Path.fileName? "out/s.css" = some "s.css" := by decide +kernel
  have hok : ((emit Disk.storage "out/s.css" (mappedOutcome "\x7b\x7d")).run.run
      (directoryDisk ["out"])).1 = .ok () := by decide +kernel
  obtain ⟨hdisk, hbundle⟩ := reference_leads (directoryDisk ["out"]) (mappedOutcome "\x7b\x7d")
    "out/s.css" nestedStep []
  obtain ⟨reference, v, w, -, -, hput, hleads⟩ := hdisk "s.css" _ hname rfl hok
  obtain ⟨b', reference', hgenerate, hput', hiff⟩ := hbundle rfl
  refine ⟨⟨hname, rfl, hok, reference, _, hput, hleads⟩, rfl, b', reference', hgenerate, hput',
    fun he => ?_⟩
  exact absurd (hiff.mp he) (by rw [IsAbsolute]; decide +kernel)

/-- in a directory of a bundle the reference leads to a file that is not there -/
theorem reference_misses_map :
    ∃ b', nestedStep.generate [] = .ok b' ∧
      b'.get? "css/app.css" =
        some ".c0\x7bcolor:red\x7d\n/*# sourceMappingURL=css/app.css.map */\n" ∧
      (b'.get? "css/app.css.map").isSome = true ∧
      resolve "css/app.css" "css/app.css.map" = "css/css/app.css.map" ∧
      b'.get? "css/css/app.css.map" = none := by
  refine ⟨_, BuildStep.generate_eq nestedStep [], ?_⟩
  decide +kernel

end CssOptimizer
