import CssOptimizer.Files.Emit
import CssOptimizer.Proofs.Json.ReadBack

/-!
# Source maps with another file name

A source map is read back from what was written of it, so that making it out to another file
succeeds and changes the name only (`retarget_generate`).  Hence the files of an outcome can be
written if its source map is one that was generated (`linkFiles_generate`).

A map that is made out to one file after the other is the map of the last one, and only the name
of the file is new in it (`retarget_replaces_file`).

Any text that is a value is made out to another file: of an object, only the field of the name is
new (`MadeOut`, `madeOut_withField`).
-/

namespace CssOptimizer
open Json

namespace SourceMap

theorem fits_value (source file : String) : (value source file).Fits maxDepth := by
  have hthree : (Value.nat 3).Fits (maxDepth - 1) := ⟨by decide, by decide⟩
  have hsources : (Value.array [.string source]).Fits (maxDepth - 1) :=
    List.forall_mem_singleton.mpr trivial
  have hnames : (Value.array []).Fits (maxDepth - 1) := fun _ h => absurd h List.not_mem_nil
  show ∀ field ∈ _, _
  simp only [List.forall_mem_cons]
  exact ⟨trivial, trivial, hnames, hsources, hthree, fun _ h => absurd h List.not_mem_nil⟩

/-- the fields stand in order, and that of the file is replaced -/
theorem withField_value (source file target : String) :
    (value source file).sortFields.withField "file" (.string target) = value source target := rfl

theorem retarget_generate (source file target : String) :
    retarget (generate source file) target = .ok (generate source target) := by
  rw [retarget, generate, parse_compact (fits_value source file)]
  exact congrArg (fun v => Except.ok (compact v)) (withField_value source file target)

theorem foldlM_retarget_generate (source file : String) (targets : List String) :
    targets.foldlM retarget (generate source file) =
      .ok (generate source (targets.getLastD file)) := by
  induction targets generalizing file with
  | nil => rfl
  | cons target targets ih =>
    calc (target :: targets).foldlM retarget (generate source file)
        = retarget (generate source file) target >>= (targets.foldlM retarget ·) :=
          List.foldlM_cons
      _ = targets.foldlM retarget (generate source target) := by
          rw [retarget_generate]
          rfl
      _ = .ok (generate source ((target :: targets).getLastD file)) := by
          rw [ih target, List.getLastD_cons]

/-- the fields do not depend on the name of the file, but for the one that holds it -/
theorem field?_value (source file target key : String) :
    (value source target).field? key =
      if key = "file" then some (.string target) else (value source file).field? key := by
  show (Value.lastField? key (_ :: _)).or _ = if _ then _ else (Value.lastField? key (_ :: _)).or _
  by_cases h : key = "file"
  · rw [h, if_pos rfl]
    rfl
  · rw [if_neg h, if_neg (Ne.symm h), if_neg (Ne.symm h)]

/-- a generated map is made out to another file, and that to the next one; what is read of the last
map is what is read of the first one, but for the name of the file -/
theorem retarget_replaces_file (source file : String) :
    (∀ target, retarget (generate source file) target = .ok (generate source target)) ∧
    ∀ targets : List String,
      targets.foldlM retarget (generate source file) =
        .ok (generate source (targets.getLastD file)) ∧
      ∃ v w, Json.parse (generate source file) = .ok v ∧
        Json.parse (generate source (targets.getLastD file)) = .ok w ∧
        v.field? "file" = some (.string file) ∧
        ∀ key, w.field? key =
          if key = "file" then some (.string (targets.getLastD file)) else v.field? key := by
  have hread (file : String) : Json.parse (generate source file) = .ok (value source file) :=
    parse_compact (fits_value source file)
  refine ⟨retarget_generate source file, fun targets => ?_⟩
  exact ⟨foldlM_retarget_generate source file targets, _, _, hread file, hread _, rfl,
    field?_value source file _⟩

end SourceMap

/-! ## values that are made out to a file -/

namespace Json.Value

theorem lastField?_eq_find? (name : String) {fields : List (String × Value)}
    (h : fields.Pairwise fun a b => a.1 < b.1) :
    lastField? name fields = NameMap.find? name fields := by
  induction fields with
  | nil => rfl
  | cons field fields ih =>
    obtain ⟨key, v⟩ := field
    have h' := List.pairwise_cons.mp h
    rw [lastField?, NameMap.find?, ih h'.2]
    by_cases hkey : key = name
    · subst hkey
      rw [if_pos rfl, if_pos rfl, NameMap.find?_eq_none_of_lt h'.1, Option.none_or]
    · rw [if_neg hkey, if_neg hkey, Option.or_none]

theorem lastField?_setField (name key : String) (v : Value) {fields : List (String × Value)}
    (h : fields.Pairwise fun a b => a.1 < b.1) :
    lastField? key (setField fields name v) =
      if name = key then some v else lastField? key fields := by
  rw [setField, lastField?_eq_find? key (NameMap.pairwise_insertList h), lastField?_eq_find? key h]
  exact NameMap.find?_insertList h

theorem pairwise_sortEntries (fields : List (String × Value)) {sorted : List (String × Value)}
    (h : sorted.Pairwise fun a b => a.1 < b.1) :
    (sortEntries sorted fields).Pairwise fun a b => a.1 < b.1 := by
  induction fields generalizing sorted with
  | nil => exact h
  | cons field fields ih => exact ih (NameMap.pairwise_insertList h)

/-- the last field of a name is the one that is kept -/
theorem lastField?_sortEntries (key : String) (fields : List (String × Value))
    {sorted : List (String × Value)} (h : sorted.Pairwise fun a b => a.1 < b.1) :
    lastField? key (sortEntries sorted fields) =
      ((lastField? key fields).map sortFields).or (lastField? key sorted) := by
  induction fields generalizing sorted with
  | nil => rfl
  | cons field fields ih =>
    obtain ⟨name, v⟩ := field
    have hset : (setField sorted name v.sortFields).Pairwise fun a b => a.1 < b.1 :=
      NameMap.pairwise_insertList h
    rw [sortEntries, ih hset, lastField?_setField _ _ _ h, lastField?]
    cases lastField? key fields with
    | some w => rfl
    | none =>
      by_cases hname : name = key
      · rw [if_pos hname, if_pos hname]
        rfl
      · rw [if_neg hname, if_neg hname]
        rfl

def IsObject (v : Value) : Prop := ∃ fields, v = .object fields

end Json.Value

namespace SourceMap

/-- a value made out to a file: of an object, only the field of the name is new; other values have
no such field -/
structure MadeOut (v w : Value) (file : String) : Prop where
  object : v.IsObject → w.IsObject ∧ ∀ key,
    w.field? key = if key = "file" then some (.string file) else (v.field? key).map Value.sortFields
  other : ¬v.IsObject → w = v.sortFields

theorem madeOut_withField (v : Value) (file : String) :
    MadeOut v (v.sortFields.withField "file" (.string file)) file := by
  by_cases h : v.IsObject
  · obtain ⟨fields, rfl⟩ := h
    refine ⟨fun _ => ⟨⟨_, rfl⟩, fun key => ?_⟩, fun h => absurd ⟨fields, rfl⟩ h⟩
    have hsorted : (Value.sortEntries [] fields).Pairwise fun a b => a.1 < b.1 :=
      Value.pairwise_sortEntries fields .nil
    show Value.lastField? key (Value.setField (Value.sortEntries [] fields) "file" _) = _
    rw [Value.lastField?_setField _ _ _ hsorted, Value.lastField?_sortEntries key fields .nil,
      Value.lastField?, Option.or_none]
    simp only [eq_comm]
    rfl
  · refine ⟨fun h' => absurd h' h, fun _ => ?_⟩
    cases v with
    | object fields => exact absurd ⟨fields, rfl⟩ h
    | null => rfl
    | bool b => rfl
    | number n => rfl
    | string s => rfl
    | array items => rfl

end SourceMap

/-! ## paths and texts -/

theorem mapPath_ne (path : String) : mapPath path ≠ path := by
  intro h
  have hlength := congrArg String.length h
  rw [mapPath, String.length_append] at hlength
  have hmap : ".map".length = 4 := by decide
  omega

theorem linkFiles_generate (css source file target : String) :
    linkFiles css (some (SourceMap.generate source file)) target =
      .ok ⟨css ++ mapTrailer target, some (SourceMap.generate source target)⟩ := by
  rw [linkFiles, SourceMap.retarget_generate]
  rfl

end CssOptimizer
