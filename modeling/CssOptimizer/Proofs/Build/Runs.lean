import CssOptimizer.Build.ModuleUsage
import CssOptimizer.Proofs.Usage.Unions

/-!
# Runs of the usage by module

Builds share the usage by module: a handle on it can be cloned, and calls come through any of the
handles.  What a call answers is told by the calls before it, whichever handles they came through.

* `HeldSince`              something began and has not ended since;
* `Call`, `run`            the calls that change a state, and the state behind them;
* `get?_run`, `mem_changed_run`   what a module's usage is then, and whether it counts as changed;
* `Usage.IsUnion`          a usage holds exactly what some usages hold;
* `Answers`                what a state answers behind calls;
* `Step`, `Handles`        handles that are made, cloned and called through;
* `Handles.callsOn`        the calls that reach a state, through whatever handle;
* `answers_after`          what the calls through a handle answer.
-/

namespace CssOptimizer

/-! ## what holds since -/

def HeldSince {α : Type} (begins ends : α → Prop) (xs : List α) : Prop :=
  ∃ before x after, xs = before ++ x :: after ∧ begins x ∧ ∀ y ∈ after, ¬ ends y

section
variable {α : Type} {begins ends : α → Prop}

theorem not_heldSince_nil : ¬ HeldSince begins ends [] := by
  rintro ⟨before, x, after, h, -⟩
  simp at h

theorem heldSince_concat {xs : List α} {x : α} :
    HeldSince begins ends (xs ++ [x]) ↔ begins x ∨ HeldSince begins ends xs ∧ ¬ ends x := by
  constructor
  · rintro ⟨before, y, after, h, hbegins, hends⟩
    rcases List.eq_nil_or_concat after with rfl | ⟨after, z, rfl⟩
    · obtain ⟨-, hy⟩ := List.append_inj' h rfl
      rw [List.singleton_inj.mp hy]
      exact Or.inl hbegins
    · rw [List.concat_eq_append] at h hends
      rw [← List.cons_append, ← List.append_assoc] at h
      obtain ⟨hxs, hz⟩ := List.append_inj' h rfl
      rw [List.singleton_inj.mp hz]
      refine Or.inr ⟨⟨before, y, after, hxs, hbegins, fun w hw => ?_⟩, ?_⟩
      · exact hends w (List.mem_append_left _ hw)
      · exact hends z (List.mem_append_right _ (List.mem_singleton_self z))
  · rintro (h | ⟨⟨before, y, after, rfl, hbegins, hends⟩, hx⟩)
    · exact ⟨xs, x, [], rfl, h, fun y hy => absurd hy List.not_mem_nil⟩
    · refine ⟨before, y, after ++ [x], by simp, hbegins, fun z hz => ?_⟩
      rcases List.mem_append.mp hz with hz | hz
      · exact hends z hz
      · rw [List.mem_singleton.mp hz]
        exact hx

end

/-! ## unions -/

namespace Usage

def IsUnion (v : Usage) (p : Usage → Prop) : Prop :=
  ∀ names ∈ [Usage.classes, Usage.ids, Usage.tags, Usage.attributes],
    ∀ a, a ∈ names v ↔ ∃ u, p u ∧ a ∈ names u

theorem isUnion_mergeAll (us : List Usage) : (mergeAll us).IsUnion (· ∈ us) := by
  intro names hnames a
  have hempty : names empty = ∅ := by
    simp only [List.mem_cons, List.not_mem_nil, or_false] at hnames
    rcases hnames with rfl | rfl | rfl | rfl <;> rfl
  have hmerge (u v : Usage) : names (u.merge v) = names u ∪ names v := by
    simp only [List.mem_cons, List.not_mem_nil, or_false] at hnames
    rcases hnames with rfl | rfl | rfl | rfl <;> rfl
  induction us using List.reverseRecOn with
  | nil =>
    show a ∈ names empty ↔ _
    rw [hempty]
    exact iff_of_false (NameSet.not_mem_empty a) fun ⟨_, hu, _⟩ => List.not_mem_nil hu
  | append_singleton us u ih =>
    rw [mergeAll_concat, hmerge, NameSet.mem_union]
    refine (or_congr_left ih).trans ?_
    simp only [List.mem_append, List.mem_singleton, or_and_right, exists_or, exists_eq_left]

end Usage

namespace ModuleUsage

/-! ## calls -/

inductive Call where
  | insert (id : String) (usage : Usage)
  | remove (id : String)
  | takeChange (id : String)
  | clear
  deriving DecidableEq

namespace Call

/-- the call writes or removes the usage of a module -/
def Writes (id : String) : Call → Prop
  | insert id' _ => id' = id
  | remove id' => id' = id
  | takeChange _ => False
  | clear => False

/-- behind the call, an older usage of a module counts no more -/
def Replaces (id : String) (call : Call) : Prop := call.Writes id ∨ call = .clear

/-- behind the call, an older change of a module counts no more -/
def Settles (id : String) (call : Call) : Prop := call = .takeChange id ∨ call = .clear

end Call

def apply (c : ModuleUsage) : Call → ModuleUsage
  | .insert id usage => (c.insert id usage).2
  | .remove id => (c.remove id).2
  | .takeChange id => (c.takeChange id).2
  | .clear => {}

def run (calls : List Call) : ModuleUsage := calls.foldl apply {}

/-- the usage of a module that was inserted last, and neither removed nor cleared since -/
def InForce (calls : List Call) (id : String) (usage : Usage) : Prop :=
  HeldSince (· = .insert id usage) (Call.Replaces id) calls

/-- a module was inserted or removed, and neither asked about nor cleared since -/
def Changed (calls : List Call) (id : String) : Prop :=
  HeldSince (Call.Writes id) (Call.Settles id) calls

theorem run_concat (calls : List Call) (call : Call) :
    run (calls ++ [call]) = (run calls).apply call := List.foldl_append

theorem get?_run (calls : List Call) (id : String) (usage : Usage) :
    (run calls).get? id = some usage ↔ InForce calls id usage := by
  induction calls using List.reverseRecOn with
  | nil => exact iff_of_false (by simp [run, get?, NameMap.get?_empty]) not_heldSince_nil
  | append_singleton calls call ih =>
    rw [run_concat, InForce, heldSince_concat, ← InForce, ← ih]
    cases call with
    | insert id' u =>
      rw [apply, get?_insert]
      by_cases h : id' = id <;> simp [Call.Replaces, Call.Writes, h]
    | remove id' =>
      rw [apply, get?_remove]
      by_cases h : id' = id <;> simp [Call.Replaces, Call.Writes, h]
    | takeChange id' =>
      rw [apply, get?_takeChange]
      simp [Call.Replaces, Call.Writes]
    | clear => simp [apply, get?, NameMap.get?_empty, Call.Replaces]

theorem mem_changed_run (calls : List Call) (id : String) :
    id ∈ (run calls).changed ↔ Changed calls id := by
  induction calls using List.reverseRecOn with
  | nil => exact iff_of_false (NameSet.not_mem_empty id) not_heldSince_nil
  | append_singleton calls call ih =>
    rw [run_concat, Changed, heldSince_concat, ← Changed, ← ih]
    cases call with
    | insert id' u =>
      refine NameSet.mem_insert.trans ?_
      simp [Call.Writes, Call.Settles, eq_comm]
    | remove id' =>
      refine NameSet.mem_insert.trans ?_
      simp [Call.Writes, Call.Settles, eq_comm]
    | takeChange id' =>
      refine NameSet.mem_erase.trans ?_
      simp [Call.Writes, Call.Settles, eq_comm, and_comm]
    | clear => simp [apply, NameSet.not_mem_empty, Call.Writes, Call.Settles]

theorem mem_values_iff {c : ModuleUsage} {usage : Usage} :
    usage ∈ c.usages.values ↔ ∃ id, c.get? id = some usage := by
  simp only [get?, NameMap.get?_eq_some_iff, NameMap.values, List.mem_map, Prod.exists,
    exists_eq_right]

/-- all usages in force are united -/
theorem merged_run (calls : List Call) :
    (run calls).merged.IsUnion fun usage => ∃ id, InForce calls id usage := by
  intro names hnames a
  rw [merged, Usage.isUnion_mergeAll _ names hnames]
  simp only [mem_values_iff, get?_run]

theorem anyChanged_run (calls : List Call) :
    (run calls).anyChanged = true ↔ ∃ id, Changed calls id := by
  rw [anyChanged, NameSet.isEmpty, Bool.not_eq_true', List.isEmpty_eq_false_iff_exists_mem]
  simp only [← NameSet.mem_iff, mem_changed_run]

structure Answers (c : ModuleUsage) (calls : List Call) : Prop where
  get : ∀ id usage, c.get? id = some usage ↔ InForce calls id usage
  insert : ∀ id usage, (c.insert id usage).1 = c.get? id
  remove : ∀ id, (c.remove id).1 = c.get? id
  merged : c.merged.IsUnion fun usage => ∃ id, InForce calls id usage
  takeChange : ∀ id, (c.takeChange id).1 = true ↔ Changed calls id
  anyChanged : c.anyChanged = true ↔ ∃ id, Changed calls id

theorem answers_run (calls : List Call) : (run calls).Answers calls where
  get := get?_run calls
  insert _ _ := rfl
  remove _ := rfl
  merged := merged_run calls
  takeChange id := NameSet.contains_iff.trans (mem_changed_run calls id)
  anyChanged := anyChanged_run calls

/-! ## handles -/

/-- what a program does: it makes a state with a handle on it, makes one more handle on the state of
a handle, or calls through a handle; handles are counted in the order in which they are made -/
inductive Step where
  | create
  | clone (handle : Nat)
  | call (handle : Nat) (call : Call)
  deriving DecidableEq

structure Handles where
  states : List ModuleUsage := []
  targets : List Nat := []

namespace Handles

/-- handles are not given back, and there is no step through one that was not made -/
def step (s : Handles) : Step → Handles
  | .create => { states := s.states ++ [{}], targets := s.targets ++ [s.states.length] }
  | .clone handle =>
    match s.targets[handle]? with
    | none => s
    | some i => { s with targets := s.targets ++ [i] }
  | .call handle call =>
    match s.targets[handle]? with
    | none => s
    | some i => { s with states := s.states.modify i (·.apply call) }

def after (steps : List Step) : Handles := steps.foldl step {}

/-- the call that a step makes of a state -/
def callOn? (s : Handles) (i : Nat) : Step → Option Call
  | .call handle call => if s.targets[handle]? = some i then some call else none
  | _ => none

def callsOn (i : Nat) (steps : List Step) : List Call :=
  steps.zipIdx.filterMap fun e => (after (steps.take e.2)).callOn? i e.1

section
variable {steps : List Step}

theorem after_concat (steps : List Step) (x : Step) :
    after (steps ++ [x]) = (after steps).step x := List.foldl_append

theorem callsOn_concat (i : Nat) (steps : List Step) (x : Step) :
    callsOn i (steps ++ [x]) = callsOn i steps ++ ((after steps).callOn? i x).toList := by
  have hbefore : (steps.zipIdx.filterMap fun e =>
      (after ((steps ++ [x]).take e.2)).callOn? i e.1) = callsOn i steps := by
    refine List.filterMap_congr fun e he => ?_
    have hle : e.2 ≤ steps.length := by
      have := List.snd_lt_of_mem_zipIdx he
      omega
    rw [List.take_append_of_le_length hle]
  have hlast : (steps ++ [x]).take steps.length = steps := List.take_left' rfl
  rw [callsOn, List.zipIdx_append, List.filterMap_append, hbefore, List.zipIdx_singleton,
    Nat.zero_add, List.filterMap_cons, hlast]
  cases (after steps).callOn? i x <;> rfl

theorem lt_of_target {handle i : Nat} (h : (after steps).targets[handle]? = some i) :
    i < (after steps).states.length := by
  suffices ∀ i ∈ (after steps).targets, i < (after steps).states.length from
    this i (List.mem_of_getElem? h)
  clear h
  induction steps using List.reverseRecOn with
  | nil => exact fun i hi => absurd hi List.not_mem_nil
  | append_singleton steps x ih =>
    intro i hi
    rw [after_concat] at hi ⊢
    cases x with
    | create =>
      rw [step, List.mem_append, List.mem_singleton] at hi
      rw [step, List.length_append, List.length_singleton]
      rcases hi with hi | rfl
      · have := ih i hi
        omega
      · omega
    | clone handle =>
      rw [step] at hi ⊢
      split at hi
      · exact ih i hi
      · rename_i j hj
        rcases List.mem_append.mp hi with hi | hi
        · exact ih i hi
        · rw [List.mem_singleton.mp hi]
          exact ih j (List.mem_of_getElem? hj)
    | call handle call =>
      rw [step] at hi ⊢
      split at hi
      · exact ih i hi
      · rw [List.length_modify]
        exact ih i hi

/-- each state is the one behind the calls that reached it; no call reaches a state to come -/
theorem getD_states (steps : List Step) (i : Nat) :
    (after steps).states.getD i {} = run (callsOn i steps) := by
  induction steps using List.reverseRecOn with
  | nil => rfl
  | append_singleton steps x ih =>
    rw [after_concat, callsOn_concat]
    cases x with
    | create =>
      show ((after steps).step .create).states.getD i {} = run (callsOn i steps ++ [])
      rw [List.append_nil, ← ih, step]
      simp only [List.getD_eq_getElem?_getD, List.getElem?_append, List.getElem?_singleton]
      split
      · rfl
      · rename_i hi
        rw [List.getElem?_eq_none (Nat.le_of_not_lt hi)]
        split <;> rfl
    | clone handle =>
      show ((after steps).step (.clone handle)).states.getD i {} = run (callsOn i steps ++ [])
      rw [List.append_nil, ← ih, step]
      split <;> rfl
    | call handle call =>
      rw [callOn?, step]
      cases htarget : (after steps).targets[handle]? with
      | none => rw [if_neg (by simp), Option.toList_none, List.append_nil, ← ih]
      | some j =>
        have hlt : j < (after steps).states.length := lt_of_target htarget
        show ((after steps).states.modify j (·.apply call)).getD i {} = _
        rw [List.getD_eq_getElem?_getD] at ih ⊢
        by_cases hij : j = i
        · subst hij
          rw [List.getElem?_eq_getElem hlt, Option.getD_some] at ih
          rw [if_pos rfl, Option.toList_some, run_concat, ← ih, List.getElem?_modify_eq,
            List.getElem?_eq_getElem hlt]
          rfl
        · rw [if_neg (by simpa using hij), Option.toList_none, List.append_nil, ← ih,
            List.getElem?_modify_ne _ _ hij]

end

end Handles

/-- through every handle that a program has made, the answers are told by the calls so far through
this handle and all others on its state; and a clone of the handle is on the same state -/
theorem answers_after (steps : List Step) {handle i : Nat}
    (h : (Handles.after steps).targets[handle]? = some i) :
    (∃ c, (Handles.after steps).states[i]? = some c ∧ c.Answers (Handles.callsOn i steps)) ∧
      (Handles.after (steps ++ [.clone handle])).targets =
        (Handles.after steps).targets ++ [i] := by
  have hlt : i < (Handles.after steps).states.length := Handles.lt_of_target h
  have hget := Handles.getD_states steps i
  rw [List.getD_eq_getElem?_getD, List.getElem?_eq_getElem hlt, Option.getD_some] at hget
  refine ⟨⟨run (Handles.callsOn i steps), ?_, answers_run _⟩, ?_⟩
  · rw [List.getElem?_eq_getElem hlt, hget]
  · rw [Handles.after_concat, Handles.step, h]

/-- a state with two handles on it, through which calls come in turn, and another state -/
def clonedSteps : List Step :=
  [.create, .clone 0, .call 0 (.insert "a.tsx" { classes := NameSet.ofList ["a"] }),
    .call 1 (.takeChange "a.tsx"), .create, .call 2 (.insert "b.tsx" {}),
    .call 1 (.remove "c.tsx")]

theorem answers_clonedSteps :
    (Handles.after clonedSteps).targets[1]? = some 0 ∧
    (∃ c, (Handles.after clonedSteps).states[0]? = some c ∧
      c.Answers [.insert "a.tsx" { classes := NameSet.ofList ["a"] }, .takeChange "a.tsx",
        .remove "c.tsx"]) ∧
      (Handles.after (clonedSteps ++ [.clone 1])).targets = [0, 0, 1, 0] :=
  ⟨rfl, @answers_after clonedSteps 1 0 rfl⟩

end ModuleUsage
end CssOptimizer
