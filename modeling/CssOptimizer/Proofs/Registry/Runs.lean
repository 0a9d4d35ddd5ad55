import Mathlib.Data.List.Induction
import CssOptimizer.Proofs.Registry.Bodies
import CssOptimizer.Proofs.Text.Names

/-!
# Runs of a registry

A run registers bodies and blocks and clears the registry now and then.  What the registry holds
behind a run is told by the registrations since it was cleared last: the first one of each
content, in order.

* `Registration`, `Registration.content`   what is registered, and what makes two of them the same;
* `Call`, `run`                            the calls of a run, and the registry behind it;
* `recent`, `firsts`                       the registrations that count, and the first ones of them;
* `holding`                                the registry that holds given registrations;
* `slot`                                   the place of a content among them, which is its id;
* `run_eq_holding`                         a run ends in such a registry;
* `exists_registration`                    where its entries come from, for every hash;
* `addStyle_run`, `addStyle_eq_iff`        what a registration answers;
* `find?_run`, `addStyle_eq_of_keys`       what of this holds for every hash;
* `numbered_run`                           the registry behind a run, as it is read.
-/

namespace CssOptimizer.Registry

/-! ## registrations -/

/-- what is registered: the text of a declaration body, or a global stylesheet -/
inductive Registration where
  | style (text : String)
  | block (css : String)
  deriving DecidableEq

/-- what makes two registrations the same: the keys of the body, or the minified stylesheet -/
inductive Content where
  | style (keys : List DeclarationKey)
  | block (text : String)
  deriving DecidableEq

namespace Registration

def content : Registration → Content
  | .style text => .style ((parseDeclarations text).map Declaration.key)
  | .block css => .block (minified (parse css))

/-- the text that is hashed -/
def hashed : Registration → String
  | .style text => bodyText (parseDeclarations text)
  | .block css => minified (parse css)

def key (hash : String → String) : Registration → StyleKey
  | .style text => styleKey hash (parseDeclarations text)
  | .block css => globalKey hash (parse css)

/-- the class that a body gets with an id; blocks get none -/
def className? (classPrefix : String) (id : Nat) : Registration → Option String
  | .style _ => some (classPrefix ++ toString id)
  | .block _ => none

def nodes (classPrefix : String) (id : Nat) : Registration → List Node
  | .style text => [.rule ("." ++ (classPrefix ++ toString id)) (parseDeclarations text)]
  | .block css => parse css

/-- the entry that a registration makes with an id -/
def entry (hash : String → String) (classPrefix : String) (id : Nat) (reg : Registration) :
    RegisteredBlock where
  key := reg.key hash
  id := id
  className := reg.className? classPrefix id
  nodes := reg.nodes classPrefix id

end Registration

/-- the hash gives the texts of these registrations different digests -/
def Apart (hash : String → String) (regs : List Registration) : Prop :=
  ∀ a ∈ regs, ∀ b ∈ regs, hash a.hashed = hash b.hashed → a.hashed = b.hashed

instance (hash : String → String) (regs : List Registration) : Decidable (Apart hash regs) :=
  inferInstanceAs (Decidable (∀ _ ∈ _, ∀ _ ∈ _, _))

theorem Apart.mono {hash : String → String} {regs part : List Registration} (h : Apart hash regs)
    (hpart : ∀ reg ∈ part, reg ∈ regs) : Apart hash part :=
  fun a ha b hb => h a (hpart a ha) b (hpart b hb)

theorem key_eq_iff {hash : String → String} {a b : Registration}
    (h : hash a.hashed = hash b.hashed → a.hashed = b.hashed) :
    a.key hash = b.key hash ↔ a.content = b.content := by
  cases a with
  | style s =>
    cases b with
    | style t =>
      have hiff : hash (bodyText (parseDeclarations s)) = hash (bodyText (parseDeclarations t)) ↔
          bodyText (parseDeclarations s) = bodyText (parseDeclarations t) := ⟨h, congrArg hash⟩
      rw [Registration.key, Registration.key, styleKey, styleKey, StyleKey.style.injEq, hiff,
        bodyText_parseDeclarations_iff, Registration.content, Registration.content,
        Content.style.injEq]
    | block css => exact ⟨StyleKey.noConfusion, Content.noConfusion⟩
  | block css =>
    cases b with
    | style t => exact ⟨StyleKey.noConfusion, Content.noConfusion⟩
    | block css' =>
      have hiff : hash (minified (parse css)) = hash (minified (parse css')) ↔
          minified (parse css) = minified (parse css') := ⟨h, congrArg hash⟩
      rw [Registration.key, Registration.key, globalKey, globalKey, StyleKey.global.injEq, hiff,
        Registration.content, Registration.content, Content.block.injEq]

/-! ## calls -/

inductive Call where
  | register (reg : Registration)
  | clear
  deriving DecidableEq

def apply (hash : String → String) (r : Registry) : Call → Registry
  | .register (.style text) => (r.addStyle hash text).2
  | .register (.block css) => (r.addBlock hash css).2
  | .clear => r.clear

def run (hash : String → String) (classPrefix : String) (calls : List Call) : Registry :=
  calls.foldl (apply hash) { classPrefix }

def recent (calls : List Call) : List Registration :=
  calls.foldl (fun regs call =>
    match call with
    | .register reg => regs ++ [reg]
    | .clear => []) []

/-- one more registration, unless its content is there already -/
def keepFirst (kept : List Registration) (reg : Registration) : List Registration :=
  if reg.content ∈ kept.map Registration.content then kept else kept ++ [reg]

def firsts (regs : List Registration) : List Registration := regs.foldl keepFirst []

def holding (hash : String → String) (classPrefix : String) (kept : List Registration) :
    Registry where
  classPrefix := classPrefix
  entries := kept.mapIdx (Registration.entry hash classPrefix)
  nextId := kept.length

/-- the answer to a body with an id -/
def issued (classPrefix : String) (id : Nat) : IssuedClass := ⟨id, classPrefix ++ toString id⟩

def slot (kept : List Registration) (reg : Registration) : Nat :=
  kept.findIdx (·.content = reg.content)

section
variable {calls : List Call} {reg : Registration} {kept regs : List Registration}

theorem run_snoc (hash : String → String) (classPrefix : String) (call : Call) :
    run hash classPrefix (calls ++ [call]) = apply hash (run hash classPrefix calls) call :=
  List.foldl_append

theorem recent_register : recent (calls ++ [.register reg]) = recent calls ++ [reg] :=
  List.foldl_append

theorem recent_clear : recent (calls ++ [.clear]) = [] := List.foldl_append

theorem firsts_snoc : firsts (regs ++ [reg]) = keepFirst (firsts regs) reg := List.foldl_append

/-- what is registered after a call comes behind what it registers, until the next clearing -/
theorem recent_split (before : List Call) (reg : Registration) {after : List Call}
    (h : Call.clear ∉ after) :
    ∃ later, recent (before ++ .register reg :: after) = recent before ++ reg :: later := by
  induction after using List.reverseRecOn with
  | nil => exact ⟨[], recent_register⟩
  | append_singleton after call ih =>
    rw [List.mem_append, not_or, List.mem_singleton] at h
    obtain ⟨later, hlater⟩ := ih h.1
    cases call with
    | clear => exact absurd rfl h.2
    | register last =>
      refine ⟨later ++ [last], ?_⟩
      rw [← List.cons_append, ← List.append_assoc, recent_register, hlater, List.append_assoc]
      rfl

/-! ## first registrations -/

theorem keepFirst_of_mem (h : reg.content ∈ kept.map Registration.content) :
    keepFirst kept reg = kept := if_pos h

theorem keepFirst_of_not_mem (h : reg.content ∉ kept.map Registration.content) :
    keepFirst kept reg = kept ++ [reg] := if_neg h

theorem mem_keepFirst : reg.content ∈ (keepFirst kept reg).map Registration.content := by
  by_cases h : reg.content ∈ kept.map Registration.content
  · rw [keepFirst_of_mem h]
    exact h
  · rw [keepFirst_of_not_mem h, List.map_append]
    exact List.mem_append_right _ (List.mem_singleton_self _)

theorem firsts_split (regs : List Registration) (reg : Registration)
    (later : List Registration) :
    ∃ added, firsts (regs ++ reg :: later) = keepFirst (firsts regs) reg ++ added := by
  induction later using List.reverseRecOn with
  | nil => exact ⟨[], by rw [firsts_snoc, List.append_nil]⟩
  | append_singleton later last ih =>
    obtain ⟨added, hadded⟩ := ih
    rw [← List.cons_append, ← List.append_assoc, firsts_snoc, hadded]
    by_cases h : last.content ∈ (keepFirst (firsts regs) reg ++ added).map Registration.content
    · exact ⟨added, keepFirst_of_mem h⟩
    · exact ⟨added ++ [last], by rw [keepFirst_of_not_mem h, List.append_assoc]⟩

theorem mem_of_mem_firsts (h : reg ∈ firsts regs) : reg ∈ regs := by
  induction regs using List.reverseRecOn with
  | nil => exact h
  | append_singleton regs last ih =>
    rw [firsts_snoc] at h
    by_cases hlast : last.content ∈ (firsts regs).map Registration.content
    · rw [keepFirst_of_mem hlast] at h
      exact List.mem_append_left _ (ih h)
    · rw [keepFirst_of_not_mem hlast] at h
      exact (List.mem_append.mp h).elim (fun h => List.mem_append_left _ (ih h))
        (List.mem_append_right _)

/-- when a registration is made, it and what is kept until then are told apart -/
theorem Apart.keep {hash : String → String} {later : List Registration}
    (h : Apart hash (regs ++ reg :: later)) : Apart hash (firsts regs ++ [reg]) := by
  refine h.mono fun r hr => ?_
  rw [List.mem_append] at hr ⊢
  refine hr.imp mem_of_mem_firsts fun hr => ?_
  rw [List.mem_singleton.mp hr]
  exact List.mem_cons_self

/-! ## places -/

theorem slot_lt_iff :
    slot kept reg < kept.length ↔ reg.content ∈ kept.map Registration.content := by
  rw [slot, List.findIdx_lt_length, List.mem_map]
  simp only [decide_eq_true_eq]

theorem content_slot (h : slot kept reg < kept.length) :
    kept[slot kept reg].content = reg.content :=
  of_decide_eq_true (List.findIdx_getElem (w := h))

theorem slot_append (h : reg.content ∈ kept.map Registration.content) (more : List Registration) :
    slot (kept ++ more) reg = slot kept reg := by
  rw [slot, List.findIdx_append]
  exact if_pos (slot_lt_iff.mpr h)

theorem slot_of_not_mem (h : reg.content ∉ kept.map Registration.content) :
    slot (kept ++ [reg]) reg = kept.length := by
  have hlt : ¬kept.findIdx (·.content = reg.content) < kept.length := mt slot_lt_iff.mp h
  rw [slot, List.findIdx_append, if_neg hlt]
  simp

/-- a new content keeps its place, whatever is registered later -/
theorem getElem?_slot_of_not_mem (h : reg.content ∉ (firsts regs).map Registration.content)
    (later : List Registration) :
    (firsts (regs ++ reg :: later))[slot (firsts (regs ++ reg :: later)) reg]? = some reg := by
  obtain ⟨added, hadded⟩ := firsts_split regs reg later
  rw [hadded, keepFirst_of_not_mem h,
    slot_append (List.mem_map_of_mem List.mem_concat_self), slot_of_not_mem h, List.append_assoc,
    List.getElem?_append_right (Nat.le_refl _), Nat.sub_self]
  rfl

theorem slot_eq_iff {other : Registration} (h : reg.content ∈ kept.map Registration.content)
    (hother : other.content ∈ kept.map Registration.content) :
    slot kept reg = slot kept other ↔ reg.content = other.content := by
  constructor
  · intro he
    have h₁ := content_slot (slot_lt_iff.mpr h)
    have h₂ := content_slot (slot_lt_iff.mpr hother)
    simp only [he] at h₁
    exact h₁.symm.trans h₂
  · intro he
    rw [slot, slot, he]

end

/-! ## the registry that holds registrations -/

section
variable {hash : String → String} {classPrefix : String} {kept : List Registration}
  {reg : Registration}

theorem entries_holding :
    (holding hash classPrefix kept).entries =
      kept.mapIdx (Registration.entry hash classPrefix) := rfl

theorem find?_mapIdx {f : Nat → Registration → RegisteredBlock} {p : RegisteredBlock → Bool}
    {i : Nat} (hi : i < kept.length) (hp : p (f i kept[i]) = true)
    (hfirst : ∀ j (_ : j < kept.length), j < i → p (f j kept[j]) = false) :
    (kept.mapIdx f).find? p = some (f i kept[i]) := by
  rw [List.find?_eq_some_iff_getElem]
  refine ⟨hp, i, by rwa [List.length_mapIdx], List.getElem_mapIdx, fun j hj => ?_⟩
  rw [List.getElem_mapIdx, hfirst j (Nat.lt_trans hj hi) hj]
  rfl

theorem find?_holding_of_mem (hapart : Apart hash (kept ++ [reg]))
    (h : reg.content ∈ kept.map Registration.content) :
    (holding hash classPrefix kept).find? (reg.key hash) =
      (kept[slot kept reg]?).map (Registration.entry hash classPrefix (slot kept reg)) := by
  have hlt := slot_lt_iff.mpr h
  have hkey (i : Nat) (hi : i < kept.length) :
      kept[i].key hash = reg.key hash ↔ kept[i].content = reg.content :=
    key_eq_iff (hapart _ (List.mem_append_left _ (List.getElem_mem hi)) _
      (List.mem_append_right _ (List.mem_singleton_self _)))
  rw [List.getElem?_eq_getElem hlt, Option.map_some]
  refine find?_mapIdx hlt (decide_eq_true ((hkey _ hlt).mpr (content_slot hlt))) fun j hlt' hj => ?_
  have hne : ¬kept[j].content = reg.content := of_decide_eq_false (List.not_of_lt_findIdx hj)
  exact decide_eq_false fun hk => hne ((hkey j hlt').mp hk)

theorem find?_holding_of_not_mem (hapart : Apart hash (kept ++ [reg]))
    (h : reg.content ∉ kept.map Registration.content) :
    (holding hash classPrefix kept).find? (reg.key hash) = none := by
  rw [find?, List.find?_eq_none]
  intro e he
  obtain ⟨i, hi, rfl⟩ := List.mem_mapIdx.mp he
  rw [decide_eq_true_eq]
  intro hk
  have hmem := List.getElem_mem hi
  have hcontent := (key_eq_iff (hapart _ (List.mem_append_left _ hmem) _
    (List.mem_append_right _ (List.mem_singleton_self _)))).mp hk
  exact h (List.mem_map.mpr ⟨_, hmem, hcontent⟩)

/-- registering finds or makes the entry at the place of the content -/
theorem findOrPush_holding (classPrefix : String) (hapart : Apart hash (kept ++ [reg])) :
    ∃ first, first.content = reg.content ∧
      (keepFirst kept reg)[slot (keepFirst kept reg) reg]? = some first ∧
      (holding hash classPrefix kept).findOrPush (reg.key hash)
          (reg.className? classPrefix kept.length) (reg.nodes classPrefix kept.length) =
        (first.entry hash classPrefix (slot (keepFirst kept reg) reg),
          holding hash classPrefix (keepFirst kept reg)) := by
  by_cases h : reg.content ∈ kept.map Registration.content
  · have hlt := slot_lt_iff.mpr h
    have hget := List.getElem?_eq_getElem hlt
    have hfind : (holding hash classPrefix kept).find? (reg.key hash) = _ :=
      find?_holding_of_mem hapart h
    rw [hget, Option.map_some] at hfind
    rw [keepFirst_of_mem h]
    refine ⟨kept[slot kept reg], content_slot hlt, hget, ?_⟩
    rw [findOrPush, hfind]
  · rw [keepFirst_of_not_mem h, slot_of_not_mem h]
    refine ⟨reg, rfl, List.getElem?_concat_length, ?_⟩
    rw [findOrPush, find?_holding_of_not_mem hapart h, push]
    simp only [holding, List.mapIdx_concat, List.length_append, List.length_singleton]
    rfl

theorem addStyle_holding {text : String} (hapart : Apart hash (kept ++ [.style text])) :
    (holding hash classPrefix kept).addStyle hash text =
      (issued classPrefix (slot (keepFirst kept (.style text)) (.style text)),
        holding hash classPrefix (keepFirst kept (.style text))) := by
  obtain ⟨first, hfirst, -, hfind⟩ := findOrPush_holding classPrefix hapart
  cases first with
  | block css => exact absurd hfirst Content.noConfusion
  | style t =>
    have he : (holding hash classPrefix kept).addStyle hash text =
        (fun r : RegisteredBlock × Registry => (⟨r.1.id, r.1.className.getD ""⟩, r.2))
          ((holding hash classPrefix kept).findOrPush (Registration.key hash (.style text))
            (Registration.className? classPrefix kept.length (.style text))
            (Registration.nodes classPrefix kept.length (.style text))) := rfl
    rw [he, hfind]
    rfl

theorem addBlock_holding {css : String} (hapart : Apart hash (kept ++ [.block css])) :
    (holding hash classPrefix kept).addBlock hash css =
      (slot (keepFirst kept (.block css)) (.block css),
        holding hash classPrefix (keepFirst kept (.block css))) := by
  obtain ⟨first, -, -, hfind⟩ := findOrPush_holding classPrefix hapart
  have he : (holding hash classPrefix kept).addBlock hash css =
      (fun r : RegisteredBlock × Registry => (r.1.id, r.2))
        ((holding hash classPrefix kept).findOrPush (Registration.key hash (.block css))
          (Registration.className? classPrefix kept.length (.block css))
          (Registration.nodes classPrefix kept.length (.block css))) := rfl
  rw [he, hfind]
  rfl

theorem apply_holding (hapart : Apart hash (kept ++ [reg])) :
    apply hash (holding hash classPrefix kept) (.register reg) =
      holding hash classPrefix (keepFirst kept reg) := by
  cases reg with
  | style text => rw [apply, addStyle_holding hapart]
  | block css => rw [apply, addBlock_holding hapart]

theorem classPrefix_apply (r : Registry) (call : Call) :
    (apply hash r call).classPrefix = r.classPrefix := by
  have hpush (key : StyleKey) (className : Option String) (nodes : List Node) :
      (r.findOrPush key className nodes).2.classPrefix = r.classPrefix := by
    rw [findOrPush]
    split <;> rfl
  cases call with
  | clear => rfl
  | register reg =>
    cases reg with
    | style text => exact hpush _ _ _
    | block css => exact hpush _ _ _

/-! ## runs -/

variable {calls : List Call}

theorem classPrefix_run : (run hash classPrefix calls).classPrefix = classPrefix := by
  induction calls using List.reverseRecOn with
  | nil => rfl
  | append_singleton calls call ih => rw [run_snoc, classPrefix_apply, ih]

/-- a call keeps entries or makes the entry of what it registers -/
theorem mem_entries_apply {r : Registry} {call : Call} {e : RegisteredBlock}
    (h : e ∈ (apply hash r call).entries) :
    e ∈ r.entries ∨ ∃ reg : Registration, e = reg.entry hash r.classPrefix r.nextId := by
  have hpush {key : StyleKey} {className : Option String} {nodes : List Node}
      (h : e ∈ (r.findOrPush key className nodes).2.entries) :
      e ∈ r.entries ∨ e = ⟨key, r.nextId, className, nodes⟩ := by
    rw [findOrPush] at h
    split at h
    · exact Or.inl h
    · exact (List.mem_append.mp h).imp_right List.mem_singleton.mp
  cases call with
  | clear => exact absurd h List.not_mem_nil
  | register reg =>
    cases reg with
    | style text => exact (hpush h).imp_right fun he => ⟨.style text, he⟩
    | block css => exact (hpush h).imp_right fun he => ⟨.block css, he⟩

theorem exists_registration {e : RegisteredBlock}
    (h : e ∈ (run hash classPrefix calls).entries) :
    ∃ (id : Nat) (reg : Registration), e = reg.entry hash classPrefix id := by
  induction calls using List.reverseRecOn with
  | nil => exact absurd h List.not_mem_nil
  | append_singleton calls call ih =>
    rw [run_snoc] at h
    rcases mem_entries_apply h with h | ⟨reg, rfl⟩
    · exact ih h
    · exact ⟨_, reg, by rw [classPrefix_run]⟩

theorem run_eq_holding (hapart : Apart hash (recent calls)) :
    run hash classPrefix calls = holding hash classPrefix (firsts (recent calls)) := by
  induction calls using List.reverseRecOn with
  | nil => rfl
  | append_singleton calls call ih =>
    cases call with
    | clear =>
      have hempty (r : Registry) (h : r.classPrefix = classPrefix) :
          r.clear = holding hash classPrefix [] := by rw [clear, h]; rfl
      rw [run_snoc, recent_clear]
      exact hempty _ classPrefix_run
    | register reg =>
      rw [recent_register] at hapart ⊢
      rw [run_snoc, ih (hapart.mono fun r hr => List.mem_append_left _ hr),
        apply_holding hapart.keep, firsts_snoc]

/-! ## answers -/

theorem addStyle_run (classPrefix : String) {before after : List Call} {text : String}
    (hapart : Apart hash (recent (before ++ .register (.style text) :: after)))
    (hafter : Call.clear ∉ after) :
    ((run hash classPrefix before).addStyle hash text).1 =
        issued classPrefix
          (slot (firsts (recent (before ++ .register (.style text) :: after))) (.style text)) ∧
      (Registration.style text).content ∈
        (firsts (recent (before ++ .register (.style text) :: after))).map
          Registration.content := by
  obtain ⟨later, hlater⟩ := recent_split before (.style text) hafter
  obtain ⟨added, hadded⟩ := firsts_split (recent before) (.style text) later
  rw [hlater] at hapart ⊢
  rw [hadded]
  have hmem : (Registration.style text).content ∈
      (keepFirst (firsts (recent before)) (.style text)).map Registration.content := mem_keepFirst
  constructor
  · rw [run_eq_holding (hapart.mono fun r hr => List.mem_append_left _ hr),
      addStyle_holding hapart.keep, slot_append hmem]
  · rw [List.map_append]
    exact List.mem_append_left _ hmem

theorem entries_apply (hash : String → String) (r : Registry) (reg : Registration) :
    ∃ added, (apply hash r (.register reg)).entries = r.entries ++ added := by
  have hpush (key : StyleKey) (className : Option String) (nodes : List Node) :
      ∃ added, (r.findOrPush key className nodes).2.entries = r.entries ++ added := by
    rw [findOrPush]
    split
    · exact ⟨[], (List.append_nil _).symm⟩
    · exact ⟨_, rfl⟩
  cases reg with
  | style text => exact hpush _ _ _
  | block css => exact hpush _ _ _

theorem find?_run (hash : String → String) (classPrefix : String) (before : List Call)
    (text : String) {after : List Call} (hafter : Call.clear ∉ after) :
    ((run hash classPrefix (before ++ .register (.style text) :: after)).find?
        (styleKey hash (parseDeclarations text))).map
          (fun e => (⟨e.id, e.className.getD ""⟩ : IssuedClass)) =
      some ((run hash classPrefix before).addStyle hash text).1 := by
  induction after using List.reverseRecOn with
  | nil =>
    rw [run_snoc]
    exact find?_addStyle hash _ text
  | append_singleton after call ih =>
    rw [List.mem_append, not_or, List.mem_singleton] at hafter
    have hanswer := ih hafter.1
    obtain ⟨e, he, -⟩ := Option.map_eq_some_iff.mp hanswer
    rw [← List.cons_append, ← List.append_assoc, run_snoc]
    cases call with
    | clear => exact absurd rfl hafter.2
    | register last =>
      obtain ⟨added, hadded⟩ := entries_apply hash (run hash classPrefix _) last
      rw [find?] at he hanswer ⊢
      rw [hadded, List.find?_append, he, Option.some_or, ← he, hanswer]

theorem addStyle_eq_of_keys {before₁ after₁ before₂ after₂ : List Call} {s t : String}
    (hs : calls = before₁ ++ .register (.style s) :: after₁) (hs' : Call.clear ∉ after₁)
    (ht : calls = before₂ ++ .register (.style t) :: after₂) (ht' : Call.clear ∉ after₂)
    (hkeys : (parseDeclarations s).map Declaration.key =
      (parseDeclarations t).map Declaration.key) :
    ((run hash classPrefix before₁).addStyle hash s).1 =
      ((run hash classPrefix before₂).addStyle hash t).1 := by
  have hfound := find?_run hash classPrefix before₁ s hs'
  have hfound' := find?_run hash classPrefix before₂ t ht'
  rw [← hs, styleKey, bodyText_congr hkeys] at hfound
  rw [← ht, styleKey, hfound] at hfound'
  exact Option.some.inj hfound'

/-- what is kept at the place of a body is the first body with its keys -/
theorem exists_first {text : String} (h : (Registration.style text).content ∈
    kept.map Registration.content) :
    ∃ first, kept[slot kept (.style text)]? = some (.style first) ∧
      (parseDeclarations first).map Declaration.key =
        (parseDeclarations text).map Declaration.key := by
  have hlt := slot_lt_iff.mpr h
  have hcontent := content_slot hlt
  rw [List.getElem?_eq_getElem hlt]
  cases hfirst : kept[slot kept (.style text)] with
  | block css =>
    rw [hfirst] at hcontent
    exact absurd hcontent Content.noConfusion
  | style first =>
    rw [hfirst] at hcontent
    exact ⟨first, rfl, Content.style.inj hcontent⟩

theorem issued_inj {i j : Nat} : issued classPrefix i = issued classPrefix j ↔ i = j :=
  ⟨congrArg IssuedClass.id, congrArg _⟩

theorem addStyle_eq_iff {before₁ after₁ before₂ after₂ : List Call} {s t : String}
    (hapart : Apart hash (recent calls))
    (hs : calls = before₁ ++ .register (.style s) :: after₁) (hs' : Call.clear ∉ after₁)
    (ht : calls = before₂ ++ .register (.style t) :: after₂) (ht' : Call.clear ∉ after₂) :
    ((run hash classPrefix before₁).addStyle hash s).1 =
        ((run hash classPrefix before₂).addStyle hash t).1 ↔
      (parseDeclarations s).map Declaration.key = (parseDeclarations t).map Declaration.key := by
  obtain ⟨hs₁, hs₂⟩ := addStyle_run classPrefix (hs ▸ hapart) hs'
  obtain ⟨ht₁, ht₂⟩ := addStyle_run classPrefix (ht ▸ hapart) ht'
  rw [← hs] at hs₁ hs₂
  rw [← ht] at ht₁ ht₂
  rw [hs₁, ht₁, issued_inj, slot_eq_iff hs₂ ht₂, Registration.content, Registration.content,
    Content.style.injEq]

/-! ## reading the registry -/

theorem className_inj {m n : Nat} :
    classPrefix ++ toString m = classPrefix ++ toString n ↔ m = n := by
  rw [← Text.toString_inj, ← String.toList_inj, String.toList_append, String.toList_append,
    List.append_cancel_left_eq, String.toList_inj]

theorem ids_holding :
    (holding hash classPrefix kept).entries.map (·.id) = List.range kept.length := by
  refine List.ext_getElem (by simp [entries_holding]) fun i _ _ => ?_
  simp [entries_holding, Registration.entry]

theorem classOf?_holding (id : Nat) :
    (holding hash classPrefix kept).classOf? id =
      (kept[id]?).bind (·.className? classPrefix id) := by
  rw [classOf?, entries_holding]
  by_cases hid : id < kept.length
  · have hfind : (kept.mapIdx (Registration.entry hash classPrefix)).find? (·.id = id) =
        some (kept[id].entry hash classPrefix id) :=
      find?_mapIdx hid (decide_eq_true rfl) fun j _ hj => decide_eq_false (Nat.ne_of_lt hj)
    rw [hfind, List.getElem?_eq_getElem hid]
    rfl
  · have hfind : (kept.mapIdx (Registration.entry hash classPrefix)).find? (·.id = id) = none := by
      rw [List.find?_eq_none]
      intro e he
      obtain ⟨i, hi, rfl⟩ := List.mem_mapIdx.mp he
      have hne : i ≠ id := fun h => hid (h ▸ hi)
      exact fun h => hne (of_decide_eq_true h)
    rw [hfind, List.getElem?_eq_none (Nat.le_of_not_lt hid)]
    rfl

/-- no two ids make the same class -/
theorem find?_className {id : Nat} {text : String} (h : kept[id]? = some (.style text)) :
    (holding hash classPrefix kept).entries.find?
        (·.className = some (classPrefix ++ toString id)) =
      some ((Registration.style text).entry hash classPrefix id) := by
  obtain ⟨hid, hreg⟩ := List.getElem?_eq_some_iff.mp h
  rw [entries_holding, ← hreg]
  refine find?_mapIdx hid ?_ fun j hlt hj => decide_eq_false fun hclass => ?_
  · rw [hreg]
    exact decide_eq_true rfl
  · cases hreg' : kept[j] with
    | block css =>
      rw [hreg'] at hclass
      exact absurd hclass (Option.some_ne_none _).symm
    | style t =>
      rw [hreg'] at hclass
      exact Nat.ne_of_lt hj (className_inj.mp (Option.some.inj hclass))

theorem bodyOf?_holding {className body : String} :
    (holding hash classPrefix kept).bodyOf? className = some body ↔
      ∃ (id : Nat) (text : String), kept[id]? = some (.style text) ∧
        className = classPrefix ++ toString id ∧ body = bodyText (parseDeclarations text) := by
  rw [bodyOf?, Option.map_eq_some_iff]
  constructor
  · rintro ⟨e, he, rfl⟩
    have htest := List.find?_some he
    obtain ⟨i, hi, rfl⟩ := List.mem_mapIdx.mp (List.mem_of_find?_eq_some he)
    have hclass : kept[i].className? classPrefix i = some className := of_decide_eq_true htest
    refine ⟨i, ?_⟩
    rw [List.getElem?_eq_getElem hi]
    cases hreg : kept[i] with
    | block css =>
      rw [hreg] at hclass
      exact absurd hclass (Option.some_ne_none _).symm
    | style text =>
      rw [hreg] at hclass
      exact ⟨text, rfl, (Option.some.inj hclass).symm, rfl⟩
  · rintro ⟨id, text, hget, rfl, rfl⟩
    exact ⟨_, find?_className hget, rfl⟩

theorem nodes_holding :
    (holding hash classPrefix kept).nodes =
      (kept.mapIdx fun id reg => reg.nodes classPrefix id).flatten := by
  have hnodes : (kept.mapIdx (Registration.entry hash classPrefix)).map (·.nodes) =
      kept.mapIdx fun id reg => reg.nodes classPrefix id :=
    List.ext_getElem (by simp) fun i _ _ => by simp [Registration.entry]
  rw [Registry.nodes, entries_holding, List.flatMap_def, hnodes]

end

/-! ## all of it -/

/-- what a registry is like behind a run: its entries are the first registrations of each content
since it was cleared last, numbered in order -/
structure Numbered (hash : String → String) (classPrefix : String) (calls : List Call) :
    Prop where
  entries : (run hash classPrefix calls).entries =
    (firsts (recent calls)).mapIdx (Registration.entry hash classPrefix)
  ids : (run hash classPrefix calls).entries.map (·.id) =
    List.range (run hash classPrefix calls).entries.length
  handles : ∀ before₁ s after₁ before₂ t after₂,
    calls = before₁ ++ .register (.style s) :: after₁ → Call.clear ∉ after₁ →
    calls = before₂ ++ .register (.style t) :: after₂ → Call.clear ∉ after₂ →
    (((run hash classPrefix before₁).addStyle hash s).1 =
        ((run hash classPrefix before₂).addStyle hash t).1 ↔
      (parseDeclarations s).map Declaration.key = (parseDeclarations t).map Declaration.key)
  answers : ∀ before t after,
    calls = before ++ .register (.style t) :: after → Call.clear ∉ after →
    ∃ (id : Nat) (first : String), (firsts (recent calls))[id]? = some (.style first) ∧
      (parseDeclarations first).map Declaration.key =
        (parseDeclarations t).map Declaration.key ∧
      ((run hash classPrefix before).addStyle hash t).1 = ⟨id, classPrefix ++ toString id⟩
  classOf : ∀ id : Nat, (run hash classPrefix calls).classOf? id =
    ((firsts (recent calls))[id]?).bind (·.className? classPrefix id)
  bodyOf : ∀ className body, (run hash classPrefix calls).bodyOf? className = some body ↔
    ∃ (id : Nat) (text : String), (firsts (recent calls))[id]? = some (.style text) ∧
      className = classPrefix ++ toString id ∧
      body = ";".intercalate ((parseDeclarations text).map (·.key.text))
  nodes : (run hash classPrefix calls).nodes =
    ((firsts (recent calls)).mapIdx fun id reg => reg.nodes classPrefix id).flatten

theorem numbered_run {hash : String → String} {calls : List Call}
    (hapart : Apart hash (recent calls)) (classPrefix : String) :
    Numbered hash classPrefix calls := by
  have hrun : run hash classPrefix calls = _ := run_eq_holding hapart
  constructor
  case entries => rw [hrun, entries_holding]
  case ids => rw [hrun, ids_holding, entries_holding, List.length_mapIdx]
  case handles =>
    intro before₁ s after₁ before₂ t after₂ hs hs' ht ht'
    exact addStyle_eq_iff hapart hs hs' ht ht'
  case answers =>
    intro before t after ht ht'
    obtain ⟨hanswer, hmem⟩ := addStyle_run classPrefix (ht ▸ hapart) ht'
    rw [← ht] at hanswer hmem
    obtain ⟨first, hfirst, hkeys⟩ := exists_first hmem
    exact ⟨_, first, hfirst, hkeys, hanswer⟩
  case classOf =>
    intro id
    rw [hrun, classOf?_holding]
  case bodyOf =>
    intro className body
    rw [hrun, bodyOf?_holding]
    rfl
  case nodes => rw [hrun, nodes_holding]

/-- a run that clears the registry and then spells a body in two ways -/
def spelledTwice : List Call :=
  [.register (.style "margin:0"), .clear, .register (.style "color:red"),
    .register (.block "html\x7bcolor:red\x7d"), .register (.style " color : red; ")]

theorem numbered_spelledTwice :
    Apart Digest.hexDigest (recent spelledTwice) ∧
      Numbered Digest.hexDigest "zx-" spelledTwice := by
  have hapart : Apart Digest.hexDigest (recent spelledTwice) := by decide +kernel
  exact ⟨hapart, numbered_run hapart "zx-"⟩

end CssOptimizer.Registry
