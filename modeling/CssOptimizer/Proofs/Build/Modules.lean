import CssOptimizer.Build.Step
import CssOptimizer.Proofs.SourceMap
import CssOptimizer.Proofs.Usage.Unions

/-!
# Only the final modules count

* `BuildStep.seeAll`         show modules one after the other;
* `BuildStep.AgreeAtEnd`     whether every path that is scanned was shown with the same code last;
* `seeAll_eq_of_agreeAtEnd`  such calls leave the build in the same state;
* `generate_eq`              what is put out, which never fails;
* `generate_seeAll_eq`       so the bundles are the same, and other files stay as they are.

A call writes the usage of one path over an older one, or does nothing.  The union of the usages
does not depend on their order (`Usage.mergeAll_perm`).
-/

namespace CssOptimizer

/-! ## maps -/

/-- two maps with the same values are equal -/
theorem NameMap.ext_get? {α : Type} {m n : NameMap α} (h : ∀ k, m.get? k = n.get? k) : m = n := by
  have hnodup (m : NameMap α) : m.entries.Nodup := by
    refine m.sorted.imp fun hlt he => ?_
    rw [he] at hlt
    exact String.lt_irrefl _ hlt
  have hperm : m.entries.Perm n.entries := by
    refine (List.perm_ext_iff_of_nodup (hnodup m) (hnodup n)).mpr fun e => ?_
    rw [← NameMap.get?_eq_some_iff (k := e.1), h, NameMap.get?_eq_some_iff]
  have hentries : m.entries = n.entries :=
    hperm.eq_of_pairwise (fun a b _ _ hab hba => absurd (String.lt_trans hab hba)
      (String.lt_irrefl _)) m.sorted n.sorted
  cases m
  cases n
  congr

namespace BuildStep

/-! ## showing modules -/

def seeAll (x : BuildStep) (calls : List (String × String)) : BuildStep :=
  calls.foldl (fun x call => x.see call.1 call.2) x

/-- the code that a path was shown with last -/
def lastCode? (id : String) (calls : List (String × String)) : Option String :=
  calls.reverse.lookup id

/-- every path that is scanned was shown with the same code last, or was shown in neither -/
def AgreeAtEnd (calls₁ calls₂ : List (String × String)) : Prop :=
  ∀ id, (MarkupKind.ofId? id).isSome = true → lastCode? id calls₁ = lastCode? id calls₂

theorem seeAll_snoc (x : BuildStep) (calls : List (String × String)) (call : String × String) :
    x.seeAll (calls ++ [call]) = (x.seeAll calls).see call.1 call.2 := List.foldl_append

theorem lastCode?_snoc (id : String) (calls : List (String × String)) (call : String × String) :
    lastCode? id (calls ++ [call]) = if id = call.1 then some call.2 else lastCode? id calls := by
  obtain ⟨k, code⟩ := call
  rw [lastCode?, List.reverse_append, List.reverse_singleton, List.singleton_append,
    List.lookup_cons]
  by_cases h : id = k
  · rw [beq_iff_eq.mpr h, if_pos h]
  · rw [beq_eq_false_iff_ne.mpr h, if_neg h]
    rfl

theorem see_of_none {id : String} (h : MarkupKind.ofId? id = none) (x : BuildStep)
    (code : String) : x.see id code = x := by
  rw [see, h]

theorem see_of_some {id : String} {kind : MarkupKind} (h : MarkupKind.ofId? id = some kind)
    (x : BuildStep) (code : String) :
    x.see id code = { x with modules := (x.modules.insert id (kind.scan code)).2 } := by
  rw [see, h]

/-- what one call does to the usage of a path -/
theorem get?_see (x : BuildStep) (id code id' : String) :
    (x.see id code).modules.get? id' =
      ((MarkupKind.ofId? id').bind fun kind => if id' = id then some (kind.scan code) else none).or
        (x.modules.get? id') := by
  cases h : MarkupKind.ofId? id with
  | none =>
    rw [see_of_none h]
    by_cases he : id' = id
    · rw [he, h]
      rfl
    · cases MarkupKind.ofId? id' <;> simp [he]
  | some kind =>
    rw [see_of_some h]
    show (x.modules.insert id (kind.scan code)).2.get? id' = _
    rw [ModuleUsage.get?_insert]
    by_cases he : id' = id
    · rw [he, h]
      simp
    · cases MarkupKind.ofId? id' <;> simp [he, Ne.symm he]

/-- the usage of a path is that of the code it was shown with last -/
theorem get?_seeAll (x : BuildStep) (calls : List (String × String)) (id : String) :
    (x.seeAll calls).modules.get? id =
      ((MarkupKind.ofId? id).bind fun kind => (lastCode? id calls).map kind.scan).or
        (x.modules.get? id) := by
  induction calls using List.reverseRecOn with
  | nil => cases MarkupKind.ofId? id <;> rfl
  | append_singleton calls call ih =>
    rw [seeAll_snoc, get?_see, ih, lastCode?_snoc]
    cases MarkupKind.ofId? id with
    | none => rfl
    | some kind => by_cases h : id = call.1 <;> simp [h]

theorem mem_changed_see {x : BuildStep} {id code a : String} :
    a ∈ (x.see id code).modules.changed ↔
      ((MarkupKind.ofId? a).isSome = true ∧ a = id) ∨ a ∈ x.modules.changed := by
  cases h : MarkupKind.ofId? id with
  | none =>
    rw [see_of_none h]
    refine (or_iff_right ?_).symm
    rintro ⟨hsome, rfl⟩
    rw [h] at hsome
    exact Bool.false_ne_true hsome
  | some kind =>
    rw [see_of_some h]
    refine NameSet.mem_insert.trans (or_congr_left ⟨?_, And.right⟩)
    rintro rfl
    rw [h]
    exact ⟨rfl, rfl⟩

/-- the changed paths are those that were shown and are scanned -/
theorem mem_changed_seeAll {x : BuildStep} {calls : List (String × String)} {a : String} :
    a ∈ (x.seeAll calls).modules.changed ↔
      ((MarkupKind.ofId? a).isSome = true ∧ (lastCode? a calls).isSome = true) ∨
        a ∈ x.modules.changed := by
  induction calls using List.reverseRecOn with
  | nil => simp [seeAll, lastCode?]
  | append_singleton calls call ih =>
    rw [seeAll_snoc, mem_changed_see, ih, lastCode?_snoc, ← or_assoc, ← and_or_left]
    by_cases h : a = call.1 <;> simp [h]

/-- a call changes nothing but the modules -/
theorem seeAll_eq_with (x : BuildStep) (calls : List (String × String)) :
    x.seeAll calls = { x with modules := (x.seeAll calls).modules } := by
  induction calls using List.reverseRecOn with
  | nil => rfl
  | append_singleton calls call ih =>
    rw [seeAll_snoc, ih]
    cases h : MarkupKind.ofId? call.1 with
    | none => rw [see_of_none h]
    | some kind => rw [see_of_some h]

theorem seeAll_eq_of_agreeAtEnd (x : BuildStep) {calls₁ calls₂ : List (String × String)}
    (h : AgreeAtEnd calls₁ calls₂) : x.seeAll calls₁ = x.seeAll calls₂ := by
  have husages : (x.seeAll calls₁).modules.usages = (x.seeAll calls₂).modules.usages := by
    refine NameMap.ext_get? fun id => ?_
    have hget : (x.seeAll calls₁).modules.get? id = (x.seeAll calls₂).modules.get? id := by
      rw [get?_seeAll, get?_seeAll]
      cases hkind : MarkupKind.ofId? id with
      | none => rfl
      | some kind => rw [h id (hkind ▸ rfl)]
    exact hget
  have hchanged : (x.seeAll calls₁).modules.changed = (x.seeAll calls₂).modules.changed := by
    refine NameSet.ext_mem fun a => ?_
    rw [mem_changed_seeAll, mem_changed_seeAll]
    refine or_congr_left (and_congr_right fun hsome => ?_)
    rw [h a hsome]
  have hmodules : (x.seeAll calls₁).modules = (x.seeAll calls₂).modules := by
    calc (x.seeAll calls₁).modules
        = ⟨(x.seeAll calls₁).modules.usages, (x.seeAll calls₁).modules.changed⟩ := rfl
      _ = ⟨(x.seeAll calls₂).modules.usages, (x.seeAll calls₂).modules.changed⟩ := by
        rw [husages, hchanged]
  rw [seeAll_eq_with x calls₁, seeAll_eq_with x calls₂, hmodules]

/-! ## putting the stylesheet out -/

/-- the names under which a build puts files out -/
def outputNames (x : BuildStep) : List String :=
  if x.options.sourceMap then [x.fileName, mapPath x.fileName] else [x.fileName]

/-- the stylesheet as it is put out -/
def text (x : BuildStep) : String :=
  x.outcome.css ++ if x.options.sourceMap then mapTrailer x.fileName else ""

theorem generate_eq (x : BuildStep) (b : Bundle) :
    x.generate b = .ok (if x.options.sourceMap then
      (b.emit x.fileName x.text).emit (mapPath x.fileName)
        (SourceMap.generate x.options.sourceName x.fileName)
      else b.emit x.fileName x.text) := by
  have hmap : x.outcome.sourceMap = if x.options.sourceMap then
      some (SourceMap.generate x.options.sourceName x.options.sourceName) else none := rfl
  rw [generate, Outcome.files, hmap, text]
  cases x.options.sourceMap with
  | true =>
    rw [if_pos rfl, if_pos rfl, if_pos rfl, linkFiles_generate]
    rfl
  | false =>
    rw [if_neg (by decide), if_neg (by decide), if_neg (by decide), String.append_empty]
    rfl

end BuildStep

namespace Bundle

theorem filter_emit {q : String → Bool} {name : String} (h : q name = false) (b : Bundle)
    (source : String) : (b.emit name source).filter (q ·.1) = b.filter (q ·.1) := by
  rw [emit]
  induction b with
  | nil => simp [InsertionMap.amend, h]
  | cons e b ih =>
    obtain ⟨k, a⟩ := e
    rw [InsertionMap.amend]
    split
    · rename_i hk
      rw [List.filter_cons_of_neg (by simp [h]), List.filter_cons_of_neg (by simp [hk, h])]
    · rw [List.filter_cons, List.filter_cons, ih]

end Bundle

namespace BuildStep

/-- the files of a bundle that have other names -/
def others (x : BuildStep) (b : Bundle) : Bundle := b.filter fun file => file.1 ∉ x.outputNames

theorem others_emit {x : BuildStep} {name : String} (h : name ∈ x.outputNames) (b : Bundle)
    (source : String) : x.others (b.emit name source) = x.others b :=
  Bundle.filter_emit (q := fun name => name ∉ x.outputNames)
    (decide_eq_false (not_not_intro h)) b source

/-- putting out succeeds; other files stay as they are, and no name comes twice if none did -/
theorem exists_generate (x : BuildStep) (b : Bundle) :
    ∃ b', x.generate b = .ok b' ∧ x.others b' = x.others b ∧
      ((InsertionMap.keys b).Nodup → (InsertionMap.keys b').Nodup) := by
  refine ⟨_, generate_eq x b, ?_⟩
  have hname : x.fileName ∈ x.outputNames := by
    unfold outputNames
    split <;> exact List.mem_cons_self
  split
  · rename_i hmap
    have hmapname : mapPath x.fileName ∈ x.outputNames := by
      rw [outputNames, if_pos hmap]
      exact List.mem_cons_of_mem _ List.mem_cons_self
    refine ⟨?_, fun h => InsertionMap.nodup_keys_amend (InsertionMap.nodup_keys_amend h _ _) _ _⟩
    rw [others_emit hmapname, others_emit hname]
  · exact ⟨others_emit hname _ _, fun h => InsertionMap.nodup_keys_amend h _ _⟩

/-- calls that agree at the end put out the same bundle, in whatever order usages are joined -/
theorem generate_seeAll_eq (x : BuildStep) {calls₁ calls₂ : List (String × String)}
    (h : AgreeAtEnd calls₁ calls₂) (b : Bundle) :
    ∃ b', (x.seeAll calls₁).generate b = .ok b' ∧ (x.seeAll calls₂).generate b = .ok b' ∧
      x.others b' = x.others b ∧
      ((InsertionMap.keys b).Nodup → (InsertionMap.keys b').Nodup) ∧
      ∀ us vs, us.Perm (x.seeAll calls₁).modules.usages.values →
        vs.Perm (x.seeAll calls₂).modules.usages.values →
        Usage.mergeAll us = Usage.mergeAll vs := by
  have hsame := seeAll_eq_of_agreeAtEnd x h
  obtain ⟨b', hgenerate, hothers, hnodup⟩ := exists_generate (x.seeAll calls₁) b
  have hnames : (x.seeAll calls₁).others = x.others := by
    rw [seeAll_eq_with x calls₁]
    rfl
  rw [hnames] at hothers
  refine ⟨b', hgenerate, hsame ▸ hgenerate, hothers, hnodup, fun us vs hus hvs => ?_⟩
  rw [← hsame] at hvs
  exact Usage.mergeAll_perm (hus.trans hvs.symm)

/-- two modules, one of them shown twice, and a dependency -/
def watchedCalls : List (String × String) :=
  [("src/App.tsx", "<div className=\x22old\x22/>"), ("node_modules/a/b.js", "<b/>"),
    ("index.html", "<p class=\x22x\x22>"), ("src/App.tsx", "<div className=\x22c0\x22/>")]

/-- the same modules, each shown once, and in another order -/
def buildCalls : List (String × String) :=
  [("src/App.tsx", "<div className=\x22c0\x22/>"), ("index.html", "<p class=\x22x\x22>")]

/-- a stylesheet of two classes, put out without unused rules and with a source map -/
def pairStep : BuildStep where
  registry := (((({ classPrefix := "c" } : Registry).addStyle Digest.hexDigest "p:1").2).addStyle
    Digest.hexDigest "p:2").2
  options := { purge := true, minify := true, sourceMap := true }

theorem agreeAtEnd_buildCalls : AgreeAtEnd watchedCalls buildCalls := by
  intro id hid
  have hdependency : id ≠ "node_modules/a/b.js" := by
    rintro rfl
    exact absurd hid (by decide)
  by_cases happ : id = "src/App.tsx"
  · rw [happ]
    decide
  by_cases hpage : id = "index.html"
  · rw [hpage]
    decide
  simp only [lastCode?, watchedCalls, buildCalls, List.reverse_cons, List.reverse_nil,
    List.nil_append, List.cons_append, List.lookup_cons, beq_eq_false_iff_ne.mpr happ,
    beq_eq_false_iff_ne.mpr hpage, beq_eq_false_iff_ne.mpr hdependency]

theorem generate_seeAll_pairStep :
    AgreeAtEnd watchedCalls buildCalls ∧
    ∃ b', (pairStep.seeAll watchedCalls).generate [("a.js", "")] = .ok b' ∧
      (pairStep.seeAll buildCalls).generate [("a.js", "")] = .ok b' ∧
      pairStep.others b' = pairStep.others [("a.js", "")] ∧
      ((InsertionMap.keys [("a.js", "")]).Nodup → (InsertionMap.keys b').Nodup) ∧
      ∀ us vs, us.Perm (pairStep.seeAll watchedCalls).modules.usages.values →
        vs.Perm (pairStep.seeAll buildCalls).modules.usages.values →
        Usage.mergeAll us = Usage.mergeAll vs :=
  ⟨agreeAtEnd_buildCalls, generate_seeAll_eq pairStep agreeAtEnd_buildCalls [("a.js", "")]⟩

end BuildStep
end CssOptimizer
