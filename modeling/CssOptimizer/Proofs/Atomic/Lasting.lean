import CssOptimizer.Optimize
import CssOptimizer.Proofs.Atomic.Frequent
import CssOptimizer.Proofs.Selector.Classes
import CssOptimizer.Proofs.Sheet.Key
import CssOptimizer.Proofs.Sheet.Lasting

/-!
# Factored stylesheets

* `lasting_key`             the rule of a class that declares a key is read back, if the braces of
                            a declaration with this key close each other;
* `Lasting.filterBody`      such declarations can be taken out of a rule;
* `isName_drawAll`          the names of atomic classes are names, if digests are;
* `Lasting.atomicStep`      so what is left behind the atomic step is read back;
* `exists_kept`, `exists_takenOut`   where the declarations of a rule are then.
-/

namespace CssOptimizer
open Scan Text

/-! ## keys as declarations -/

namespace Declaration

theorem droppable_not_brace {g : List Char} (h : Droppable g) (s : Scan) :
    hasBare isBrace s g = false := by
  refine hasBare_of_forall (fun c hc => ?_) s
  rcases h c hc with hb | rfl
  · exact visible_isBrace c hb
  · rfl

theorem head?_droppable {g : List Char} (h : Droppable g) : g.head? ≠ some '*' := by
  intro he
  rcases h '*' (List.mem_of_mem_head? he) with hb | hc
  · exact absurd hb (by decide)
  · exact absurd hc (by decide)

section
variable {a p g x v y : List Char} (ha : Blank a) (hg : Droppable g) (hx : Blank x)
  (hy : Droppable y)
include ha hg hx hy

/-- droppable characters around the parts of a declaration neither open nor close blocks -/
theorem blocks_droppable (k : Nat) :
    blocks k start ((a ++ p ++ g) ++ ':' :: (x ++ v ++ y)) = blocks k start (p ++ ':' :: v) := by
  have hdrop {g : List Char} (hg : Droppable g) (s : Scan) (k : Nat) : blocks k s g = some k :=
    blocks_of_hasBare (droppable_not_brace hg s) k
  have hblank : Droppable x := fun c hc => Or.inl (hx c hc)
  have hcolon (s : Scan) (j : Nat) (cs : List Char) :
      blocks j s (':' :: cs) = blocks j (s.step ':') cs := by
    rw [blocks, innerBlocks_of_not_brace rfl]
    simp
  have hproperty : blocks k start (a ++ p ++ g) = blocks k start p := by
    rw [blocks_append, blocks_append, hdrop (fun c hc => Or.inl (ha c hc)), Option.bind_some,
      run_start_blanks ha, funext (hdrop hg _), Option.bind_fun_some]
  have hvalue (j : Nat) : blocks j ((start.run (a ++ p ++ g)).step ':') (x ++ v ++ y) =
      blocks j ((start.run p).step ':') v := by
    rw [blocks_append, blocks_append, hdrop hblank, Option.bind_some, run_droppable ha hg hx,
      funext (hdrop hy _), Option.bind_fun_some]
  rw [blocks_append k start (a ++ p ++ g), blocks_append k start p, hproperty]
  exact congrArg _ (funext fun j => by rw [hcolon, hcolon, hvalue])

/-- nor do they keep a comment from being opened -/
theorem opensComment_of_droppable
    (h : opensComment start ((a ++ p ++ g) ++ ':' :: (x ++ v ++ y)) = false) :
    opensComment start (p ++ ':' :: v) = false := by
  rw [opensComment_append_cons _ _ _ (by decide) (by decide), Bool.or_eq_false_iff] at h ⊢
  obtain ⟨hp, hv⟩ := h
  rw [List.append_assoc, opensComment_blanks _ ha, run_start_blanks ha,
    opensComment_append _ _ (head?_droppable hg), Bool.or_eq_false_iff] at hp
  rw [List.append_assoc x, opensComment_blanks _ hx, run_droppable ha hg hx,
    opensComment_append _ _ (head?_droppable hy), Bool.or_eq_false_iff] at hv
  exact ⟨hp.1, hv.1⟩

end

section
variable {d : Declaration}

theorem quiet_key (h : opensComment start d.chars = false) :
    opensComment start d.key.chars = false := by
  obtain ⟨a, g, ha, hg, hp⟩ := exists_normalize d.property.toList
  obtain ⟨x, y, hx, hy, hv⟩ := exists_normalize d.value.toList
  rw [Declaration.chars, hp, hv] at h
  rw [DeclarationKey.chars, key_property, key_value]
  exact opensComment_of_droppable ha hg hx hy h

theorem balanced_key (h : Balanced d.chars) : Balanced d.key.chars := by
  refine ⟨closed_key h.closed, ?_⟩
  have hnested := h.nested
  obtain ⟨a, g, ha, hg, hp⟩ := exists_normalize d.property.toList
  obtain ⟨x, y, hx, hy, hv⟩ := exists_normalize d.value.toList
  rw [Declaration.chars, hp, hv, blocks_droppable ha hg hx hy] at hnested
  rw [DeclarationKey.chars, key_property, key_value]
  exact hnested

/-- a property of semicolons only would have been cut off -/
theorem key_property_ne (h : d.Separate) : d.key.property.toList ≠ [] := by
  intro hnil
  obtain ⟨a, g, ha, hg, hp⟩ := exists_normalize d.property.toList
  rw [key_property] at hnil
  rw [hnil, List.append_nil] at hp
  cases hc : d.property.toList with
  | nil => exact h.1.property_ne hc
  | cons c cs =>
    have hblank : isBlank c = false :=
      not_isBlank_of_trimStart (hc ▸ h.1.property_trimmed.start)
    have hsemicolon : c = ';' := by
      have hm : c ∈ a ++ g := hp ▸ hc ▸ List.mem_cons_self
      rcases List.mem_append.mp hm with hm | hm
      · exact absurd (hblank.symm.trans (ha c hm)) Bool.false_ne_true
      · exact (hg c hm).resolve_left fun hb => Bool.false_ne_true (hblank.symm.trans hb)
    have hbare := h.2.noBare
    rw [Declaration.chars, hc, hsemicolon, List.cons_append, hasBare, isBare_semicolon,
      beq_self_eq_true] at hbare
    exact absurd hbare (by simp)

theorem tidy_key (h : d.Separate) : d.key.declaration.Tidy where
  property_ne := key_property_ne h
  property_trimmed := by
    show Trimmed d.key.property.toList
    rw [key_property]
    exact trim_normalize _
  property_colon := colon_key h.1
  value_trimmed := by
    show Trimmed d.key.value.toList
    rw [key_value]
    exact trim_normalize _

end
end Declaration

theorem lasting_key {s : String} {body : List Declaration} (h : Lasting [.rule s body])
    {d : Declaration} (hd : d ∈ body) (hbalanced : Balanced d.chars) {name : String}
    (hname : ∀ c ∈ name.toList, isName c = true) :
    Lasting [.rule ("." ++ name) [d.key.declaration]] where
  read := by
    refine ⟨⟨⟨tidySelector_dot hname, (selfContained_dot hname).plain⟩, ?_⟩, trivial⟩
    exact List.forall_mem_singleton.mpr
      ⟨Declaration.tidy_key (h.read.1.2 d hd), Declaration.plain_key (h.read.1.2 d hd)⟩
  noneLoose := List.forall_mem_singleton.mpr rfl
  quiet := by
    refine ⟨⟨(selfContained_dot hname).quiet, ?_⟩, trivial⟩
    exact List.forall_mem_singleton.mpr (Declaration.quiet_key (h.quiet.1.2 d hd))
  balanced := by
    refine ⟨?_, trivial⟩
    show blocks 0 start ([d.key.declaration].flatMap Declaration.chars) = some 0
    have hchars : d.key.declaration.chars = d.key.chars := rfl
    rw [List.flatMap_singleton, hchars]
    exact (Declaration.balanced_key hbalanced).nested

/-! ## rules without some declarations -/

theorem Scan.Balanced.blocks {cs : List Char} (h : Balanced cs) (k : Nat) :
    Scan.blocks k start cs = some k := by
  induction k with
  | zero => exact h.nested
  | succ k ih => exact blocks_succ ih

theorem blocks_filter {body : List Declaration} {p : Declaration → Bool}
    (hclosed : ∀ d ∈ body, Closed d.chars)
    (hout : ∀ d ∈ body, p d = false → Balanced d.chars) (k : Nat) :
    blocks k start ((body.filter p).flatMap Declaration.chars) =
      blocks k start (body.flatMap Declaration.chars) := by
  induction body generalizing k with
  | nil => rfl
  | cons d body ih =>
    obtain ⟨hd, hclosed⟩ := List.forall_mem_cons.mp hclosed
    obtain ⟨hdout, hout⟩ := List.forall_mem_cons.mp hout
    rw [List.flatMap_cons, blocks_append, hd]
    cases hp : p d with
    | true =>
      rw [List.filter_cons_of_pos hp, List.flatMap_cons, blocks_append, hd]
      exact congrArg _ (funext (ih hclosed hout))
    | false =>
      rw [List.filter_cons_of_neg (by rw [hp]; exact Bool.false_ne_true), ih hclosed hout,
        (hdout hp).blocks k]
      rfl

theorem Lasting.filterBody {s : String} {body : List Declaration} (h : Lasting [.rule s body])
    {p : Declaration → Bool} (hout : ∀ d ∈ body, p d = false → Balanced d.chars) :
    Lasting [.rule s (body.filter p)] where
  read := by
    refine ⟨⟨h.read.1.1, fun d hd => ?_⟩, trivial⟩
    exact h.read.1.2 d (List.mem_filter.mp hd).1
  noneLoose := List.forall_mem_singleton.mpr rfl
  quiet := by
    refine ⟨⟨h.quiet.1.1, fun d hd => ?_⟩, trivial⟩
    exact h.quiet.1.2 d (List.mem_filter.mp hd).1
  balanced := by
    refine ⟨?_, trivial⟩
    have hclosed : ∀ d ∈ body, Closed d.chars := fun d hd => (h.read.1.2 d hd).2.closed
    exact (blocks_filter hclosed hout 0).trans h.balanced.1

/-! ## names of atomic classes -/

theorem isName_hexDigest (text : String) :
    ∀ c ∈ (Digest.hexDigest text).toList, isName c = true := by
  have hdigit : ∀ n < 16, isName (Nat.digitChar n) = true := by decide
  intro c hc
  rw [Digest.hexDigest, String.toList_ofList, List.mem_flatMap] at hc
  obtain ⟨w, -, hc⟩ := hc
  obtain ⟨shift, -, rfl⟩ := List.mem_map.mp hc
  exact hdigit _ (Nat.mod_lt _ (by decide))

section
variable {hash : String → String}
  (hhash : ∀ text, ∀ c ∈ (hash text).toList, isName c = true)
include hhash

theorem isName_draw (naming : ClassNaming) (n : NameSupply) (key : DeclarationKey) :
    ∀ c ∈ (n.draw hash naming key).1.toList, isName c = true := by
  have hunderscore : isName '_' = true := by decide
  cases naming with
  | inSequence =>
    show ∀ c ∈ ("_" ++ toString n.next).toList, isName c = true
    rw [String.toList_append]
    refine List.forall_mem_cons.mpr ⟨hunderscore, fun c hc => ?_⟩
    exact isName_of_isDigit (isDigit_toString hc)
  | byContent =>
    intro c hc
    rw [NameSupply.draw, NameSupply.contentName, String.toList_ofList] at hc
    rcases List.mem_cons.mp hc with rfl | hc
    · exact hunderscore
    · exact hhash key.text c ((NameSupply.freePrefix_prefix _ _ _).subset hc)

theorem isName_drawAll (naming : ClassNaming) (n : NameSupply) (keys : List DeclarationKey) :
    ∀ entry ∈ NameSupply.drawAll hash naming n keys, ∀ c ∈ entry.2.toList, isName c = true := by
  induction keys generalizing n with
  | nil => exact fun entry he => absurd he List.not_mem_nil
  | cons key keys ih =>
    exact List.forall_mem_cons.mpr ⟨isName_draw hhash naming n key, ih _⟩

end

/-! ## the atomic step -/

/-- whether declarations with a key are taken out of their rules -/
def Options.TakesOut (options : Options) (nodes : List Node) (key : DeclarationKey) : Prop :=
  (options.atomic = true ∧ options.stripAtomic = true) ∧ Shared nodes key

section
variable {hash : String → String} {naming : ClassNaming} {nodes : List Node}

theorem isNone_at?_nameFrequent {key : DeclarationKey} :
    ((nameFrequent hash naming nodes).at? key).isNone = true ↔ ¬ Shared nodes key := by
  rw [at?_nameFrequent, mem_frequentKeys_iff]

theorem exists_name_iff {key : DeclarationKey} :
    (∃ name, (key, name) ∈ nameFrequent hash naming nodes) ↔ Shared nodes key := by
  have hkeys : (nameFrequent hash naming nodes).keys = frequentKeys (tally nodes) :=
    NameSupply.keys_drawAll ..
  rw [← mem_frequentKeys_iff, ← hkeys, InsertionMap.keys, List.mem_map]
  constructor
  · rintro ⟨name, hm⟩
    exact ⟨_, hm, rfl⟩
  · rintro ⟨⟨_, name⟩, hm, rfl⟩
    exact ⟨name, hm⟩

/-- what is left of a node: it stays as it is, or declarations are taken out of a rule -/
theorem withoutNamed_cases {named : InsertionMap DeclarationKey String} {node left : Node}
    (h : withoutNamed named node = some left) :
    left = node ∨ ∃ s body, node = .rule s body ∧
      left = .rule s (body.filter fun d => (named.at? d.key).isNone) := by
  cases node with
  | declaration d => exact Or.inl (Option.some.inj h).symm
  | atRule n p c => exact Or.inl (Option.some.inj h).symm
  | rule s body =>
    refine Or.inr ⟨s, body, rfl, ?_⟩
    simp only [withoutNamed] at h
    split at h
    · exact absurd h.symm (Option.some_ne_none left)
    · exact (Option.some.inj h).symm

theorem filter_withoutNamed (named : InsertionMap DeclarationKey String) (nodes : List Node) :
    (nodes.filterMap (withoutNamed named)).filter (!·.isRule) = nodes.filter (!·.isRule) := by
  induction nodes with
  | nil => rfl
  | cons node nodes ih =>
    cases node with
    | declaration d => exact congrArg (Node.declaration d :: ·) ih
    | atRule n p c => exact congrArg (Node.atRule n p c :: ·) ih
    | rule s body =>
      cases hleft : withoutNamed named (.rule s body) with
      | none =>
        rw [List.filterMap_cons_none hleft]
        exact ih
      | some left =>
        rw [List.filterMap_cons_some hleft]
        rcases withoutNamed_cases hleft with rfl | ⟨t, b, -, rfl⟩
        · exact ih
        · exact ih

/-- no rule that is left declares a key that is taken out -/
theorem not_declares_left {key : DeclarationKey} (h : Shared nodes key) (s : String) :
    ¬ Declares (nodes.filterMap (withoutNamed (nameFrequent hash naming nodes))) s key := by
  rintro ⟨kept, hm, d, hd, rfl⟩
  obtain ⟨node, -, hleft⟩ := List.mem_filterMap.mp hm
  have hnone : ((nameFrequent hash naming nodes).at? d.key).isNone = true := by
    cases node with
    | declaration e => exact absurd (Option.some.inj hleft) (by simp)
    | atRule n p c => exact absurd (Option.some.inj hleft) (by simp)
    | rule t body =>
      simp only [withoutNamed] at hleft
      split at hleft
      · exact absurd hleft.symm (Option.some_ne_none _)
      · obtain ⟨-, rfl⟩ := Node.rule.inj (Option.some.inj hleft)
        exact (List.mem_filter.mp hd).2
  exact isNone_at?_nameFrequent.mp hnone h

variable {options : Options} {o : Optimized}

theorem exists_kept (hash : String → String) {s : String} {body : List Declaration}
    (h : Node.rule s body ∈ o.nodes) {d : Declaration} (hd : d ∈ body)
    (hstay : ¬ options.TakesOut o.nodes d.key) :
    ∃ kept, Node.rule s kept ∈ (atomicStep hash options o).nodes ∧ d ∈ kept := by
  rw [atomicStep]
  split
  · rename_i ha
    cases hs : options.stripAtomic with
    | false => exact ⟨body, List.mem_append_right _ h, hd⟩
    | true =>
      have hnone : ((nameFrequent hash options.atomicNaming o.nodes).at? d.key).isNone = true :=
        isNone_at?_nameFrequent.mpr fun hshared => hstay ⟨⟨ha, hs⟩, hshared⟩
      have hkept : d ∈ body.filter fun d =>
          ((nameFrequent hash options.atomicNaming o.nodes).at? d.key).isNone :=
        List.mem_filter.mpr ⟨hd, hnone⟩
      refine ⟨_, List.mem_append_right _ (List.mem_filterMap.mpr ⟨_, h, ?_⟩), hkept⟩
      exact if_neg fun he => List.ne_nil_of_mem hkept (List.isEmpty_iff.mp he)
  · exact ⟨body, h, hd⟩

theorem exists_takenOut (hash : String → String) {key : DeclarationKey}
    (h : options.TakesOut o.nodes key) :
    ∃ atomic left, (atomicStep hash options o).nodes = atomic ++ left ∧
      (∀ rule ∈ atomic, ∃ k name, Shared o.nodes k ∧ rule = atomicRule (k, name)) ∧
      (∃ name, atomicRule (key, name) ∈ atomic) ∧ ∀ s, ¬ Declares left s key := by
  obtain ⟨⟨ha, hs⟩, hshared⟩ := h
  refine ⟨(nameFrequent hash options.atomicNaming o.nodes).map atomicRule,
    o.nodes.filterMap (withoutNamed (nameFrequent hash options.atomicNaming o.nodes)),
    ?_, ?_, ?_, not_declares_left hshared⟩
  · rw [atomicStep, if_pos ha, hs]
    rfl
  · intro rule hm
    obtain ⟨⟨k, name⟩, hentry, rfl⟩ := List.mem_map.mp hm
    exact ⟨k, name, exists_name_iff.mp ⟨name, hentry⟩, rfl⟩
  · obtain ⟨name, hm⟩ := exists_name_iff.mpr hshared
    exact ⟨name, List.mem_map_of_mem hm⟩

/-- whether the declarations that get a class close the blocks they open -/
def Options.ClosesShared (options : Options) (nodes : List Node) : Prop :=
  options.atomic = true → ∀ s body, Node.rule s body ∈ nodes → ∀ d ∈ body,
    Shared nodes d.key → Balanced d.chars

theorem Lasting.atomicStep (hhash : ∀ text, ∀ c ∈ (hash text).toList, isName c = true)
    (h : Lasting o.nodes) (hcloses : options.ClosesShared o.nodes) :
    Lasting (atomicStep hash options o).nodes := by
  have hone := lasting_iff.mp h
  rw [CssOptimizer.atomicStep]
  split
  · rename_i ha
    refine lasting_append.mpr ⟨lasting_iff.mpr fun rule hm => ?_, ?_⟩
    · obtain ⟨⟨key, name⟩, hentry, rfl⟩ := List.mem_map.mp hm
      have hshared : Shared o.nodes key := exists_name_iff.mp ⟨name, hentry⟩
      obtain ⟨s, _, _, _, ⟨body, hbody, d, hd, rfl⟩, -⟩ := id hshared
      exact lasting_key (hone _ hbody) hd (hcloses ha s body hbody d hd hshared)
        (isName_drawAll hhash _ _ _ _ hentry)
    · cases hs : options.stripAtomic with
      | false => exact h
      | true =>
        refine lasting_iff.mpr fun left hm => ?_
        obtain ⟨node, hnode, hleft⟩ := List.mem_filterMap.mp hm
        rcases withoutNamed_cases hleft with rfl | ⟨s, body, rfl, rfl⟩
        · exact hone _ hnode
        · refine (hone _ hnode).filterBody fun d hd hout => ?_
          refine hcloses ha s body hnode d hd (by_contra fun hn => ?_)
          rw [isNone_at?_nameFrequent.mpr hn] at hout
          exact Bool.false_ne_true hout.symm
  · exact h

end
end CssOptimizer
