import CssOptimizer.Duplicates
import CssOptimizer.Proofs.Sheet.Parsed

/-!
# The keys of declarations that were read

A normal form drops blanks and semicolons at the end of a text, which are quiet: a scan behind
them stands where it stood before, but for a pending backslash.  So the text of a key keeps the
structure of its declaration (`plain_key`), the semicolons between the keys of a body are the
bare ones, and bodies with the same block key have the same keys (`blockKey_eq_iff`).  A declaration
is its own key unless its property holds a semicolon (`Separate.key_eq`).
-/

namespace CssOptimizer
open Scan Text

/-! ## what a normal form drops -/

/-- blanks and semicolons -/
def Droppable (g : List Char) : Prop := ∀ c ∈ g, isBlank c = true ∨ c = ';'

theorem exists_normalize (cs : List Char) :
    ∃ a g, Blank a ∧ Droppable g ∧ cs = a ++ normalize cs ++ g := by
  obtain ⟨a, b, ha, hb, he⟩ := exists_trim cs
  obtain ⟨semi, hsemi, hs⟩ := exists_dropEndWhile_append (· == ';') (trim cs)
  obtain ⟨x, hx, hxe⟩ := exists_trimEnd (dropEndWhile (· == ';') (trim cs))
  refine ⟨a, x ++ (semi ++ b), ha, ?_, ?_⟩
  · intro c hc
    rcases List.mem_append.mp hc with hc | hc
    · exact Or.inl (hx c hc)
    · rcases List.mem_append.mp hc with hc | hc
      · exact Or.inr (eq_of_beq (hsemi c hc))
      · exact Or.inl (hb c hc)
  · have hn : normalize cs ++ x = dropEndWhile (· == ';') (trim cs) := hxe.symm
    calc cs = a ++ trim cs ++ b := he
      _ = a ++ (normalize cs ++ x ++ semi) ++ b := by rw [hn, hs]
      _ = a ++ normalize cs ++ (x ++ (semi ++ b)) := by simp only [List.append_assoc]

theorem quiet_of_droppable {g : List Char} (h : Droppable g) : Quiet g := by
  intro c hc
  rcases h c hc with hb | rfl
  · have hc : Blank [c] := blank_cons.mpr ⟨hb, blank_nil⟩
    exact quiet_of_blank hc c (List.mem_singleton_self c)
  · decide

theorem normalize_of_trimmed {cs : List Char} (ht : Trimmed cs) (hl : cs.getLast? ≠ some ';') :
    normalize cs = cs := by
  have hdrop : dropEndWhile (· == ';') cs = cs := by
    rcases List.eq_nil_or_concat cs with rfl | ⟨init, last, rfl⟩
    · rfl
    · rw [List.concat_eq_append] at hl ⊢
      rw [List.getLast?_concat, ne_eq, Option.some.injEq] at hl
      rw [dropEndWhile_append_singleton, if_neg (fun h => hl (eq_of_beq h))]
  rw [normalize, show trim cs = cs from ht, hdrop, ht.end]

/-! ## texts of keys -/

/-- a key as a list of characters -/
def DeclarationKey.chars (k : DeclarationKey) : List Char :=
  k.property.toList ++ ':' :: k.value.toList

theorem DeclarationKey.toList_text (k : DeclarationKey) : k.text.toList = k.chars := by
  simp [DeclarationKey.text, DeclarationKey.chars]

namespace Declaration

/-- a declaration as it stands in the body of a rule that was read -/
def Separate (d : Declaration) : Prop := d.Tidy ∧ Plain (· == ';') d.chars

theorem key_property (d : Declaration) : d.key.property.toList = normalize d.property.toList :=
  toList_onString ..

theorem key_value (d : Declaration) : d.key.value.toList = normalize d.value.toList :=
  toList_onString ..

theorem colon_key {d : Declaration} (h : d.Tidy) : ':' ∉ d.key.property.toList := by
  obtain ⟨a, g, -, -, he⟩ := exists_normalize d.property.toList
  rw [key_property]
  intro hm
  apply h.property_colon
  rw [he]
  exact List.mem_append_left _ (List.mem_append_right _ hm)

section
variable {a p g x v y : List Char} (ha : Blank a) (hg : Droppable g) (hx : Blank x)
include ha hg hx

theorem run_droppable :
    ((start.run (a ++ p ++ g)).step ':').run x = (start.run p).step ':' := by
  have hs : (start.run p).Sound := sound_start.run p
  have hcolon : ((start.run p).run g).step ':' = (start.run p).step ':' :=
    hs.step_run_quiet (quiet_of_droppable hg) rfl (by decide)
  rw [run_append, run_append, run_start_blanks ha, hcolon, run_blanks_colon hs hx]

/-- droppable characters around the parts of a declaration hide no semicolon between them -/
theorem noBare_of_droppable
    (h : hasBare (· == ';') start ((a ++ p ++ g) ++ ':' :: (x ++ v ++ y)) = false) :
    hasBare (· == ';') start (p ++ ':' :: v) = false := by
  have hc : ((start.run p).isBare ':' && ':' == ';') = false := Bool.and_false _
  simp only [hasBare_append, hasBare, Bool.or_eq_false_iff] at h
  obtain ⟨⟨⟨-, hp⟩, -⟩, -, ⟨-, hv⟩, -⟩ := h
  rw [run_start_blanks ha] at hp
  rw [run_droppable ha hg hx] at hv
  rw [hasBare_append, hasBare, hp, hc, hv]
  rfl

theorem closed_of_droppable (hy : Droppable y)
    (h : Closed ((a ++ p ++ g) ++ ':' :: (x ++ v ++ y))) : Closed (p ++ ':' :: v) := by
  have hs : (((start.run p).step ':').run v).Sound := ((sound_start.run p).step ':').run v
  rw [Closed, run_append, run_cons, run_append, run_append, run_droppable ha hg hx] at h
  rw [Closed, run_append, run_cons]
  exact hs.eq_start_of_run_quiet (quiet_of_droppable hy) h

end

theorem noBare_key {d : Declaration} (h : hasBare (· == ';') start d.chars = false) :
    hasBare (· == ';') start d.key.chars = false := by
  obtain ⟨a, g, ha, hg, hp⟩ := exists_normalize d.property.toList
  obtain ⟨x, y, hx, -, hv⟩ := exists_normalize d.value.toList
  rw [Declaration.chars, hp, hv] at h
  rw [DeclarationKey.chars, key_property, key_value]
  exact noBare_of_droppable ha hg hx h

theorem closed_key {d : Declaration} (h : Closed d.chars) : Closed d.key.chars := by
  obtain ⟨a, g, ha, hg, hp⟩ := exists_normalize d.property.toList
  obtain ⟨x, y, hx, hy, hv⟩ := exists_normalize d.value.toList
  rw [Declaration.chars, hp, hv] at h
  rw [DeclarationKey.chars, key_property, key_value]
  exact closed_of_droppable ha hg hx hy h

theorem plain_key {d : Declaration} (h : d.Separate) : Plain (· == ';') d.key.chars :=
  ⟨closed_key h.2.closed, noBare_key h.2.noBare⟩

theorem Separate.key_eq {d : Declaration} (h : d.Separate) (hp : ';' ∉ d.property.toList) :
    d.key = ⟨d.property, d.value⟩ := by
  have hproperty : d.key.property = d.property := by
    rw [← String.toList_inj, key_property]
    exact normalize_of_trimmed h.1.property_trimmed fun hl => hp (List.mem_of_getLast? hl)
  have hvalue : d.key.value = d.value := by
    rw [← String.toList_inj, key_value]
    refine normalize_of_trimmed h.1.value_trimmed fun hl => ?_
    have hquiet : Quiet [';'] := quiet_of_droppable fun c hc => Or.inr (List.mem_singleton.mp hc)
    apply h.2.getLast?_ne hquiet rfl
    rw [Declaration.chars, List.getLast?_append, List.getLast?_cons, hl]
    rfl
  calc d.key = ⟨d.key.property, d.key.value⟩ := rfl
    _ = ⟨d.property, d.value⟩ := by rw [hproperty, hvalue]

/-- a key is told by its text -/
theorem key_eq_of_chars {d e : Declaration} (hd : d.Tidy) (he : e.Tidy)
    (h : d.key.chars = e.key.chars) : d.key = e.key := by
  have hcut {f : Declaration} (hf : f.Tidy) :
      cutAt (· == ':') f.key.chars = some (f.key.property.toList, ':', f.key.value.toList) := by
    refine cutAt_append (fun c hc => ?_) (beq_self_eq_true ':')
    rw [beq_eq_false_iff_ne]
    exact fun hcol => colon_key hf (hcol ▸ hc)
  have hboth := hcut hd
  rw [h, hcut he, Option.some.injEq, Prod.mk.injEq, Prod.mk.injEq] at hboth
  have hp : d.key.property = e.key.property := String.toList_inj.mp hboth.1.symm
  have hv : d.key.value = e.key.value := String.toList_inj.mp hboth.2.2.symm
  calc d.key = ⟨d.key.property, d.key.value⟩ := rfl
    _ = e.key := by rw [hp, hv]

end Declaration

theorem separate_of_read {nodes : List Node} (h : MeetsAll .read nodes) {s : String}
    {b : List Declaration} (hm : Node.rule s b ∈ nodes) : ∀ d ∈ b, Declaration.Separate d :=
  (h.of_mem hm).2

/-! ## block keys -/

theorem toList_blockKey (body : List Declaration) :
    (blockKey body).toList = (body.map (·.key.chars)).flatMap (· ++ [';']) := by
  induction body with
  | nil => rfl
  | cons d body ih =>
    have hcons : blockKey (d :: body) = d.key.text ++ ";" ++ blockKey body := by
      rw [blockKey, List.map_cons, String.join_cons]
      rfl
    rw [hcons, String.toList_append, String.toList_append, DeclarationKey.toList_text, ih]
    rfl

theorem split_flatMap {texts : List (List Char)} (h : ∀ t ∈ texts, Plain (· == ';') t) :
    split ';' start (texts.flatMap (· ++ [';'])) = texts ++ [[]] := by
  induction texts with
  | nil => rfl
  | cons t texts ih =>
    obtain ⟨ht, hts⟩ := List.forall_mem_cons.mp h
    rw [List.flatMap_cons, List.append_assoc, List.singleton_append,
      split_plain ht isBare_semicolon, ih hts]
    rfl

theorem keys_eq_of_chars {a b : List Declaration} (ha : ∀ d ∈ a, d.Tidy)
    (hb : ∀ d ∈ b, d.Tidy) (h : a.map (·.key.chars) = b.map (·.key.chars)) :
    a.map Declaration.key = b.map Declaration.key := by
  induction a generalizing b with
  | nil =>
    rw [List.map_nil, eq_comm, List.map_eq_nil_iff] at h
    rw [h]
  | cons d a ih =>
    cases b with
    | nil => simp at h
    | cons e b =>
      obtain ⟨hd, ha⟩ := List.forall_mem_cons.mp ha
      obtain ⟨he, hb⟩ := List.forall_mem_cons.mp hb
      rw [List.map_cons, List.map_cons, List.cons.injEq] at h
      rw [List.map_cons, List.map_cons, Declaration.key_eq_of_chars hd he h.1, ih ha hb h.2]

theorem blockKey_congr {a b : List Declaration}
    (h : a.map Declaration.key = b.map Declaration.key) : blockKey a = blockKey b := by
  have he (body : List Declaration) :
      blockKey body = String.join ((body.map Declaration.key).map (·.text ++ ";")) := by
    rw [List.map_map]
    rfl
  rw [he, he, h]

theorem blockKey_eq_iff {a b : List Declaration} (ha : ∀ d ∈ a, d.Separate)
    (hb : ∀ d ∈ b, d.Separate) :
    blockKey a = blockKey b ↔ a.map Declaration.key = b.map Declaration.key := by
  have hplain {body : List Declaration} (h : ∀ d ∈ body, d.Separate) :
      ∀ t ∈ body.map (·.key.chars), Plain (· == ';') t := by
    intro t ht
    obtain ⟨d, hd, rfl⟩ := List.mem_map.mp ht
    exact Declaration.plain_key (h d hd)
  refine ⟨fun h => ?_, blockKey_congr⟩
  have hsplit := congrArg (split ';' start) (congrArg String.toList h)
  rw [toList_blockKey, toList_blockKey, split_flatMap (hplain ha), split_flatMap (hplain hb),
    List.append_left_inj] at hsplit
  exact keys_eq_of_chars (fun d hd => (ha d hd).1) (fun d hd => (hb d hd).1) hsplit

end CssOptimizer
