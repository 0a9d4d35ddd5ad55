import Mathlib.Data.String.Basic
import CssOptimizer.Proofs.Sheet.Printed

/-!
# The size of minified texts

Sizes are counted in bytes of UTF-8.  Each byte of a minified text is paid for by the text that it
was read from: a semicolon between two declarations by the one behind the first of them, the blank
before the parameters of an at-rule by a blank behind its name, braces and colons by themselves.

* `utf8Len_strip_le`         dropping comments makes no text longer;
* `utf8Len_readAll_le`       the declarations of a text, printed with semicolons between them, are
                             no longer than the text;
* `utf8Len_readBlocks_le`    nor are the nodes of a text.
-/

namespace CssOptimizer
open Scan Text String

/-! ## comments -/

/-- what is let through and what waits behind a step was read or has waited before it -/
theorem utf8Len_output_le (m : Comment.Mode) (c : Char) :
    utf8Len (Comment.output m c) + utf8Len (Comment.final (Comment.step m c)) ≤
      utf8Len (Comment.final m) + c.utf8Size := by
  have hcode : utf8Len (Comment.final (Comment.fromCode c)) = if c = '/' then 1 else 0 := by
    unfold Comment.fromCode
    split
    · rfl
    · split <;> rfl
  have hslash : utf8Len (Comment.final .slash) = 1 := rfl
  have hone : ('/' : Char).utf8Size = 1 := rfl
  cases m with
  | code =>
    rw [Comment.output, Comment.step, hcode]
    split
    · rename_i hc
      subst hc
      exact Nat.le_refl 1
    · simp
  | slash =>
    rw [Comment.output, Comment.step]
    by_cases hs : c = '*'
    · subst hs
      exact Nat.zero_le 2
    · rw [if_neg hs, if_neg hs, hcode, hslash]
      split
      · rename_i hc
        subst hc
        exact Nat.le_refl 2
      · simp only [utf8Len_cons, utf8Len_nil, hone]
        omega
  | quoted q =>
    rw [Comment.output, Comment.step]
    split
    · simp [Comment.final]
    · split <;> simp [Comment.final]
  | escaped q => simp [Comment.output, Comment.step, Comment.final]
  | comment =>
    rw [Comment.output, Comment.step]
    split <;> exact Nat.zero_le _
  | star =>
    rw [Comment.output, Comment.step]
    split
    · exact Nat.zero_le _
    · split <;> exact Nat.zero_le _

theorem utf8Len_stripFrom_le (m : Comment.Mode) (cs : List Char) :
    utf8Len (Comment.stripFrom m cs) ≤ utf8Len (Comment.final m) + utf8Len cs := by
  induction cs generalizing m with
  | nil => exact Nat.le_refl _
  | cons c cs ih =>
    have hout := utf8Len_output_le m c
    have hrest := ih (Comment.step m c)
    rw [stripFrom_cons, utf8Len_append, utf8Len_cons]
    omega

theorem utf8Len_strip_le (cs : List Char) : utf8Len (Comment.strip cs) ≤ utf8Len cs := by
  have h := utf8Len_stripFrom_le .code cs
  rwa [show utf8Len (Comment.final .code) = 0 from rfl, Nat.zero_add] at h

/-! ## texts of declarations and headers -/

theorem utf8Len_pos {cs : List Char} (h : cs ≠ []) : 0 < utf8Len cs :=
  Nat.pos_of_ne_zero (mt utf8Len_eq_zero.mp h)

theorem Declaration.spell_minified (d : Declaration) : d.spell true = d.chars := rfl

theorem Declaration.WrittenAs.utf8Len_le {d : Declaration} {text : List Char}
    (h : d.WrittenAs text) : utf8Len d.chars ≤ utf8Len text := by
  obtain ⟨a, y, x, b, -, rfl⟩ := h
  simp only [Declaration.chars, utf8Len_append, utf8Len_cons]
  omega

theorem Declaration.utf8Len_read?_le {text : List Char} {d : Declaration}
    (h : read? text = some d) : utf8Len d.chars ≤ utf8Len text :=
  (writtenAs_of_read? h).2.utf8Len_le

/-- the blank before the parameters was there, unless they open with a parenthesis -/
theorem utf8Len_spellParams_le {x params : List Char}
    (h : x = [] → params = [] ∨ params.head? = some '(') :
    utf8Len (spellParams true params) ≤ utf8Len x + utf8Len params := by
  cases params with
  | nil => exact Nat.zero_le _
  | cons c cs =>
    rw [spellParams, Bool.true_and]
    split
    · exact Nat.le_add_left _ _
    · rename_i hc
      have hx : x ≠ [] := by
        intro hnil
        rcases h hnil with hp | hp
        · exact List.cons_ne_nil _ _ hp
        · rw [List.head?_cons, Option.some.injEq] at hp
          exact hc (beq_iff_eq.mpr hp)
      have hpos := utf8Len_pos hx
      have hblank : (' ' : Char).utf8Size = 1 := rfl
      simp only [utf8Len_cons, hblank]
      omega

theorem Header.WrittenAs.utf8Len_le {name params : String} {text : List Char}
    (h : Header.WrittenAs name params text) :
    utf8Len (spellHeader true name params) ≤ utf8Len text := by
  obtain ⟨a, x, b, -, htight, rfl⟩ := h
  have hparams := utf8Len_spellParams_le htight
  simp only [spellHeader, utf8Len_append, utf8Len_cons] at hparams ⊢
  omega

/-! ## minified nodes -/

section
variable (depth : Nat)

theorem utf8Len_ending_le (last : Bool) : utf8Len (ending true last) ≤ 1 := by
  cases last
  · exact Nat.le_refl 1
  · exact Nat.zero_le 1

theorem utf8Len_spellBlock (header inner : List Char) :
    utf8Len (spellBlock true depth header inner) = utf8Len header + utf8Len inner + 2 := by
  have hopen : ('{' : Char).utf8Size = 1 := rfl
  have hclose : ('}' : Char).utf8Size = 1 := rfl
  simp only [spellBlock, padding, gap, lineEnd, if_true, utf8Len_append, utf8Len_cons, utf8Len_nil,
    hopen, hclose]
  omega

theorem utf8Len_spellBody_cons (d : Declaration) (ds : List Declaration) :
    utf8Len (spellBody true depth (d :: ds)) =
      utf8Len d.chars + utf8Len (ending true ds.isEmpty) + utf8Len (spellBody true depth ds) := by
  rw [spellBody, utf8Len_append, utf8Len_append, d.spell_minified]
  rfl

/-- one more declaration costs a semicolon at most, and none if it is the last one -/
theorem utf8Len_spellBody_single (d : Declaration) :
    utf8Len (spellBody true depth [d]) = utf8Len d.chars := by
  rw [utf8Len_spellBody_cons]
  rfl

theorem spellAll_declarations (minify : Bool) (ds : List Declaration) :
    spellAll minify depth (ds.map .declaration) = spellBody minify depth ds := by
  induction ds with
  | nil => rfl
  | cons d ds ih =>
    rw [List.map_cons, spellAll_declaration, ih, List.isEmpty_map]
    rfl

/-! ## what is read -/

theorem utf8Len_readAll_le (text : List Char) :
    utf8Len (spellBody true depth (Declaration.readAll text)) ≤ utf8Len text := by
  have hsingle {seg : List Char} {d : Declaration} (h : Declaration.read? seg = some d) :
      utf8Len (spellBody true depth [d]) ≤ utf8Len seg := by
    rw [utf8Len_spellBody_single]
    exact Declaration.utf8Len_read?_le h
  refine Declaration.bodyInduction (P := fun text ds =>
    utf8Len (spellBody true depth ds) ≤ utf8Len text) ?_ ?_ text
  · intro seg _
    cases h : Declaration.read? seg with
    | none => exact Nat.zero_le _
    | some d => exact hsingle h
  · intro seg rest _ ih
    have hsemi : (';' : Char).utf8Size = 1 := rfl
    rw [utf8Len_append, utf8Len_cons, hsemi]
    cases h : Declaration.read? seg with
    | none =>
      rw [Option.toList_none, List.nil_append]
      omega
    | some d =>
      have hd := Declaration.utf8Len_read?_le h
      have hend := utf8Len_ending_le (Declaration.readAll rest).isEmpty
      rw [Option.toList_some, List.singleton_append, utf8Len_spellBody_cons]
      omega

theorem utf8Len_readStatement_le (loose : Bool) (text : List Char) :
    utf8Len (spellAll true depth (readStatement loose text)) ≤ utf8Len text := by
  cases loose with
  | false => exact Nat.zero_le _
  | true =>
    rw [readStatement, if_pos rfl, spellAll_declarations]
    cases h : Declaration.read? text with
    | none => exact Nat.zero_le _
    | some d =>
      rw [Option.toList_some, utf8Len_spellBody_single]
      exact Declaration.utf8Len_read?_le h

/-- a statement in front of other nodes costs a semicolon more -/
theorem utf8Len_readStatement_append_le (loose : Bool) (text : List Char) (nodes : List Node) :
    utf8Len (spellAll true depth (readStatement loose text ++ nodes)) ≤
      utf8Len text + 1 + utf8Len (spellAll true depth nodes) := by
  have hone := utf8Len_readStatement_le depth loose text
  cases hs : readStatement loose text with
  | nil =>
    rw [List.nil_append]
    omega
  | cons node more =>
    have hsingle : ∃ d, node = .declaration d ∧ more = [] := by
      cases loose with
      | false => exact absurd hs (by simp [readStatement])
      | true =>
        rw [readStatement, if_pos rfl] at hs
        cases hr : Declaration.read? text with
        | none => simp [hr] at hs
        | some d =>
          rw [hr, Option.toList_some, List.map_singleton, List.cons.injEq] at hs
          exact ⟨d, hs.1.symm, hs.2.symm⟩
    obtain ⟨d, rfl, rfl⟩ := hsingle
    have hend := utf8Len_ending_le nodes.isEmpty
    rw [hs, spellAll_declaration, utf8Len_append, utf8Len_append] at hone
    rw [List.singleton_append, spellAll_declaration, utf8Len_append, utf8Len_append]
    omega

theorem utf8Len_readInner_le {body : List Char}
    (h : utf8Len (spellAll true depth (readBlocks true body)) ≤ utf8Len body) :
    utf8Len (spellAll true depth (readInner body)) ≤ utf8Len body := by
  unfold readInner
  split
  · exact h
  · rw [spellAll_declarations]
    exact utf8Len_readAll_le depth body

/-- a block in front of other nodes costs its header, its body and its braces -/
theorem utf8Len_readBlock_append_le (header : List Char) {body : List Char}
    (h : utf8Len (spellAll true (depth + 1) (readBlocks true body)) ≤ utf8Len body)
    (nodes : List Node) :
    utf8Len (spellAll true depth (readBlock header body ++ nodes)) ≤
      utf8Len header + utf8Len body + 2 + utf8Len (spellAll true depth nodes) := by
  unfold readBlock
  split
  · rw [List.nil_append]
    omega
  · rename_i selector hr
    obtain ⟨-, a, b, -, rfl⟩ := Header.of_read?_style hr
    have hbody := utf8Len_readAll_le (depth + 1) body
    rw [List.singleton_append, spellAll_rule, utf8Len_append, utf8Len_spellBlock,
      String.toList_ofList, utf8Len_append, utf8Len_append]
    omega
  · rename_i name params hr
    have hheader := (Header.of_read?_atRule hr).2.utf8Len_le
    have hbody := utf8Len_readInner_le (depth + 1) h
    rw [List.singleton_append, spellAll_atRule, utf8Len_append, utf8Len_spellBlock]
    omega

end

theorem utf8Len_readBlocks_le (loose : Bool) (cs : List Char) :
    ∀ depth, utf8Len (spellAll true depth (readBlocks loose cs)) ≤ utf8Len cs := by
  refine readInduction (P := fun _ cs nodes =>
    ∀ depth, utf8Len (spellAll true depth nodes) ≤ utf8Len cs) ?_ ?_ ?_ loose cs
  · exact fun loose cs _ depth => utf8Len_readStatement_le depth loose cs
  · intro loose cs text rest h ih depth
    obtain ⟨d, hcs⟩ := Piece.next_statement h
    have hrest := ih depth
    have htext := utf8Len_readStatement_append_le depth loose text (readBlocks loose rest)
    have hd := d.utf8Size_pos
    rw [hcs, utf8Len_append, utf8Len_cons]
    omega
  · intro loose cs header body rest h ihb ih depth
    have hrest := ih depth
    have hblock := utf8Len_readBlock_append_le depth header (ihb (depth + 1))
      (readBlocks loose rest)
    have hopen : ('{' : Char).utf8Size = 1 := rfl
    have hclose : ('}' : Char).utf8Size = 1 := rfl
    rw [Piece.next_block h]
    simp only [utf8Len_append, utf8Len_cons, hopen, hclose]
    omega

end CssOptimizer
