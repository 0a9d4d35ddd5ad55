import CssOptimizer.Proofs.Sheet.Parsed
import CssOptimizer.Proofs.Sheet.Printed

/-!
# Reading and printing adds no character

Blanks and semicolons aside, what is printed of the nodes of a text has each character at most as
often as the text (`count_readBlocks_le`): reading only drops characters, and printing puts back
blanks and semicolons.
-/

namespace CssOptimizer
open Scan Text

/-- characters that printing only copies -/
def Copied (c : Char) : Prop := isBlank c = false ∧ c ≠ ';'

/-- the two braces of a block -/
def braces (c : Char) : Nat := ['{', '}'].count c

section
variable {minify : Bool} {depth : Nat} {c : Char}

theorem count_ending (hc : Copied c) (last : Bool) : (ending minify last).count c = 0 := by
  rcases ending_cases minify last with ⟨h, -⟩ | h
  · rw [h, List.count_nil]
  · rw [h, List.count_cons_of_ne (Ne.symm hc.2), count_of_blank (blank_lineEnd minify) hc.1]

theorem count_spellBlock (hc : Copied c) (header inner : List Char) :
    (spellBlock minify depth header inner).count c =
      header.count c + inner.count c + braces c := by
  have hp := count_of_blank (blank_padding minify depth) hc.1
  have hg := count_of_blank (blank_gap minify) hc.1
  have hl := count_of_blank (blank_lineEnd minify) hc.1
  simp only [spellBlock, braces, List.count_append, List.count_cons, List.count_nil, hp, hg, hl]
  omega

theorem count_line (hc : Copied c) (d : Declaration) :
    (padding minify depth ++ d.spell minify).count c = d.chars.count c :=
  (alike_line minify depth d).count c hc.1

theorem count_spellHeader (hc : Copied c) (name params : String) :
    (spellHeader minify name params).count c = (headerChars name params).count c := by
  have hw := Header.writtenAs_spell minify name params blank_nil blank_nil
  rw [List.nil_append, List.append_nil] at hw
  exact hw.alike.count c hc.1

theorem count_spellBody_cons (hc : Copied c) (d : Declaration) (ds : List Declaration) :
    (spellBody minify depth (d :: ds)).count c =
      d.chars.count c + (spellBody minify depth ds).count c := by
  rw [spellBody, List.count_append, List.count_append, count_line hc, count_ending hc,
    Nat.add_zero]

theorem count_spellAll_cons (hc : Copied c) (node : Node) (nodes : List Node) :
    (spellAll minify depth (node :: nodes)).count c =
      (node.spell minify depth).count c + (spellAll minify depth nodes).count c := by
  have he : (if node.isDeclaration then ending minify nodes.isEmpty else []).count c = 0 := by
    split
    · exact count_ending hc _
    · rfl
  rw [spellAll, List.count_append, List.count_append, he, Nat.add_zero]

theorem count_spellAll_append (hc : Copied c) (a b : List Node) :
    (spellAll minify depth (a ++ b)).count c =
      (spellAll minify depth a).count c + (spellAll minify depth b).count c := by
  induction a with
  | nil => rw [List.nil_append, spellAll_nil, List.count_nil, Nat.zero_add]
  | cons node a ih =>
    rw [List.cons_append, count_spellAll_cons hc, count_spellAll_cons hc, ih, Nat.add_assoc]

end

/-! ## what is read -/

section
variable (minify : Bool) (depth : Nat) {c : Char}

theorem count_of_read? (hc : Copied c) {text : List Char} {d : Declaration}
    (h : Declaration.read? text = some d) : d.chars.count c = text.count c :=
  ((Declaration.writtenAs_of_read? h).2.alike.count c hc.1).symm

theorem count_readAll_le (hc : Copied c) (text : List Char) :
    (spellBody minify depth (Declaration.readAll text)).count c ≤ text.count c := by
  have hseg (seg : List Char) :
      (spellBody minify depth (Declaration.read? seg).toList).count c ≤ seg.count c := by
    cases h : Declaration.read? seg with
    | none => exact Nat.zero_le _
    | some d =>
      rw [Option.toList_some, count_spellBody_cons hc, count_of_read? hc h]
      exact Nat.le_refl _
  refine Declaration.bodyInduction (P := fun text ds =>
    (spellBody minify depth ds).count c ≤ text.count c) (fun seg _ => hseg seg) ?_ text
  intro seg rest _ ih
  have hs := hseg seg
  rw [List.count_append, List.count_cons_of_ne (Ne.symm hc.2)]
  cases hd : Declaration.read? seg with
  | none => exact Nat.le_trans ih (Nat.le_add_left _ _)
  | some d =>
    rw [hd, Option.toList_some, count_spellBody_cons hc] at hs
    rw [Option.toList_some, List.singleton_append, count_spellBody_cons hc]
    have h₀ : (spellBody minify depth []).count c = 0 := rfl
    omega

theorem count_readStatement_le (hc : Copied c) (loose : Bool) (text : List Char) :
    (spellAll minify depth (readStatement loose text)).count c ≤ text.count c := by
  cases loose with
  | false => exact Nat.zero_le _
  | true =>
    rw [readStatement, if_pos rfl]
    cases h : Declaration.read? text with
    | none => exact Nat.zero_le _
    | some d =>
      show (spellAll minify depth [.declaration d]).count c ≤ _
      rw [count_spellAll_cons hc, Node.spell, count_line hc, count_of_read? hc h]
      exact Nat.le_refl _

theorem count_readBlock_le (hc : Copied c) (header : List Char) {body : List Char}
    (hb : Balanced body)
    (ih : ∀ depth, (spellAll minify depth (readBlocks true body)).count c ≤ body.count c) :
    (spellAll minify depth (readBlock header body)).count c ≤
      header.count c + body.count c + braces c := by
  rw [readBlock_balanced hb]
  split
  · exact Nat.zero_le _
  · rename_i selector hr
    obtain ⟨-, a, b, -, rfl⟩ := Header.of_read?_style hr
    have hbody := count_readAll_le minify (depth + 1) hc body
    rw [count_spellAll_cons hc, Node.spell, count_spellBlock hc, String.toList_ofList,
      List.count_append, List.count_append, spellAll_nil, List.count_nil]
    omega
  · rename_i name params hr
    have hh := (Header.of_read?_atRule hr).2.alike.count c hc.1
    have hbody := ih (depth + 1)
    rw [count_spellAll_cons hc, Node.spell, count_spellBlock hc, count_spellHeader hc, ← hh,
      spellAll_nil, List.count_nil]
    omega

theorem count_readBlocks_le (hc : Copied c) (loose : Bool) (cs : List Char) :
    ∀ depth, (spellAll minify depth (readBlocks loose cs)).count c ≤ cs.count c := by
  refine readInduction (P := fun _ cs nodes =>
    ∀ depth, (spellAll minify depth nodes).count c ≤ cs.count c) ?_ ?_ ?_ loose cs
  · exact fun loose cs _ depth => count_readStatement_le minify depth hc loose cs
  · intro loose cs text rest h ih depth
    obtain ⟨-, d, -, hcs⟩ := next_statement_spec h
    have ht := count_readStatement_le minify depth hc loose text
    have hr := ih depth
    rw [count_spellAll_append hc, hcs, List.count_append, List.count_cons]
    omega
  · intro loose cs header body rest h ihb ih depth
    obtain ⟨-, hbody, hcs⟩ := next_block_spec h
    have hb := count_readBlock_le minify depth hc header hbody ihb
    have hr := ih depth
    have he : cs.count c = header.count c + body.count c + braces c + rest.count c := by
      rw [hcs]
      simp only [List.count_append, List.count_cons, braces, List.count_nil]
      omega
    rw [count_spellAll_append hc, he]
    omega

end
end CssOptimizer
