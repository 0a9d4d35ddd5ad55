import CssOptimizer.Proofs.Sheet.Reading

/-!
# What reading guarantees

Whatever text is read, the parts of its nodes are trimmed, close what they open and hold no
delimiter at which they would be cut again (`read_parse`), and no loose declaration stands at the
top (`noneLoose_parse`).
-/

namespace CssOptimizer
open Scan Text

theorem Declaration.of_read? {stop : Char → Bool} (hv : Visible stop) {text : List Char}
    (h : Plain stop text) {d : Declaration} (hd : read? text = some d) :
    d.Tidy ∧ Plain stop d.chars := by
  obtain ⟨ht, hw⟩ := writtenAs_of_read? hd
  exact ⟨ht, (hw.alike.plain_iff hv).mp h⟩

/-- the declarations of a closed body -/
theorem Declaration.of_mem_readAll {body : List Char} (h : Closed body) {d : Declaration}
    (hd : d ∈ readAll body) : d.Tidy ∧ Plain (· == ';') d.chars := by
  obtain ⟨seg, hseg, hr⟩ := List.mem_filterMap.mp hd
  exact of_read? (visible_beq rfl) (plain_of_mem_split h hseg) hr

theorem read_readStatement {loose : Bool} {text : List Char}
    (h : loose = true → Plain Piece.isEnd text) : MeetsAll .read (readStatement loose text) := by
  cases loose with
  | false => trivial
  | true =>
    rw [readStatement, if_pos rfl]
    cases hd : Declaration.read? text with
    | none => trivial
    | some d => exact ⟨Declaration.of_read? visible_isEnd (h rfl) hd, trivial⟩

theorem read_readBlock {header body : List Char} (hh : Plain Piece.isEnd header)
    (hb : Balanced body) (hi : MeetsAll .read (readBlocks true body)) :
    MeetsAll .read (readBlock header body) := by
  rw [readBlock_balanced hb]
  split
  · trivial
  · rename_i selector hr
    obtain ⟨ht, a, b, ⟨ha, hb'⟩, rfl⟩ := Header.of_read?_style hr
    have hs := ((alike_between ha hb' selector).plain_iff visible_isEnd).mp hh
    rw [← String.toList_ofList (l := selector)] at hs
    exact ⟨⟨⟨ht, hs⟩, fun d hd => Declaration.of_mem_readAll hb.closed hd⟩, trivial⟩
  · rename_i name params hr
    obtain ⟨ht, hw⟩ := Header.of_read?_atRule hr
    exact ⟨⟨⟨ht, (hw.alike.plain_iff visible_isEnd).mp hh⟩, hi⟩, trivial⟩

/-- the nodes of a text; loose declarations count in balanced texts only -/
theorem read_readBlocks (loose : Bool) (cs : List Char) :
    (loose = true → Balanced cs) → MeetsAll .read (readBlocks loose cs) := by
  refine readInduction (P := fun loose cs nodes => (loose = true → Balanced cs) →
    MeetsAll .read nodes) ?_ ?_ ?_ loose cs
  · intro loose cs h hb
    exact read_readStatement fun hl => plain_of_next_last h (hb hl)
  · intro loose cs text rest h ih hb
    obtain ⟨ht, d, hd, hcs⟩ := next_statement_spec h
    refine meetsAll_append.mpr ⟨read_readStatement fun _ => ht, ih fun hl => ?_⟩
    exact balanced_behind_statement ht hd (hcs ▸ hb hl)
  · intro loose cs header body rest h ihb ih hb
    obtain ⟨hh, hbody, hcs⟩ := next_block_spec h
    refine meetsAll_append.mpr ⟨read_readBlock hh hbody (ihb fun _ => hbody), ih fun hl => ?_⟩
    exact balanced_behind_block hh hbody (hcs ▸ hb hl)

theorem read_parse (css : String) : MeetsAll .read (parse css) :=
  read_readBlocks false _ fun h => absurd h Bool.false_ne_true

theorem isDeclaration_readBlock {header body : List Char} {node : Node}
    (h : node ∈ readBlock header body) : node.isDeclaration = false := by
  unfold readBlock at h
  split at h
  · simp at h
  · rw [List.mem_singleton.mp h]
    rfl
  · rw [List.mem_singleton.mp h]
    rfl

theorem noneLoose_parse (css : String) : NoneLoose (parse css) := by
  refine readInduction (P := fun loose _ nodes => loose = false → NoneLoose nodes) ?_ ?_ ?_ false _
    rfl
  · intro loose cs _ hl
    rw [hl]
    exact fun node hn => absurd hn List.not_mem_nil
  · intro loose cs text rest _ ih hl
    have he : readStatement loose text = [] := by
      rw [hl]
      rfl
    rw [he]
    exact ih hl
  · intro loose cs header body rest _ _ ih hl node hn
    rcases List.mem_append.mp hn with hn | hn
    · exact isDeclaration_readBlock hn
    · exact ih hl node hn

end CssOptimizer
