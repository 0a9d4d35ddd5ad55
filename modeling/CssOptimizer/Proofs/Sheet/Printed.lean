import CssOptimizer.Proofs.Sheet.Reading
import CssOptimizer.Proofs.Sheet.Spelling

/-!
# The structure of printed texts

* `closed_spellAll`          a printed text closes its strings and parentheses;
* `balanced_spellAll`        it closes its blocks if the bodies of its rules do;
* `opensComment_spellAll`    it opens a comment exactly if a text of its nodes does.

Each is an induction over the nodes: a line or a block in front of the text of the other nodes.
-/

namespace CssOptimizer
open Scan Text

/-! ## parts of printed texts -/

section
variable (minify : Bool) (depth : Nat)

theorem Declaration.writtenAs_spell (d : Declaration) {a b : List Char} (ha : Blank a)
    (hb : Blank b) : d.WrittenAs (a ++ d.spell minify ++ b) :=
  ⟨a, [], gap minify, b, ⟨ha, blank_nil, blank_gap minify, hb⟩, rfl⟩

theorem Header.writtenAs_spell (name params : String) {a b : List Char} (ha : Blank a)
    (hb : Blank b) : Header.WrittenAs name params (a ++ spellHeader minify name params ++ b) := by
  have hspace : Blank [' '] := blank_replicate 1
  cases hp : params.toList with
  | nil =>
    refine ⟨a, [], b, ⟨ha, blank_nil, hb⟩, fun _ => Or.inl hp, ?_⟩
    rw [spellHeader, hp]
    rfl
  | cons c cs =>
    rw [spellHeader, hp, spellParams]
    split
    · rename_i hc
      rw [Bool.and_eq_true, beq_iff_eq] at hc
      refine ⟨a, [], b, ⟨ha, blank_nil, hb⟩, fun _ => Or.inr (by rw [hp, hc.2]; rfl), ?_⟩
      rw [hp]
      rfl
    · refine ⟨a, [' '], b, ⟨ha, hspace, hb⟩, fun h => absurd h (by simp), ?_⟩
      rw [hp]
      rfl

theorem alike_line (d : Declaration) :
    Alike start (padding minify depth ++ d.spell minify) d.chars := by
  have h := d.writtenAs_spell minify (blank_padding minify depth) blank_nil
  rw [List.append_nil] at h
  exact h.alike

theorem alike_header (name params : String) :
    Alike start (padding minify depth ++ spellHeader minify name params ++ gap minify)
      (headerChars name params) :=
  (Header.writtenAs_spell minify name params (blank_padding minify depth) (blank_gap minify)).alike

/-- a block in front of other text, cut at its braces -/
theorem spellBlock_append (header inner rest : List Char) :
    spellBlock minify depth header inner ++ rest =
      (padding minify depth ++ header ++ gap minify) ++
        '{' :: ((lineEnd minify ++ inner ++ padding minify depth) ++
          '}' :: (lineEnd minify ++ rest)) := by
  simp only [spellBlock, List.append_assoc, List.cons_append]

theorem ending_cases (last : Bool) :
    ending minify last = [] ∧ last = true ∨ ending minify last = ';' :: lineEnd minify := by
  unfold ending
  split
  · rename_i h
    rw [Bool.and_eq_true] at h
    exact Or.inl ⟨rfl, h.2⟩
  · exact Or.inr rfl

theorem balanced_ending (last : Bool) : Balanced (ending minify last) := by
  rcases ending_cases minify last with ⟨h, -⟩ | h
  · rw [h]
    exact balanced_nil
  · rw [h]
    exact (balanced_singleton isBare_semicolon rfl).append (balanced_blanks (blank_lineEnd minify))

end

/-! ## closed texts -/

namespace Condition

/-- every text closes its strings and parentheses -/
def closed : Condition where
  declaration d := Closed d.chars
  rule selector body := Closed selector.toList ∧ ∀ d ∈ body, Closed d.chars
  header name params := Closed (headerChars name params)

end Condition

theorem read_closed {nodes : List Node} (h : MeetsAll .read nodes) : MeetsAll .closed nodes :=
  h.imp (fun _ hd => hd.2.closed) (fun _ _ hs => ⟨hs.1.2.closed, fun d hd => (hs.2 d hd).2.closed⟩)
    (fun _ _ hh => hh.2.closed)

section
variable {minify : Bool} {depth : Nat}

theorem closed_line {d : Declaration} (hd : Closed d.chars) (last : Bool) {rest : List Char}
    (hr : Closed rest) :
    Closed (padding minify depth ++ d.spell minify ++ ending minify last ++ rest) := by
  have hl : Closed (padding minify depth ++ d.spell minify) :=
    (alike_line minify depth d).closed.mpr hd
  exact (hl.append (balanced_ending minify last).closed).append hr

theorem closed_block {header inner rest : List Char}
    (hh : Closed (padding minify depth ++ header ++ gap minify)) (hi : Closed inner)
    (hr : Closed rest) : Closed (spellBlock minify depth header inner ++ rest) := by
  have hl : Closed (lineEnd minify) := run_start_blanks (blank_lineEnd minify)
  have hp : Closed (padding minify depth) := run_start_blanks (blank_padding minify depth)
  rw [spellBlock_append]
  refine hh.append ?_
  show start.run _ = start
  exact ((hl.append hi).append hp).append (show start.run _ = start from hl.append hr)

theorem closed_declarations {ds : List Declaration} (h : ∀ d ∈ ds, Closed d.chars) :
    Closed (spellBody minify depth ds) := by
  induction ds with
  | nil => exact closed_nil
  | cons d ds ih =>
    obtain ⟨hd, hds⟩ := List.forall_mem_cons.mp h
    exact closed_line hd _ (ih hds)

theorem closed_spellAll {nodes : List Node} (h : MeetsAll .closed nodes) :
    Closed (spellAll minify depth nodes) := by
  induction nodes using sheetInduction generalizing depth with
  | nil => exact closed_nil
  | declaration d nodes ih =>
    rw [spellAll_declaration]
    exact closed_line h.1 _ (ih h.2)
  | rule s b nodes ih =>
    rw [spellAll_rule]
    refine closed_block ?_ (closed_declarations h.1.2) (ih h.2)
    exact (alike_between (blank_padding minify depth) (blank_gap minify) _).closed.mpr h.1.1
  | atRule n p children nodes ihc ih =>
    rw [spellAll_atRule]
    exact closed_block ((alike_header minify depth n p).closed.mpr h.1.1) (ihc h.1.2) (ih h.2)

/-! ## balanced texts -/

theorem blocks_spellBody {ds : List Declaration} (h : ∀ d ∈ ds, Closed d.chars) (k : Nat) :
    blocks k start (spellBody minify depth ds) =
      blocks k start (ds.flatMap Declaration.chars) := by
  induction ds generalizing k with
  | nil => rfl
  | cons d ds ih =>
    obtain ⟨hd, hds⟩ := List.forall_mem_cons.mp h
    have hline : Closed (padding minify depth ++ d.spell minify) :=
      (alike_line minify depth d).closed.mpr hd
    have hend : ∀ j rest, blocks j start (ending minify ds.isEmpty ++ rest) =
        blocks j start rest := by
      intro j rest
      have hb : hasBare isBrace start (ending minify ds.isEmpty) = false := by
        cases minify <;> cases ds <;> rfl
      rw [blocks_append, blocks_of_hasBare hb, (balanced_ending minify ds.isEmpty).closed]
      rfl
    rw [spellBody, List.append_assoc, blocks_append, (alike_line minify depth d).nested, hline,
      List.flatMap_cons, blocks_append, hd]
    exact congrArg _ (funext fun j => (hend j _).trans (ih hds j))

theorem balanced_block {header inner rest : List Char}
    (hh : Balanced (padding minify depth ++ header ++ gap minify)) (hi : Balanced inner)
    (hr : Balanced rest) : Balanced (spellBlock minify depth header inner ++ rest) := by
  have hl : Balanced (lineEnd minify) := balanced_blanks (blank_lineEnd minify)
  have hp : Balanced (padding minify depth) := balanced_blanks (blank_padding minify depth)
  rw [spellBlock_append]
  exact hh.block ((hl.append hi).append hp) (hl.append hr)

/-- the body of a rule between blanks -/
theorem balanced_body {ds : List Declaration} (h : ∀ d ∈ ds, Closed d.chars)
    (hb : blocks 0 start (ds.flatMap Declaration.chars) = some 0) :
    Balanced (spellBody minify depth ds) :=
  ⟨closed_declarations h, (blocks_spellBody h 0).trans hb⟩

theorem Scan.Alike.balanced_of_plain {a b : List Char} (h : Alike start a b)
    (hb : Plain Piece.isEnd b) : Balanced a :=
  ((h.plain_iff visible_isEnd).mpr hb).balanced isEnd_of_isBrace

theorem balanced_spellAll {nodes : List Node} (h : MeetsAll .read nodes)
    (hb : MeetsAll .balanced nodes) : Balanced (spellAll minify depth nodes) := by
  induction nodes using sheetInduction generalizing depth with
  | nil => exact balanced_nil
  | declaration d nodes ih =>
    rw [spellAll_declaration]
    have hd := (alike_line minify depth d).balanced_of_plain h.1.2
    exact (hd.append (balanced_ending minify _)).append (ih h.2 hb.2)
  | rule s b nodes ih =>
    rw [spellAll_rule]
    have hs := (alike_between (blank_padding minify depth) (blank_gap minify)
      s.toList).balanced_of_plain h.1.1.2
    exact balanced_block hs (balanced_body (fun d hd => (h.1.2 d hd).2.closed) hb.1) (ih h.2 hb.2)
  | atRule n p children nodes ihc ih =>
    rw [spellAll_atRule]
    exact balanced_block ((alike_header minify depth n p).balanced_of_plain h.1.1.2)
      (ihc h.1.2 hb.1.2) (ih h.2 hb.2)

/-! ## comments -/

/-- a delimiter behind a closed text keeps comment marks apart -/
theorem opensComment_piece {a : List Char} (ha : Closed a) {c : Char}
    (hc : start.isBare c = true) (h₁ : c ≠ '*') (h₂ : c ≠ '/') (b : List Char) :
    opensComment start (a ++ c :: b) = (opensComment start a || opensComment start b) := by
  rw [opensComment_append_cons start a b h₁ h₂, ha, step_start_of_isBare hc]

theorem opensComment_start_blanks {ws : List Char} (h : Blank ws) (b : List Char) :
    opensComment start (ws ++ b) = opensComment start b := by
  rw [opensComment_blanks start h, run_start_blanks h]

theorem opensComment_line {d : Declaration} (hd : Closed d.chars) {last : Bool} {rest : List Char}
    (hr : last = true → rest = []) :
    opensComment start (padding minify depth ++ d.spell minify ++ ending minify last ++ rest) =
      (opensComment start d.chars || opensComment start rest) := by
  have ha := alike_line minify depth d
  rcases ending_cases minify last with ⟨he, hl⟩ | he
  · rw [he, hr hl, List.append_nil, List.append_nil, ha.opens]
    exact (Bool.or_false _).symm
  · rw [he, List.append_assoc, List.cons_append,
      opensComment_piece (ha.closed.mpr hd) isBare_semicolon (by decide) (by decide), ha.opens,
      opensComment_start_blanks (blank_lineEnd minify)]

theorem opensComment_block {header inner rest : List Char}
    (hh : Closed (padding minify depth ++ header ++ gap minify)) (hi : Closed inner) :
    opensComment start (spellBlock minify depth header inner ++ rest) =
      (opensComment start (padding minify depth ++ header ++ gap minify) ||
        (opensComment start inner || opensComment start rest)) := by
  have ha := alike_between (blank_lineEnd minify) (blank_padding minify depth) inner
  rw [spellBlock_append, opensComment_piece hh isBare_open (by decide) (by decide),
    opensComment_piece (ha.closed.mpr hi) (show start.isBare '}' = true from rfl) (by decide)
      (by decide), ha.opens, opensComment_start_blanks (blank_lineEnd minify)]

theorem opensComment_spellBody {ds : List Declaration} (h : ∀ d ∈ ds, Closed d.chars) :
    opensComment start (spellBody minify depth ds) = false ↔
      ∀ d ∈ ds, opensComment start d.chars = false := by
  induction ds with
  | nil => simp [spellBody, opensComment]
  | cons d ds ih =>
    obtain ⟨hd, hds⟩ := List.forall_mem_cons.mp h
    have hlast : ds.isEmpty = true → spellBody minify depth ds = [] := by
      intro he
      rw [List.isEmpty_iff.mp he]
      rfl
    rw [spellBody, opensComment_line hd hlast, Bool.or_eq_false_iff, ih hds, List.forall_mem_cons]

theorem opensComment_spellAll {nodes : List Node} (h : MeetsAll .closed nodes) :
    opensComment start (spellAll minify depth nodes) = false ↔ MeetsAll .quiet nodes := by
  induction nodes using sheetInduction generalizing depth with
  | nil => simp [spellAll_nil, opensComment, meetsAll_nil]
  | declaration d nodes ih =>
    have hlast : nodes.isEmpty = true → spellAll minify depth nodes = [] := by
      intro he
      rw [List.isEmpty_iff.mp he]
      rfl
    rw [spellAll_declaration, opensComment_line h.1 hlast, Bool.or_eq_false_iff, ih h.2]
    exact Iff.rfl
  | rule s b nodes ih =>
    have ha := alike_between (blank_padding minify depth) (blank_gap minify) s.toList
    rw [spellAll_rule, opensComment_block (ha.closed.mpr h.1.1) (closed_declarations h.1.2),
      Bool.or_eq_false_iff, Bool.or_eq_false_iff, ha.opens, opensComment_spellBody h.1.2, ih h.2,
      ← and_assoc]
    exact Iff.rfl
  | atRule n p children nodes ihc ih =>
    have ha := alike_header minify depth n p
    rw [spellAll_atRule, opensComment_block (ha.closed.mpr h.1.1) (closed_spellAll h.1.2),
      Bool.or_eq_false_iff, Bool.or_eq_false_iff, ha.opens, ihc h.1.2, ih h.2, ← and_assoc]
    exact Iff.rfl

end
end CssOptimizer
