import CssOptimizer.Proofs.Sheet.Count
import CssOptimizer.Proofs.Sheet.RoundTrip

/-!
# Which stylesheets are read back

What is printed of a parsed stylesheet is read back as this stylesheet exactly if no text of a
node opens a comment and the braces in the body of each rule close each other
(`parse_printSheet_parse_iff`).

* A text that opens a comment loses a star when it is read, so that not all nodes come back.
* A body that closes a block too many ends too early, and one that leaves a block open swallows a
  brace of the nodes behind it; either way a closing brace is missing from what is read.
-/

namespace CssOptimizer
open Scan Text

/-! ## blocks with arbitrary bodies -/

/-- the ways to read a block: it ends at its own closing brace, too early, too late, or never -/
theorem readBlocks_block_cases {header inner : List Char} (hh : Plain Piece.isEnd header)
    (hi : Closed inner) (loose : Bool) (rest : List Char) :
    Balanced inner ∨
    (∃ body more, inner = body ++ '}' :: more ∧ Balanced body ∧
      readBlocks loose (header ++ '{' :: (inner ++ '}' :: rest)) =
        readBlock header body ++ readBlocks loose (more ++ '}' :: rest)) ∨
    (∃ body more rest', rest = more ++ '}' :: rest' ∧
      readBlocks loose (header ++ '{' :: (inner ++ '}' :: rest)) =
        readBlock header body ++ readBlocks loose rest') ∨
    readBlocks loose (header ++ '{' :: (inner ++ '}' :: rest)) =
      readStatement loose (header ++ '{' :: (inner ++ '}' :: rest)) := by
  have hnext := next_header hh (inner ++ '}' :: rest)
  cases hb : blocks 0 start inner with
  | none =>
    obtain ⟨body, more, he, hc⟩ := exists_of_blocks_eq_none hb
    rw [close_append_of_close _ hc] at hnext
    exact Or.inr (Or.inl ⟨body, more, he, balanced_of_close hc, readBlocks_eq_of_block hnext⟩)
  | some k =>
    cases k with
    | zero => exact Or.inl ⟨hi, hb⟩
    | succ k =>
      have hstep : close (k + 1) start ('}' :: rest) =
          (close k start rest).map fun r => ('}' :: r.1, r.2) := rfl
      rw [close_append _ hb, hi, hstep] at hnext
      cases hc : close k start rest with
      | none =>
        rw [hc] at hnext
        exact Or.inr (Or.inr (Or.inr (readBlocks_eq_of_last hnext)))
      | some r =>
        obtain ⟨more, rest'⟩ := r
        rw [hc] at hnext
        exact Or.inr (Or.inr (Or.inl ⟨inner ++ '}' :: more, more, rest', close_eq_some hc,
          readBlocks_eq_of_block hnext⟩))

theorem isDeclaration_readStatement {loose : Bool} {text : List Char} {node : Node}
    (h : node ∈ readStatement loose text) : node.isDeclaration = true := by
  cases loose with
  | false => exact absurd h List.not_mem_nil
  | true =>
    obtain ⟨d, -, rfl⟩ := List.mem_map.mp h
    rfl

theorem copied_brace : Copied '}' := ⟨rfl, by decide⟩
theorem copied_star : Copied '*' := ⟨rfl, by decide⟩

theorem count_between {a b : List Char} (ha : Blank a) (hb : Blank b) (cs : List Char) :
    (a ++ cs ++ b).count '}' = cs.count '}' :=
  (alike_between ha hb cs).count '}' rfl

/-- if the nodes that a text spells are read from it, its first block ends where it should: the
number of closing braces leaves no other way -/
theorem exact_block {minify loose : Bool} {depth : Nat} {a b header inner : List Char} {node : Node}
    {nodes : List Node} (ha : Blank a) (hb : Blank b)
    (hspell : node.spell minify depth = spellBlock minify depth header inner)
    (hnode : node.isDeclaration = false)
    (hh : Plain Piece.isEnd ((a ++ padding minify depth) ++ header ++ gap minify))
    (hi : Closed inner)
    (hone : ∀ body, ∃ node,
      readBlock ((a ++ padding minify depth) ++ header ++ gap minify) body = [node])
    (he : readBlocks loose (a ++ (spellBlock minify depth header inner ++
      spellAll minify depth nodes) ++ b) = node :: nodes) :
    Balanced (lineEnd minify ++ inner ++ padding minify depth) ∧
      readBlock ((a ++ padding minify depth) ++ header ++ gap minify)
        (lineEnd minify ++ inner ++ padding minify depth) = [node] ∧
      readBlocks loose (lineEnd minify ++ spellAll minify depth nodes ++ b) = nodes := by
  have hpad := ha.append (blank_padding minify depth)
  have hline := blank_lineEnd minify
  have hclosed := (alike_between hline (blank_padding minify depth) inner).closed.mpr hi
  have hcount : (node.spell minify depth).count '}' =
      ((a ++ padding minify depth) ++ header ++ gap minify).count '}' +
        (lineEnd minify ++ inner ++ padding minify depth).count '}' + braces '}' := by
    rw [hspell, count_spellBlock copied_brace, count_between hpad (blank_gap minify),
      count_between hline (blank_padding minify depth)]
  have hbrace : braces '}' = 1 := rfl
  rw [spellBlock_between] at he
  rcases readBlocks_block_cases hh hclosed loose _ with h | ⟨body, more, hin, hbal, h⟩ |
    ⟨body, more, rest', hr, h⟩ | h
  · rw [readBlocks_block hh h] at he
    obtain ⟨x, hx⟩ := hone (lineEnd minify ++ inner ++ padding minify depth)
    rw [hx, List.singleton_append, List.cons.injEq] at he
    exact ⟨h, by rw [hx, he.1], he.2⟩
  · -- too early: the body lacks a closing brace
    obtain ⟨x, hx⟩ := hone body
    rw [h, hx, List.singleton_append, List.cons.injEq] at he
    have hle := count_readBlock_le minify depth copied_brace
      ((a ++ padding minify depth) ++ header ++ gap minify) hbal
      (count_readBlocks_le minify copied_brace true body)
    rw [hx, he.1, count_spellAll_cons copied_brace, hcount] at hle
    have hless : (lineEnd minify ++ inner ++ padding minify depth).count '}' =
        body.count '}' + (more.count '}' + 1) := by
      rw [hin, List.count_append, List.count_cons_self]
    omega
  · -- too late: the nodes behind the block lack one
    obtain ⟨x, hx⟩ := hone body
    rw [h, hx, List.singleton_append, List.cons.injEq] at he
    have hle := count_readBlocks_le minify copied_brace loose rest' depth
    rw [he.2, ← count_between hline hb (spellAll minify depth nodes), hr, List.count_append,
      List.count_cons_self] at hle
    omega
  · have hm := List.mem_cons_self (a := node) (l := nodes)
    rw [← he, h] at hm
    rw [isDeclaration_readStatement hm] at hnode
    exact absurd hnode.symm Bool.false_ne_true

/-! ## the condition is necessary -/

section
variable {minify : Bool}

theorem balanced_of_readBlocks {nodes : List Node} (h : MeetsAll .read nodes) {loose : Bool}
    (hl : loose = true ∨ NoneLoose nodes) {depth : Nat} {a b : List Char} (ha : Blank a)
    (hb : Blank b) (he : readBlocks loose (a ++ spellAll minify depth nodes ++ b) = nodes) :
    MeetsAll .balanced nodes := by
  have hline := blank_lineEnd minify
  induction nodes using sheetInduction generalizing loose depth a b with
  | nil => trivial
  | declaration d nodes ih =>
    rw [loose_of_declaration hl, readBlocks_declaration h.1.1 h.1.2 nodes depth ha hb,
      List.cons.injEq] at he
    exact ⟨trivial, ih h.2 (Or.inl rfl) hline hb he.2⟩
  | rule s body nodes ih =>
    have hpad := ha.append (blank_padding minify depth)
    have hs : Plain Piece.isEnd ((a ++ padding minify depth) ++ s.toList ++ gap minify) :=
      ((alike_between hpad (blank_gap minify) _).plain_iff visible_isEnd).mpr h.1.1.2
    have hclosed : ∀ d ∈ body, Closed d.chars := fun d hd => (h.1.2 d hd).2.closed
    have hinner := alike_between hline (blank_padding minify depth)
      (spellBody minify (depth + 1) body)
    rw [spellAll_rule] at he
    obtain ⟨hbal, -, hrest⟩ := exact_block ha hb (by rw [Node.spell]) rfl hs
      (closed_declarations hclosed)
      (fun body => ⟨_, readBlock_style h.1.1.1 hpad (blank_gap minify) body⟩) he
    refine ⟨?_, ih h.2 (loose_tail hl) hline hb hrest⟩
    show blocks 0 start (body.flatMap Declaration.chars) = some 0
    calc blocks 0 start (body.flatMap Declaration.chars)
        = blocks 0 start (spellBody minify (depth + 1) body) := (blocks_spellBody hclosed 0).symm
      _ = some 0 := (hinner.nested 0).symm.trans hbal.nested
  | atRule n p children nodes ihc ih =>
    have hpad := ha.append (blank_padding minify depth)
    have hw := Header.writtenAs_spell minify n p hpad (blank_gap minify)
    have hs := (hw.alike.plain_iff visible_isEnd).mpr h.1.1.2
    rw [spellAll_atRule] at he
    obtain ⟨hbal, hone, hrest⟩ := exact_block ha hb (by rw [Node.spell]) rfl hs
      (closed_spellAll (read_closed h.1.2))
      (fun body => ⟨_, readBlock_atRule h.1.1.1 hw body⟩) he
    rw [readBlock_atRule h.1.1.1 hw, readInner_balanced hbal, List.cons.injEq,
      Node.atRule.injEq] at hone
    exact ⟨⟨trivial, ihc h.1.2 (Or.inl rfl) hline (blank_padding minify depth) hone.1.2.2⟩,
      ih h.2 (loose_tail hl) hline hb hrest⟩

theorem quiet_of_parse {nodes : List Node} (h : MeetsAll .closed nodes)
    (he : parse (printSheet minify nodes) = nodes) : MeetsAll .quiet nodes := by
  have hs : opensComment start (spellAll minify 0 nodes) = false ↔ MeetsAll .quiet nodes :=
    opensComment_spellAll h
  rw [← hs, Bool.eq_false_iff]
  intro ho
  have hlt := count_strip_lt ho
  have hle := count_readBlocks_le minify copied_star false
    (Comment.strip (spellAll minify 0 nodes)) 0
  rw [parse, parseChars, toList_printSheet] at he
  rw [he] at hle
  omega

end

/-- the exact condition for a printed text to be read back as the nodes it was printed from -/
theorem parse_printSheet_iff {nodes : List Node} (h : MeetsAll .read nodes) (hl : NoneLoose nodes)
    (minify : Bool) :
    parse (printSheet minify nodes) = nodes ↔ MeetsAll .quiet nodes ∧ MeetsAll .balanced nodes := by
  constructor
  · intro he
    have hq := quiet_of_parse (read_closed h) he
    rw [parse_eq_of_quiet (read_closed h) hq] at he
    have hr : readBlocks false ([] ++ spellAll minify 0 nodes ++ []) = nodes := by
      rw [List.nil_append, List.append_nil, he]
    exact ⟨hq, balanced_of_readBlocks h (Or.inr hl) blank_nil blank_nil hr⟩
  · intro ⟨hq, hb⟩
    exact parse_printSheet_of_read h hl hq hb minify

/-- the texts whose stylesheets are read back as they were printed -/
theorem parse_printSheet_parse_iff (css : String) (minify : Bool) :
    parse (printSheet minify (parse css)) = parse css ↔
      MeetsAll .quiet (parse css) ∧ MeetsAll .balanced (parse css) :=
  parse_printSheet_iff (read_parse css) (noneLoose_parse css) minify

/-- a rule inside a rule, and a rule behind both -/
def nestedRule : String := ".a\x7b&:hover\x7bcolor:blue;\x7d\x7d.b\x7bx:y\x7d"

/-- the inner rule is cut at its semicolon and its closing brace is dropped, so that the text that
is printed leaves a block open; nothing is read of it -/
theorem parse_printSheet_nestedRule :
    parse nestedRule =
      [.rule ".a" [⟨"&", "hover\x7bcolor:blue"⟩], .rule ".b" [⟨"x", "y"⟩]] ∧
    parse (printSheet false (parse nestedRule)) = [] ∧
    parse (printSheet true (parse nestedRule)) = [] := by
  decide +kernel

end CssOptimizer
