import CssOptimizer.Proofs.Sheet.Printed

/-!
# Printed stylesheets are read back

* `readAll_spellBody`      the body of a rule is read as its declarations;
* `readBlocks_spellAll`    a printed text is read as the nodes it was printed from;
* `parse_printSheet`       printing and parsing a canonical stylesheet gives it back.

The nodes are read one by one, with arbitrary blanks around the text of those that are left.
-/

namespace CssOptimizer
open Scan Text

section
variable {minify : Bool}

/-- a declaration between blanks and other text is cut at its semicolon, or is all of the text -/
theorem line_between (d : Declaration) (depth : Nat) (last : Bool) {a b rest : List Char}
    (ha : Blank a) (hb : Blank b) (hr : last = true → rest = []) :
    (∃ seg, d.WrittenAs seg ∧ last = true ∧
      a ++ (padding minify depth ++ d.spell minify ++ ending minify last ++ rest) ++ b = seg) ∨
    ∃ seg, d.WrittenAs seg ∧
      a ++ (padding minify depth ++ d.spell minify ++ ending minify last ++ rest) ++ b =
        seg ++ ';' :: (lineEnd minify ++ rest ++ b) := by
  have hpad := ha.append (blank_padding minify depth)
  rcases ending_cases minify last with ⟨he, hlast⟩ | he
  · refine Or.inl ⟨_, d.writtenAs_spell minify hpad hb, hlast, ?_⟩
    rw [he, hr hlast]
    simp only [List.append_assoc, List.append_nil]
  · refine Or.inr ⟨_, d.writtenAs_spell minify hpad blank_nil, ?_⟩
    rw [he]
    simp only [List.append_assoc, List.append_nil, List.cons_append]

theorem readAll_spellBody {ds : List Declaration}
    (h : ∀ d ∈ ds, d.Tidy ∧ Plain (· == ';') d.chars) (depth : Nat) {a b : List Char}
    (ha : Blank a) (hb : Blank b) :
    Declaration.readAll (a ++ spellBody minify depth ds ++ b) = ds := by
  have hv : Visible (· == ';') := visible_beq rfl
  induction ds generalizing a with
  | nil =>
    have hab : Blank (a ++ [] ++ b) := (ha.append blank_nil).append hb
    rw [spellBody, Declaration.readAll_last (hasBare_blanks hv start hab),
      Declaration.read?_blank hab]
    rfl
  | cons d ds ih =>
    obtain ⟨⟨hd, hp⟩, hds⟩ := List.forall_mem_cons.mp h
    have hnil : ds.isEmpty = true → spellBody minify depth ds = [] := by
      intro he
      rw [List.isEmpty_iff.mp he]
      rfl
    rw [spellBody]
    rcases line_between d depth ds.isEmpty ha hb hnil with ⟨seg, hw, hlast, he⟩ | ⟨seg, hw, he⟩
    · have hseg := (hw.alike.plain_iff hv).mpr hp
      rw [he, Declaration.readAll_last hseg.noBare, Declaration.read?_of_writtenAs hd hw,
        List.isEmpty_iff.mp hlast]
      rfl
    · have hseg := (hw.alike.plain_iff hv).mpr hp
      rw [he, Declaration.readAll_append hseg, Declaration.read?_of_writtenAs hd hw,
        ih hds (blank_lineEnd minify)]
      rfl

/-- a block between other texts, cut at its braces -/
theorem spellBlock_between (depth : Nat) (a header inner rest b : List Char) :
    a ++ (spellBlock minify depth header inner ++ rest) ++ b =
      ((a ++ padding minify depth) ++ header ++ gap minify) ++
        '{' :: ((lineEnd minify ++ inner ++ padding minify depth) ++
          '}' :: (lineEnd minify ++ rest ++ b)) := by
  rw [spellBlock_append]
  simp only [List.append_assoc, List.cons_append]

theorem balanced_inner (minify : Bool) (depth : Nat) {inner : List Char} (h : Balanced inner) :
    Balanced (lineEnd minify ++ inner ++ padding minify depth) :=
  ((balanced_blanks (blank_lineEnd minify)).append h).append
    (balanced_blanks (blank_padding minify depth))

theorem readBlocks_blank {ws : List Char} (h : Blank ws) (loose : Bool) :
    readBlocks loose ws = [] := by
  rw [readBlocks_last (hasBare_blanks visible_isEnd start h), readStatement,
    Declaration.read?_blank h]
  cases loose <;> rfl

theorem readBlocks_declaration {d : Declaration} (hd : d.Tidy) (hp : Plain Piece.isEnd d.chars)
    (nodes : List Node) (depth : Nat) {a b : List Char} (ha : Blank a) (hb : Blank b) :
    readBlocks true (a ++ spellAll minify depth (.declaration d :: nodes) ++ b) =
      .declaration d :: readBlocks true (lineEnd minify ++ spellAll minify depth nodes ++ b) := by
  have hnil : nodes.isEmpty = true → spellAll minify depth nodes = [] := by
    intro he
    rw [List.isEmpty_iff.mp he]
    rfl
  have hread {seg : List Char} (hw : d.WrittenAs seg) :
      readStatement true seg = [.declaration d] := by
    rw [readStatement, Declaration.read?_of_writtenAs hd hw]
    rfl
  rw [spellAll_declaration]
  rcases line_between d depth nodes.isEmpty ha hb hnil with ⟨seg, hw, hlast, he⟩ | ⟨seg, hw, he⟩
  · have hseg := (hw.alike.plain_iff visible_isEnd).mpr hp
    have hrest : Blank (lineEnd minify ++ [] ++ b) :=
      ((blank_lineEnd minify).append blank_nil).append hb
    rw [he, readBlocks_last hseg.noBare, hread hw, hnil hlast, readBlocks_blank hrest]
  · have hseg := (hw.alike.plain_iff visible_isEnd).mpr hp
    rw [he, readBlocks_statement hseg, hread hw]
    rfl

/-- where a declaration stands at the start, loose declarations count -/
theorem loose_of_declaration {loose : Bool} {d : Declaration} {nodes : List Node}
    (h : loose = true ∨ NoneLoose (.declaration d :: nodes)) : loose = true := by
  rcases h with h | h
  · exact h
  · exact absurd (h _ List.mem_cons_self) (by simp [Node.isDeclaration])

theorem loose_tail {loose : Bool} {node : Node} {nodes : List Node}
    (h : loose = true ∨ NoneLoose (node :: nodes)) : loose = true ∨ NoneLoose nodes :=
  h.imp id fun hn x hx => hn x (List.mem_cons_of_mem _ hx)

theorem readBlocks_spellAll {nodes : List Node} (h : MeetsAll .read nodes)
    (hb : MeetsAll .balanced nodes) {loose : Bool} (hl : loose = true ∨ NoneLoose nodes)
    (depth : Nat) {a b : List Char} (ha : Blank a) (hb' : Blank b) :
    readBlocks loose (a ++ spellAll minify depth nodes ++ b) = nodes := by
  have hline := blank_lineEnd minify
  induction nodes using sheetInduction generalizing loose depth a b with
  | nil => exact readBlocks_blank ((ha.append blank_nil).append hb') loose
  | declaration d nodes ih =>
    rw [loose_of_declaration hl, readBlocks_declaration h.1.1 h.1.2 nodes depth ha hb',
      ih h.2 hb.2 (Or.inl rfl) depth hline hb']
  | rule s body nodes ih =>
    have hpad := ha.append (blank_padding minify depth)
    have hs : Plain Piece.isEnd ((a ++ padding minify depth) ++ s.toList ++ gap minify) :=
      ((alike_between hpad (blank_gap minify) _).plain_iff visible_isEnd).mpr h.1.1.2
    have hbody : Balanced (spellBody minify (depth + 1) body) :=
      balanced_body (fun d hd => (h.1.2 d hd).2.closed) hb.1
    rw [spellAll_rule, spellBlock_between, readBlocks_block hs (balanced_inner minify depth hbody),
      readBlock_style h.1.1.1 hpad (blank_gap minify),
      readAll_spellBody h.1.2 (depth + 1) hline (blank_padding minify depth),
      ih h.2 hb.2 (loose_tail hl) depth hline hb']
    rfl
  | atRule n p children nodes ihc ih =>
    have hpad := ha.append (blank_padding minify depth)
    have hw := Header.writtenAs_spell minify n p hpad (blank_gap minify)
    have hs := (hw.alike.plain_iff visible_isEnd).mpr h.1.1.2
    have hchildren : Balanced (spellAll minify (depth + 1) children) :=
      balanced_spellAll h.1.2 hb.1.2
    have hinner := balanced_inner minify depth hchildren
    rw [spellAll_atRule, spellBlock_between, readBlocks_block hs hinner,
      readBlock_atRule h.1.1.1 hw, readInner_balanced hinner,
      ihc h.1.2 hb.1.2 (Or.inl rfl) (depth + 1) hline (blank_padding minify depth),
      ih h.2 hb.2 (loose_tail hl) depth hline hb']
    rfl

end

/-- a printed stylesheet without comments, read as a text -/
theorem parse_eq_of_quiet {nodes : List Node} (h : MeetsAll .closed nodes)
    (hq : MeetsAll .quiet nodes) (minify : Bool) :
    parse (printSheet minify nodes) = readBlocks false (spellAll minify 0 nodes) := by
  rw [parse, parseChars, toList_printSheet,
    strip_of_not_opensComment ((opensComment_spellAll h).mpr hq)]

theorem parse_printSheet_of_read {nodes : List Node} (h : MeetsAll .read nodes)
    (hl : NoneLoose nodes) (hq : MeetsAll .quiet nodes) (hb : MeetsAll .balanced nodes)
    (minify : Bool) : parse (printSheet minify nodes) = nodes := by
  have hr : readBlocks false ([] ++ spellAll minify 0 nodes ++ []) = nodes :=
    readBlocks_spellAll h hb (Or.inr hl) 0 blank_nil blank_nil
  rw [List.nil_append, List.append_nil] at hr
  rw [parse_eq_of_quiet (read_closed h) hq, hr]

/-- printing and parsing a canonical stylesheet gives it back -/
theorem parse_printSheet {nodes : List Node} (h : Canonical nodes) (minify : Bool) :
    parse (printSheet minify nodes) = nodes :=
  parse_printSheet_of_read (canonical_read h.1) h.2 (canonical_quiet h.1) (canonical_balanced h.1)
    minify

/-- nested at-rules, strings and parentheses around delimiters, an empty value and empty bodies -/
def nestedSheet : List Node :=
  [.rule "a[href=\"\x7d\"]" [⟨"content", "\"/*;\x7b\""⟩, ⟨"--empty", ""⟩],
    .atRule "media" "(min-width:1px)"
      [.declaration ⟨"color", "url(;)"⟩, .rule ".b" [], .atRule "supports" "not (a:b)"
        [.declaration ⟨"x", "y"⟩], .declaration ⟨"margin", "0"⟩],
    .atRule "font-face" "" []]

theorem parse_nestedSheet :
    Canonical nestedSheet ∧ parse (printSheet true nestedSheet) = nestedSheet := by
  have h : Canonical nestedSheet := by decide +kernel
  exact ⟨h, parse_printSheet h true⟩

end CssOptimizer
