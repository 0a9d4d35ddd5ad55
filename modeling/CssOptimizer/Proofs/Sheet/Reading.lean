import CssOptimizer.Proofs.Sheet.Written

/-!
# Reading piece by piece

* `readBlock header body`   the nodes of a block: one, or none if its header is empty;
* `readInner body`          the nodes in the body of an at-rule.

A text is read as its first piece and what follows it (`readBlocks_statement`,
`readBlocks_block`, `readBlocks_last`), and the body of a rule as its first declaration and the
rest (`readAll_append`).  Without braces both ways of reading agree (`readBlocks_of_no_brace`), so
that a balanced body of an at-rule is always read as statements and blocks
(`readInner_balanced`).  What holds of every text is shown piece by piece (`readInduction`).
Blanks in front of a text make no difference (`readBlocks_blanks`).
-/

namespace CssOptimizer
open Scan Text

theorem isBare_semicolon : start.isBare ';' = true := rfl
theorem isBare_open : start.isBare '{' = true := rfl

theorem visible_isEnd : Visible Piece.isEnd := by
  intro c hc
  have h₁ : c ≠ ';' := ne_of_isBlank hc rfl
  have h₂ : c ≠ '}' := ne_of_isBlank hc rfl
  have h₃ : c ≠ '{' := ne_of_isBlank hc rfl
  simp [Piece.isEnd, h₁, h₂, h₃]

/-! ## declarations -/

namespace Declaration

theorem readAll_append {seg : List Char} (h : Plain (· == ';') seg) (rest : List Char) :
    readAll (seg ++ ';' :: rest) = (read? seg).toList ++ readAll rest := by
  rw [readAll, split_plain h isBare_semicolon, List.filterMap_cons]
  cases read? seg <;> rfl

theorem readAll_last {seg : List Char} (h : hasBare (· == ';') start seg = false) :
    readAll seg = (read? seg).toList := by
  rw [readAll, split_of_hasBare h, List.filterMap_cons]
  cases read? seg <;> rfl

/-- an induction over the declarations of a text, each with what is behind its semicolon -/
theorem bodyInduction {P : List Char → List Declaration → Prop}
    (last : ∀ seg, hasBare (· == ';') start seg = false → P seg (read? seg).toList)
    (more : ∀ seg rest, Plain (· == ';') seg → P rest (readAll rest) →
      P (seg ++ ';' :: rest) ((read? seg).toList ++ readAll rest)) (text : List Char) :
    P text (readAll text) := by
  induction hn : text.length using Nat.strongRecOn generalizing text with
  | ind n ih =>
    cases hcut : cut (· == ';') start text with
    | none =>
      have hbare := cut_eq_none_iff.mp hcut
      rw [readAll_last hbare]
      exact last text hbare
    | some r =>
      obtain ⟨seg, e, rest⟩ := r
      obtain ⟨htext, he⟩ := cut_eq_some hcut
      rw [eq_of_beq he] at htext
      have hseg := (plain_of_cut hcut).1
      have hrest : rest.length < n := by
        rw [← hn, htext, List.length_append, List.length_cons]
        omega
      rw [htext, readAll_append hseg]
      exact more seg rest hseg (ih rest.length hrest rest rfl)

theorem read?_blank {ws : List Char} (h : Blank ws) : read? ws = none := by
  rw [read?, trim_blank h]
  rfl

end Declaration

/-! ## statements and blocks -/

def readInner (body : List Char) : List Node :=
  if hasBare (· == '{') start body then readBlocks true body
  else (Declaration.readAll body).map .declaration

def readBlock (header body : List Char) : List Node :=
  match Header.read? header with
  | none => []
  | some (.style selector) => [.rule (String.ofList selector) (Declaration.readAll body)]
  | some (.atRule name params) =>
    [.atRule (String.ofList name) (String.ofList params) (readInner body)]

theorem readBlocks_eq_of_last {loose : Bool} {cs : List Char} (h : Piece.next cs = .last) :
    readBlocks loose cs = readStatement loose cs := by
  rw [readBlocks]
  split
  · rfl
  · rename_i h'
    rw [h] at h'
    simp at h'
  · rename_i h'
    rw [h] at h'
    simp at h'

theorem readBlocks_eq_of_statement {loose : Bool} {cs text rest : List Char}
    (h : Piece.next cs = .statement text rest) :
    readBlocks loose cs = readStatement loose text ++ readBlocks loose rest := by
  rw [readBlocks]
  split
  · rename_i h'
    rw [h] at h'
    simp at h'
  · rename_i h'
    rw [h, Piece.statement.injEq] at h'
    rw [h'.1, h'.2]
  · rename_i h'
    rw [h] at h'
    simp at h'

theorem readBlocks_eq_of_block {loose : Bool} {cs header body rest : List Char}
    (h : Piece.next cs = .block header body rest) :
    readBlocks loose cs = readBlock header body ++ readBlocks loose rest := by
  rw [readBlocks]
  split
  · rename_i h'
    rw [h] at h'
    simp at h'
  · rename_i h'
    rw [h] at h'
    simp at h'
  · rename_i h'
    rw [h, Piece.block.injEq] at h'
    rw [h'.1, h'.2.1, h'.2.2]
    rfl

theorem next_plain {seg : List Char} (h : Plain Piece.isEnd seg) (rest : List Char) :
    Piece.next (seg ++ ';' :: rest) = .statement seg rest := by
  rw [Piece.next, cut_plain h isBare_semicolon (show Piece.isEnd ';' = true from rfl)]
  rfl

/-- behind a plain header the body ends where its blocks are closed -/
theorem next_header {header : List Char} (h : Plain Piece.isEnd header) (cs : List Char) :
    Piece.next (header ++ '{' :: cs) =
      match close 0 start cs with
      | none => .last
      | some (body, rest) => .block header body rest := by
  rw [Piece.next, cut_plain h isBare_open (show Piece.isEnd '{' = true from rfl)]
  rfl

theorem next_of_hasBare {seg : List Char} (h : hasBare Piece.isEnd start seg = false) :
    Piece.next seg = .last := by
  rw [Piece.next, cut_eq_none_iff.mpr h]

theorem readBlocks_statement {seg : List Char} (h : Plain Piece.isEnd seg) (loose : Bool)
    (rest : List Char) :
    readBlocks loose (seg ++ ';' :: rest) = readStatement loose seg ++ readBlocks loose rest :=
  readBlocks_eq_of_statement (next_plain h rest)

theorem readBlocks_block {header body : List Char} (h : Plain Piece.isEnd header)
    (hb : Balanced body) (loose : Bool) (rest : List Char) :
    readBlocks loose (header ++ '{' :: (body ++ '}' :: rest)) =
      readBlock header body ++ readBlocks loose rest := by
  apply readBlocks_eq_of_block
  rw [next_header h, close_balanced hb]

theorem readBlocks_last {seg : List Char} (h : hasBare Piece.isEnd start seg = false)
    (loose : Bool) : readBlocks loose seg = readStatement loose seg :=
  readBlocks_eq_of_last (next_of_hasBare h)

/-! ## blanks in front -/

/-- a piece with blanks in front of it -/
def Piece.behind (ws : List Char) : Piece → Piece
  | .statement text rest => .statement (ws ++ text) rest
  | .block header body rest => .block (ws ++ header) body rest
  | .last => .last

theorem Piece.next_blanks {ws : List Char} (h : Blank ws) (cs : List Char) :
    next (ws ++ cs) = (next cs).behind ws := by
  rw [next, next, cut_append_right (hasBare_blanks visible_isEnd start h), run_start_blanks h]
  cases cut isEnd start cs with
  | none => rfl
  | some r =>
    obtain ⟨before, d, rest⟩ := r
    simp only [Option.map_some]
    split
    · cases close 0 start rest <;> rfl
    · rfl

theorem readBlock_blanks {ws : List Char} (h : Blank ws) (header body : List Char) :
    readBlock (ws ++ header) body = readBlock header body := by
  have htrim : trim (ws ++ header) = trim header := by rw [trim, trimStart_blank h, trim]
  have hread : Header.read? (ws ++ header) = Header.read? header := by
    rw [Header.read?, Header.read?, htrim]
  rw [readBlock, readBlock, hread]

theorem readBlocks_blanks {ws : List Char} (h : Blank ws) (cs : List Char) :
    readBlocks false (ws ++ cs) = readBlocks false cs := by
  have hnext := Piece.next_blanks h cs
  cases hcs : Piece.next cs with
  | last =>
    rw [hcs] at hnext
    rw [readBlocks_eq_of_last hnext, readBlocks_eq_of_last hcs]
    rfl
  | statement text rest =>
    rw [hcs] at hnext
    rw [readBlocks_eq_of_statement hnext, readBlocks_eq_of_statement hcs]
    rfl
  | block header body rest =>
    rw [hcs] at hnext
    rw [readBlocks_eq_of_block hnext, readBlocks_eq_of_block hcs, readBlock_blanks h]

/-! ## bodies of at-rules -/

theorem readBlocks_of_no_brace {cs : List Char} (h : hasBare isBrace start cs = false) :
    readBlocks true cs = (Declaration.readAll cs).map .declaration := by
  -- the induction follows the statements of the text
  induction hn : cs.length using Nat.strongRecOn generalizing cs with
  | ind n ih =>
    cases hc : cut Piece.isEnd start cs with
    | none =>
      have hb := cut_eq_none_iff.mp hc
      rw [readBlocks_last hb, Declaration.readAll_last (hasBare_mono isEnd_semicolon hb)]
      rfl
    | some r =>
      obtain ⟨seg, d, rest⟩ := r
      obtain ⟨hcs, hd⟩ := cut_eq_some hc
      obtain ⟨hseg, hbare⟩ := plain_of_cut hc
      rw [hcs, hasBare_append, hseg.closed, Bool.or_eq_false_iff, hasBare, hbare,
        step_start_of_isBare hbare, Bool.true_and, Bool.or_eq_false_iff] at h
      have hsemi : d = ';' := by
        have hbr := h.2.1
        simp only [isBrace, Bool.or_eq_false_iff, beq_eq_false_iff_ne] at hbr
        simp only [Piece.isEnd, Bool.or_eq_true, beq_iff_eq] at hd
        rcases hd with (hd | hd) | hd
        · exact hd
        · exact absurd hd hbr.2
        · exact absurd hd hbr.1
      have hlen : rest.length < n := by
        rw [← hn, hcs, List.length_append, List.length_cons]
        omega
      rw [hcs, hsemi, readBlocks_statement hseg, Declaration.readAll_append
        (hseg.mono isEnd_semicolon), ih rest.length hlen h.2.2 rfl, List.map_append]
      rfl

/-- where no block opens and none is closed too often, there are no braces -/
theorem hasBare_isBrace {s : Scan} {cs : List Char} (h : hasBare (· == '{') s cs = false)
    (hb : blocks 0 s cs ≠ none) : hasBare isBrace s cs = false := by
  induction cs generalizing s with
  | nil => rfl
  | cons c cs ih =>
    rw [hasBare, Bool.or_eq_false_iff] at h
    rw [blocks] at hb
    split at hb
    · exact absurd rfl hb
    · rename_i hc
      have hbr : (s.isBare c && isBrace c) = false := by
        cases hs : s.isBare c with
        | false => rfl
        | true =>
          have h₁ := h.1
          rw [hs] at h₁ hc
          simp only [Bool.true_and, beq_self_eq_true, Bool.and_true] at h₁ hc
          rw [Bool.true_and, isBrace, h₁, Bool.false_or]
          exact Bool.eq_false_iff.mpr hc
      have hk : innerBlocks 0 s c = 0 := by
        cases hs : s.isBare c with
        | false => simp [innerBlocks, hs]
        | true =>
          rw [hs, Bool.true_and] at hbr
          exact innerBlocks_of_not_brace hbr 0 s
      rw [hk] at hb
      rw [hasBare, hbr, ih h.2 hb]
      rfl

theorem readInner_balanced {body : List Char} (h : Balanced body) :
    readInner body = readBlocks true body := by
  unfold readInner
  split
  · rfl
  · rename_i hn
    have hb : blocks 0 start body ≠ none := by
      rw [h.nested]
      exact Option.some_ne_none 0
    exact (readBlocks_of_no_brace (hasBare_isBrace (Bool.eq_false_iff.mpr hn) hb)).symm

/-! ## blocks by their headers -/

theorem readBlock_style {selector : String} (h : TidySelector selector) {a b : List Char}
    (ha : Blank a) (hb : Blank b) (body : List Char) :
    readBlock (a ++ selector.toList ++ b) body = [.rule selector (Declaration.readAll body)] := by
  rw [readBlock, Header.read?_style h ha hb]
  simp [String.ofList_toList]

theorem readBlock_atRule {name params : String} (h : TidyHeader name params) {header : List Char}
    (hw : Header.WrittenAs name params header) (body : List Char) :
    readBlock header body = [.atRule name params (readInner body)] := by
  rw [readBlock, Header.read?_atRule h hw]
  simp [String.ofList_toList]

/-! ## what a piece is -/

/-- a statement is plain and ends at a delimiter that opens no block -/
theorem next_statement_spec {cs text rest : List Char} (h : Piece.next cs = .statement text rest) :
    Plain Piece.isEnd text ∧ ∃ d, (d = ';' ∨ d = '}') ∧ cs = text ++ d :: rest := by
  unfold Piece.next at h
  split at h
  · simp at h
  · rename_i before d r hc
    split at h
    · split at h <;> simp at h
    · rename_i hd
      simp only [Piece.statement.injEq] at h
      obtain ⟨rfl, rfl⟩ := h
      obtain ⟨hcs, hend⟩ := cut_eq_some hc
      refine ⟨(plain_of_cut hc).1, d, ?_, hcs⟩
      simpa [Piece.isEnd, hd] using hend

/-- a block is a balanced text between braces, behind a plain header -/
theorem next_block_spec {cs header body rest : List Char}
    (h : Piece.next cs = .block header body rest) :
    Plain Piece.isEnd header ∧ Balanced body ∧ cs = header ++ '{' :: (body ++ '}' :: rest) := by
  have hcs := Piece.next_block h
  unfold Piece.next at h
  split at h
  · simp at h
  · rename_i before d r hc
    split at h
    · split at h
      · simp at h
      · rename_i b r' hb
        simp only [Piece.block.injEq] at h
        obtain ⟨rfl, rfl, rfl⟩ := h
        exact ⟨(plain_of_cut hc).1, balanced_of_close hb, hcs⟩
    · simp at h

/-- the last piece of a balanced text has no delimiters -/
theorem plain_of_next_last {cs : List Char} (h : Piece.next cs = .last) (hb : Balanced cs) :
    Plain Piece.isEnd cs := by
  refine ⟨hb.closed, ?_⟩
  unfold Piece.next at h
  split at h
  · rename_i hc
    exact cut_eq_none_iff.mp hc
  · rename_i before d r hc
    obtain ⟨hcs, -⟩ := cut_eq_some hc
    split at h
    · rename_i hd
      split at h
      · rename_i hclose
        rw [hcs, hd] at hb
        exact absurd hclose (hb.close_ne_none ((plain_of_cut hc).1.mono isEnd_of_isBrace))
      · simp at h
    · simp at h

/-- what follows a block in a balanced text is balanced -/
theorem balanced_behind_block {header body rest : List Char} (hh : Plain Piece.isEnd header)
    (hb : Balanced body) (h : Balanced (header ++ '{' :: (body ++ '}' :: rest))) :
    Balanced rest := by
  have he : '{' :: (body ++ '}' :: rest) = '{' :: (body ++ ['}']) ++ rest := by simp
  rw [he] at h
  exact hb.braces.of_append ((hh.balanced isEnd_of_isBrace).of_append h)

/-- what follows a statement in a balanced text is balanced -/
theorem balanced_behind_statement {text rest : List Char} {d : Char} (ht : Plain Piece.isEnd text)
    (hd : d = ';' ∨ d = '}') (h : Balanced (text ++ d :: rest)) : Balanced rest := by
  have hrest : Balanced (d :: rest) := (ht.balanced isEnd_of_isBrace).of_append h
  rcases hd with rfl | rfl
  · exact (balanced_singleton isBare_semicolon rfl).of_append hrest
  · have hn : blocks 0 start ('}' :: rest) = none := rfl
    rw [hrest.nested] at hn
    exact absurd hn (Option.some_ne_none 0)

/-- the nodes of a block with a balanced body -/
theorem readBlock_balanced {header body : List Char} (h : Balanced body) :
    readBlock header body =
      match Header.read? header with
      | none => []
      | some (.style selector) => [.rule (String.ofList selector) (Declaration.readAll body)]
      | some (.atRule name params) =>
        [.atRule (String.ofList name) (String.ofList params) (readBlocks true body)] := by
  rw [readBlock, readInner_balanced h]

theorem readInduction {P : Bool → List Char → List Node → Prop}
    (last : ∀ loose cs, Piece.next cs = .last → P loose cs (readStatement loose cs))
    (statement : ∀ loose cs text rest, Piece.next cs = .statement text rest →
      P loose rest (readBlocks loose rest) →
      P loose cs (readStatement loose text ++ readBlocks loose rest))
    (block : ∀ loose cs header body rest, Piece.next cs = .block header body rest →
      P true body (readBlocks true body) → P loose rest (readBlocks loose rest) →
      P loose cs (readBlock header body ++ readBlocks loose rest)) (loose : Bool)
    (cs : List Char) : P loose cs (readBlocks loose cs) := by
  induction hn : cs.length using Nat.strongRecOn generalizing loose cs with
  | ind n ih =>
    cases h : Piece.next cs with
    | last =>
      rw [readBlocks_eq_of_last h]
      exact last loose cs h
    | statement text rest =>
      have hl : rest.length < n := hn ▸ Piece.length_of_next_statement h
      rw [readBlocks_eq_of_statement h]
      exact statement loose cs text rest h (ih _ hl loose rest rfl)
    | block header body rest =>
      have hl : body.length < n ∧ rest.length < n := hn ▸ Piece.length_of_next_block h
      rw [readBlocks_eq_of_block h]
      exact block loose cs header body rest h (ih _ hl.1 true body rfl) (ih _ hl.2 loose rest rfl)

end CssOptimizer
