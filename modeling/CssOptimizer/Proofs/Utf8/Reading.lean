import CssOptimizer.Proofs.Utf8.Comments
import CssOptimizer.Proofs.Utf8.Pieces
import CssOptimizer.Proofs.Sheet.Reading
import CssOptimizer.Selector

/-!
# Reading bytes

* `Utf8.components cs`   the components of a selector, cut at byte offsets;
* `Utf8.readNode`, `Utf8.readLoop`   a block, and the pieces of a text one after the other;
* `Utf8.parse cs`        a stylesheet, read without its comments.

Every part is taken between two byte offsets and may be a fault; the loop goes on behind a piece and
the recursion inside it, where the text is shorter than the one it is cut from.  All of them answer
without a fault what the readers of characters do (`parse_answers`).
-/

set_option linter.unusedVariables false

namespace CssOptimizer.Utf8
open String (utf8Len utf8Len_nil utf8Len_cons utf8Len_append)
open Text

/-! ## selectors -/

def componentsFrom (cs : List Char) (depth start i : Nat) :
    List Char → Reading (List (List Char))
  | [] => return [trim (← slice cs start (utf8Len cs))]
  | c :: rest =>
    if c = ',' ∧ depth = 0 then
      return trim (← slice cs start i) ::
        (← componentsFrom cs depth (i + 1) (i + c.utf8Size) rest)
    else componentsFrom cs (Selector.depthBehind depth c) start (i + c.utf8Size) rest

def components (cs : List Char) : Reading (List (List Char)) :=
  return (← componentsFrom cs 0 0 0 cs).filter (!·.isEmpty)

/-- the components of a selector, `part` of which has been read behind the last comma -/
theorem componentsFrom_eq (depth : Nat) (front part rest : List Char) :
    componentsFrom (front ++ (part ++ rest)) depth (utf8Len front)
        (utf8Len front + utf8Len part) rest =
      pure (((Selector.splitAtCommas depth rest).modifyHead (part ++ ·)).map trim) := by
  induction rest generalizing depth front part with
  | nil =>
    rw [componentsFrom, List.append_nil, slice_rest]
    simp [Selector.splitAtCommas]
  | cons c rest ih =>
    rw [componentsFrom, Selector.splitAtCommas]
    split
    · rename_i hc
      obtain ⟨rfl, rfl⟩ := hc
      have hsize : utf8Len (front ++ part ++ [',']) = utf8Len front + utf8Len part + 1 := by
        rw [utf8Len_append, utf8Len_append]
        rfl
      have hcs : front ++ (part ++ ',' :: rest) = front ++ part ++ [','] ++ ([] ++ rest) := by simp
      have hrest := ih 0 (front ++ part ++ [',']) []
      rw [← hcs, utf8Len_nil, Nat.add_zero, hsize, modifyHead_nil] at hrest
      have hone : ','.utf8Size = 1 := rfl
      rw [slice_part, hone]
      simp [hrest]
    · have hcs : part ++ c :: rest = part ++ [c] ++ rest := by simp
      have hsize : utf8Len front + utf8Len part + c.utf8Size =
          utf8Len front + utf8Len (part ++ [c]) := by rw [utf8Len_concat, Nat.add_assoc]
      rw [hcs, hsize, ih, List.modifyHead_modifyHead]
      congr 3
      funext x
      simp

theorem components_eq (cs : List Char) : components cs = pure (Selector.componentChars cs) := by
  have h := componentsFrom_eq 0 [] [] cs
  rw [modifyHead_nil] at h
  rw [components, Selector.componentChars]
  exact congrArg (· >>= fun parts => pure (parts.filter (!·.isEmpty))) h

/-! ## blocks -/

/-- the offset of the first character of a kind -/
def offsetOf? (p : Char → Bool) : List Char → Option Nat
  | [] => none
  | c :: cs => if p c then some 0 else (offsetOf? p cs).map (· + c.utf8Size)

/-- the declarations of a body -/
def readDeclarations (body : List Char) : Reading (List Declaration) :=
  return (← split body ';'.toUInt8).filterMap Declaration.read?

/-- the texts behind and inside a piece are shorter than the text it is cut from -/
theorem length_of_next {cs : List Char} :
    (∀ {text rest}, next cs = pure (.statement text rest) → rest.length < cs.length) ∧
      ∀ {header body rest}, next cs = pure (.block header body rest) →
        body.length < cs.length ∧ rest.length < cs.length := by
  rw [next_eq]
  exact ⟨fun h => Piece.length_of_next_statement (pure_inj.mp h),
    fun h => Piece.length_of_next_block (pure_inj.mp h)⟩

mutual

def readNode (header body : List Char) : Reading (Option Node) :=
  match trim header with
  | [] => pure none
  | '@' :: cs => do
    let stop := (offsetOf? (fun c => isBlank c || c == '(') cs).getD (utf8Len cs)
    let name ← slice cs 0 stop
    let params ← slice cs stop (utf8Len cs)
    if name.isEmpty then pure none
    else do
      let children ← readBody body
      pure (some (.atRule (String.ofList name) (String.ofList (trim params)) children))
  | selector => do
    let declarations ← readDeclarations body
    pure (some (.rule (String.ofList selector) declarations))
termination_by (body.length, 2)

/-- the body of an at-rule -/
def readBody (body : List Char) : Reading (List Node) :=
  if (find? body '{'.toUInt8).isSome then readLoop true body []
  else do
    let declarations ← readDeclarations body
    pure (declarations.map .declaration)
termination_by (body.length, 1)

def readLoop (loose : Bool) (rest : List Char) (nodes : List Node) : Reading (List Node) :=
  match h : next rest with
  | .error f => throw f
  | .ok (.block header body tail) => do
    let node ← readNode header body
    readLoop loose tail (nodes ++ node.toList)
  | .ok (.statement text tail) => readLoop loose tail (nodes ++ readStatement loose (trim text))
  | .ok .last => pure (nodes ++ readStatement loose rest)
termination_by (rest.length, 0)
decreasing_by
  · exact Prod.Lex.left _ _ (length_of_next.2 h).1
  · exact Prod.Lex.left _ _ (length_of_next.2 h).2
  · exact Prod.Lex.left _ _ (length_of_next.1 h)

end

def parse (cs : List Char) : Reading (List Node) := do readLoop false (← strip cs) []

theorem readDeclarations_eq (body : List Char) :
    readDeclarations body = pure (Declaration.readAll body) := by
  rw [readDeclarations, split_eq rfl, pure_bind]
  rfl

/-- the offset of the first character of a kind is the number of bytes in front of it -/
theorem offsetOf?_getD (p : Char → Bool) (cs : List Char) :
    (offsetOf? p cs).getD (utf8Len cs) = utf8Len (cs.takeWhile (!p ·)) := by
  induction cs with
  | nil => rfl
  | cons c cs ih =>
    cases hc : p c with
    | true => simp [offsetOf?, hc]
    | false =>
      rw [List.takeWhile_cons_of_pos (by simp [hc]), utf8Len_cons, utf8Len_cons, ← ih, offsetOf?,
        if_neg (by simp [hc])]
      cases offsetOf? p cs with
      | none => rfl
      | some i => rfl

theorem slice_takeWhile (p : Char → Bool) (cs : List Char) :
    slice cs 0 (utf8Len (cs.takeWhile (!p ·))) = pure (cs.takeWhile (!p ·)) ∧
      slice cs (utf8Len (cs.takeWhile (!p ·))) (utf8Len cs) = pure (cs.dropWhile (!p ·)) := by
  have hcs : cs = cs.takeWhile (!p ·) ++ cs.dropWhile (!p ·) := List.takeWhile_append_dropWhile.symm
  have hsize : utf8Len cs = utf8Len (cs.takeWhile (!p ·)) + utf8Len (cs.dropWhile (!p ·)) := by
    rw [← utf8Len_append, ← hcs]
  constructor
  · exact slice_eq (a := []) hcs rfl (Nat.zero_add _).symm
  · exact slice_eq (hcs.trans (congrArg _ (List.append_nil _).symm)) rfl hsize

/-- a block is one node, or none -/
theorem readNode_eq {body : List Char} (h : readLoop true body [] = pure (readBlocks true body))
    (header : List Char) : readNode header body = pure (readBlock header body).head? := by
  have hbody : readBody body = pure (readInner body) := by
    rw [readBody, find?_isSome rfl, readInner, h, readDeclarations_eq, pure_bind]
    split <;> rfl
  rw [readNode, readBlock, Header.read?]
  generalize trim header = text
  cases text with
  | nil => rfl
  | cons c cs =>
    by_cases hc : c = '@'
    · subst hc
      obtain ⟨hname, hparams⟩ := slice_takeWhile (fun c => isBlank c || c == '(') cs
      simp only [offsetOf?_getD, hname, hparams, pure_bind, hbody]
      split
      · rfl
      · rfl
    · simp [hc, readDeclarations_eq]

theorem toList_head?_readBlock (header body : List Char) :
    (readBlock header body).head?.toList = readBlock header body := by
  rw [readBlock]
  split <;> rfl

theorem readStatement_trim (loose : Bool) (text : List Char) :
    readStatement loose (trim text) = readStatement loose text := by
  rw [readStatement, readStatement, Declaration.read?, trim_trim]
  rfl

/-- the loop reads the nodes of a text behind those it has -/
theorem readLoop_eq (loose : Bool) (cs : List Char) (nodes : List Node) :
    readLoop loose cs nodes = pure (nodes ++ readBlocks loose cs) := by
  induction hn : cs.length using Nat.strongRecOn generalizing loose cs nodes with
  | ind n ih =>
    rw [readLoop]
    split
    · rename_i h
      rw [next_eq] at h
      cases h
    · rename_i header body rest h
      rw [next_eq] at h
      have hnext : Piece.next cs = .block header body rest := pure_inj.mp h
      have hlen : body.length < n ∧ rest.length < n := hn ▸ Piece.length_of_next_block hnext
      rw [readNode_eq (ih _ hlen.1 true body [] rfl), pure_bind, ih _ hlen.2 loose rest _ rfl,
        readBlocks_eq_of_block hnext, toList_head?_readBlock, List.append_assoc]
    · rename_i text rest h
      rw [next_eq] at h
      have hnext : Piece.next cs = .statement text rest := pure_inj.mp h
      have hrest : rest.length < n := hn ▸ Piece.length_of_next_statement hnext
      rw [ih _ hrest loose rest _ rfl, readBlocks_eq_of_statement hnext, readStatement_trim,
        List.append_assoc]
    · rename_i h
      rw [next_eq] at h
      have hnext : Piece.next cs = .last := pure_inj.mp h
      rw [readBlocks_eq_of_last hnext]

/-- reading answers for every text, without a fault: the slices are in range and stand between
characters, and no brace is closed that is not open.  The reader of comments goes on with every
turn, the texts behind and inside a piece have fewer bytes than the text it is cut from, and the
answers are those of the readers of characters -/
theorem parse_answers (cs : List Char) :
    (∀ i j, (∃ part, slice cs i j = pure part) ↔
      i ≤ j ∧ (⟨i⟩ : String.Pos.Raw).IsValid (String.ofList cs) ∧
        (⟨j⟩ : String.Pos.Raw).IsValid (String.ofList cs)) ∧
    (∀ s b s', (bytes cs)[s.place]? = some b → Stripper.turn cs s b = pure s' →
      s.place < s'.place) ∧
    strip cs = pure (Comment.strip cs) ∧
    (∀ i, (bytes cs)[i]? = some '{'.toUInt8 → ∃ j, close cs i = pure j) ∧
    next cs = pure (Piece.next cs) ∧
    (∀ text rest, next cs = pure (.statement text rest) → utf8Len rest < utf8Len cs) ∧
    (∀ header body rest, next cs = pure (.block header body rest) →
      utf8Len body < utf8Len cs ∧ utf8Len rest < utf8Len cs) ∧
    (∀ d : Char, d.utf8Size = 1 → split cs d.toUInt8 = pure (Scan.split d Scan.start cs)) ∧
    (∀ body, readNode cs body = pure (readBlock cs body).head?) ∧
    (∀ loose nodes, readLoop loose cs nodes = pure (nodes ++ readBlocks loose cs)) ∧
    parse cs = pure (parseChars cs) ∧
    components cs = pure (Selector.componentChars cs) := by
  refine ⟨fun i j => exists_slice_iff, fun s b s' => Stripper.turn_lt, strip_eq cs, ?_, next_eq cs,
    ?_, ?_, fun d hd => split_eq hd cs, fun body => readNode_eq (readLoop_eq true body []) cs,
    fun loose nodes => readLoop_eq loose cs nodes, ?_, components_eq cs⟩
  · intro i hi
    obtain ⟨a, b, rfl, rfl⟩ := exists_of_byte (d := '{') rfl hi
    exact ⟨_, close_eq a b⟩
  · intro text rest h
    rw [next_eq, pure_inj] at h
    obtain ⟨-, d, -, rfl⟩ := next_statement_spec h
    have hpos := d.utf8Size_pos
    rw [utf8Len_append, utf8Len_cons]
    omega
  · intro header body rest h
    rw [next_eq, pure_inj] at h
    obtain ⟨-, -, rfl⟩ := next_block_spec h
    rw [utf8Len_append_cons rfl, utf8Len_append_cons rfl]
    omega
  · rw [parse, strip_eq, pure_bind, readLoop_eq]
    rfl

/-- a block that holds an escaped character of two bytes and a brace in a string, in front of a
comment that is left open -/
def brokenBlock : List Char := "ß\x7ba:\x22\\é\x7d\x22\x7d/*é".toList

theorem parse_answers_brokenBlock :
    next ('é' :: '}' :: brokenBlock) = pure (.statement ['é'] brokenBlock) ∧
      utf8Len brokenBlock < utf8Len ('é' :: '}' :: brokenBlock) ∧
      (∃ body rest, next brokenBlock = pure (.block ['ß'] body rest) ∧
        utf8Len body < utf8Len brokenBlock ∧ utf8Len rest < utf8Len brokenBlock) ∧
      (∃ j, close brokenBlock 2 = pure j) ∧
      (∃ s, Stripper.turn brokenBlock {} 0xc3 = pure s ∧ 0 < s.place) ∧
      split brokenBlock ':'.toUInt8 = pure (Scan.split ':' Scan.start brokenBlock) ∧
      parse brokenBlock = pure (parseChars brokenBlock) := by
  have hstatement : next ('é' :: '}' :: brokenBlock) = pure (.statement ['é'] brokenBlock) :=
    (next_eq _).trans (congrArg pure (by decide))
  have hblock : next brokenBlock =
      pure (.block ['ß'] "a:\x22\\é\x7d\x22".toList "/*é".toList) :=
    (next_eq _).trans (congrArg pure (by decide))
  obtain ⟨-, -, -, -, -, hshorter, -⟩ := parse_answers ('é' :: '}' :: brokenBlock)
  obtain ⟨-, hturn, -, hclose, -, -, hinner, hsplit, -, -, hparse, -⟩ := parse_answers brokenBlock
  exact ⟨hstatement, hshorter _ _ hstatement, ⟨_, _, hblock, hinner _ _ _ hblock⟩,
    hclose 2 (by decide), ⟨_, rfl, hturn {} 0xc3 _ (by decide) rfl⟩, hsplit ':' rfl, hparse⟩

end CssOptimizer.Utf8
