import CssOptimizer.Sheet.Comment
import CssOptimizer.Sheet.Node

/-!
# Reading stylesheets

* `Declaration.read?`, `Declaration.readAll`   a declaration, and the body of a rule;
* `Piece.next`       the first statement or block of a text, and what follows it;
* `Header.read`      what stands before a block: a selector, or an at-rule with parameters;
* `readBlocks`       a text as statements and blocks, one after the other;
* `parse`            a stylesheet: its comments are dropped first.

What is malformed is passed over: reading always answers.  Statements count only inside at-rules
that hold blocks, where they are declarations.

Main statement: the texts behind and inside a piece are shorter than the text it is cut from
(`next_block`, `next_statement`), so that reading comes to an end.
-/

set_option linter.unusedVariables false

namespace CssOptimizer

/-! ## declarations -/

namespace Declaration

/-- a declaration is cut at its first colon; it needs a property -/
def read? (text : List Char) : Option Declaration :=
  match Text.cutAt (· == ':') (Text.trim text) with
  | none => none
  | some (property, _, value) =>
    let property := Text.trim property
    if property.isEmpty then none
    else some ⟨String.ofList property, String.ofList (Text.trim value)⟩

def readAll (text : List Char) : List Declaration :=
  (Scan.split ';' Scan.start text).filterMap read?

end Declaration

/-- the declarations of a rule body -/
def parseDeclarations (text : String) : List Declaration := Declaration.readAll text.toList

/-! ## pieces -/

/-- the first piece of a text: a statement up to a semicolon or a stray closing brace, a block,
or what is left when neither follows -/
inductive Piece where
  | statement (text rest : List Char)
  | block (header body rest : List Char)
  | last
  deriving DecidableEq

namespace Piece

/-- the characters that end a piece -/
def isEnd (c : Char) : Bool := c == ';' || c == '}' || c == '{'

/-- the first piece of a text; a block that is never closed makes the text the last one -/
def next (cs : List Char) : Piece :=
  match Scan.cut isEnd Scan.start cs with
  | none => .last
  | some (before, d, rest) =>
    if d = '{' then
      match Scan.close 0 Scan.start rest with
      | none => .last
      | some (body, rest) => .block before body rest
    else .statement before rest

theorem next_statement {cs text rest : List Char} (h : next cs = .statement text rest) :
    ∃ d, cs = text ++ d :: rest := by
  unfold next at h
  split at h
  · simp at h
  · rename_i before d r hc
    split at h
    · split at h <;> simp at h
    · simp only [Piece.statement.injEq] at h
      obtain ⟨rfl, rfl⟩ := h
      exact ⟨d, (Scan.cut_eq_some hc).1⟩

theorem next_block {cs header body rest : List Char} (h : next cs = .block header body rest) :
    cs = header ++ '{' :: (body ++ '}' :: rest) := by
  unfold next at h
  split at h
  · simp at h
  · rename_i before d r hc
    split at h
    · rename_i hd
      split at h
      · simp at h
      · rename_i b r' hb
        simp only [Piece.block.injEq] at h
        obtain ⟨rfl, rfl, rfl⟩ := h
        rw [(Scan.cut_eq_some hc).1, Scan.close_eq_some hb, hd]
    · simp at h

theorem length_of_next_statement {cs text rest : List Char}
    (h : next cs = .statement text rest) : rest.length < cs.length := by
  obtain ⟨d, e⟩ := next_statement h
  rw [e]
  simp
  omega

theorem length_of_next_block {cs header body rest : List Char}
    (h : next cs = .block header body rest) :
    body.length < cs.length ∧ rest.length < cs.length := by
  rw [next_block h]
  simp
  omega

end Piece

/-! ## headers -/

/-- what stands before a block -/
inductive Header where
  | style (selector : List Char)
  | atRule (name params : List Char)
  deriving DecidableEq

namespace Header

/-- an at sign starts an at-rule, whose name ends at the first blank or parenthesis; a header
without a selector or a name is none -/
def read? (text : List Char) : Option Header :=
  match Text.trim text with
  | [] => none
  | '@' :: cs =>
    let endsName (c : Char) : Bool := Text.isBlank c || c == '('
    let name := cs.takeWhile (!endsName ·)
    if name.isEmpty then none
    else some (.atRule name (Text.trim (cs.dropWhile (!endsName ·))))
  | selector => some (.style selector)

end Header

/-! ## stylesheets -/

/-- a loose declaration as a node, where loose declarations count -/
def readStatement (loose : Bool) (text : List Char) : List Node :=
  if loose then (Declaration.read? text).toList.map .declaration else []

/-- a text as statements and blocks; the body of an at-rule is read the same way if it has a
block of its own, and as declarations otherwise -/
def readBlocks (loose : Bool) (cs : List Char) : List Node :=
  match h : Piece.next cs with
  | .last => readStatement loose cs
  | .statement text rest => readStatement loose text ++ readBlocks loose rest
  | .block header body rest =>
    (match Header.read? header with
      | none => []
      | some (.style selector) => [.rule (String.ofList selector) (Declaration.readAll body)]
      | some (.atRule name params) =>
        [.atRule (String.ofList name) (String.ofList params)
          (if Scan.hasBare (· == '{') Scan.start body then readBlocks true body
            else (Declaration.readAll body).map .declaration)]) ++
      readBlocks loose rest
termination_by cs.length
decreasing_by
  · exact Piece.length_of_next_statement h
  · exact (Piece.length_of_next_block h).1
  · exact (Piece.length_of_next_block h).2

/-- a stylesheet, read without its comments -/
def parseChars (cs : List Char) : List Node := readBlocks false (Comment.strip cs)

def parse (css : String) : List Node := parseChars css.toList

end CssOptimizer
