import CssOptimizer.Proofs.Sheet.Condition
import CssOptimizer.Sheet.Print

/-!
# Printed texts as lists of characters

Both ways of printing differ in their blanks and in the semicolon behind a last declaration only.

* `padding`, `gap`, `lineEnd`   the blanks at the start of a line, around a colon or a brace, and
                                behind it; a minified text has none of them;
* `spellAll minify depth`       nodes as a text, for both ways of printing;
* `toList_printSheet`           what is printed is this text.

The rules and at-rules of a stylesheet are both blocks (`spellBlock`).
-/

namespace CssOptimizer
open Scan Text

/-! ## blanks -/

def padding (minify : Bool) (depth : Nat) : List Char :=
  if minify then [] else List.replicate (2 * depth) ' '

def gap (minify : Bool) : List Char := if minify then [] else [' ']

def lineEnd (minify : Bool) : List Char := if minify then [] else ['\n']

theorem blank_padding (minify : Bool) (depth : Nat) : Blank (padding minify depth) := by
  cases minify
  · exact blank_replicate _
  · exact blank_nil

theorem blank_gap (minify : Bool) : Blank (gap minify) := by
  cases minify <;> simp [gap, Blank, isBlank]

theorem blank_lineEnd (minify : Bool) : Blank (lineEnd minify) := by
  cases minify <;> simp [lineEnd, Blank, isBlank]

/-! ## nodes -/

def Declaration.spell (minify : Bool) (d : Declaration) : List Char :=
  d.property.toList ++ ':' :: (gap minify ++ d.value.toList)

/-- what stands behind a declaration -/
def ending (minify last : Bool) : List Char :=
  if minify && last then [] else ';' :: lineEnd minify

/-- the parameters of an at-rule as they stand behind its name -/
def spellParams (minify : Bool) : List Char → List Char
  | [] => []
  | c :: cs => if minify && c == '(' then c :: cs else ' ' :: c :: cs

def spellHeader (minify : Bool) (name params : String) : List Char :=
  '@' :: (name.toList ++ spellParams minify params.toList)

def spellBlock (minify : Bool) (depth : Nat) (header inner : List Char) : List Char :=
  padding minify depth ++ header ++ gap minify ++
    '{' :: (lineEnd minify ++ inner ++ padding minify depth ++ '}' :: lineEnd minify)

def spellBody (minify : Bool) (depth : Nat) : List Declaration → List Char
  | [] => []
  | d :: ds =>
    padding minify depth ++ d.spell minify ++ ending minify ds.isEmpty ++ spellBody minify depth ds

mutual

def Node.spell (minify : Bool) (depth : Nat) : Node → List Char
  | .declaration d => padding minify depth ++ d.spell minify
  | .rule selector body =>
    spellBlock minify depth selector.toList (spellBody minify (depth + 1) body)
  | .atRule name params children =>
    spellBlock minify depth (spellHeader minify name params) (spellAll minify (depth + 1) children)

def spellAll (minify : Bool) (depth : Nat) : List Node → List Char
  | [] => []
  | node :: nodes =>
    node.spell minify depth ++ (if node.isDeclaration then ending minify nodes.isEmpty else []) ++
      spellAll minify depth nodes

end

section
variable (minify : Bool) (depth : Nat)

theorem spellAll_nil : spellAll minify depth [] = [] := rfl

theorem spellAll_declaration (d : Declaration) (nodes : List Node) :
    spellAll minify depth (.declaration d :: nodes) =
      padding minify depth ++ d.spell minify ++ ending minify nodes.isEmpty ++
        spellAll minify depth nodes := rfl

theorem spellAll_rule (selector : String) (body : List Declaration) (nodes : List Node) :
    spellAll minify depth (.rule selector body :: nodes) =
      spellBlock minify depth selector.toList (spellBody minify (depth + 1) body) ++
        spellAll minify depth nodes := by
  show _ ++ [] ++ _ = _
  rw [List.append_nil]
  rfl

theorem spellAll_atRule (name params : String) (children nodes : List Node) :
    spellAll minify depth (.atRule name params children :: nodes) =
      spellBlock minify depth (spellHeader minify name params)
        (spellAll minify (depth + 1) children) ++ spellAll minify depth nodes := by
  show _ ++ [] ++ _ = _
  rw [List.append_nil]
  rfl

end

/-! ## what the printers give -/

theorem toList_line (depth : Nat) (d : Declaration) :
    (d.line depth).toList = padding false depth ++ d.spell false ++ ending false false := by
  simp [Declaration.line, indent, Declaration.print, padding, Declaration.spell, gap, ending,
    lineEnd]

theorem toList_lines (depth : Nat) (ds : List Declaration) :
    (String.join (ds.map (·.line depth))).toList = spellBody false depth ds := by
  induction ds with
  | nil => rfl
  | cons d ds ih =>
    rw [List.map_cons, String.join_cons, String.toList_append, ih, toList_line]
    rfl

theorem toList_spacedParams (params : String) :
    (spacedParams params).toList = spellParams false params.toList := by
  unfold spacedParams
  cases h : params.toList with
  | nil =>
    have he : params = "" := String.toList_inj.mp h
    rw [he]
    rfl
  | cons c cs =>
    have he : params.isEmpty = false := by
      rw [Bool.eq_false_iff]
      intro hp
      rw [String.isEmpty_iff.mp hp] at h
      simp at h
    simp [he, h, spellParams]

theorem toList_pretty (nodes : List Node) :
    ∀ depth, (pretty depth nodes).toList = spellAll false depth nodes := by
  induction nodes using sheetInduction with
  | nil => exact fun _ => rfl
  | declaration d nodes ih =>
    intro depth
    rw [pretty_cons, String.toList_append, ih, spellAll_declaration]
    show (d.line depth).toList ++ _ = _
    rw [toList_line]
    rfl
  | rule s b nodes ih =>
    intro depth
    rw [pretty_cons, String.toList_append, ih, spellAll_rule, Node.pretty]
    simp only [String.toList_append, toList_lines]
    simp [spellBlock, indent, padding, gap, lineEnd]
  | atRule n p children nodes ihc ih =>
    intro depth
    rw [pretty_cons, String.toList_append, ih, spellAll_atRule, Node.pretty]
    simp only [String.toList_append, ihc, toList_spacedParams]
    simp [spellBlock, spellHeader, indent, padding, gap, lineEnd]

theorem toList_print (d : Declaration) : (d.print ":").toList = d.spell true := by
  simp [Declaration.print, Declaration.spell, gap]

theorem toList_minifiedParams (params : String) :
    (minifiedParams params).toList = spellParams true params.toList := by
  unfold minifiedParams
  split
  · rename_i h
    rw [h]
    rfl
  · rename_i cs h
    rw [h]
    rfl
  · rename_i h₁ h₂
    cases h : params.toList with
    | nil => exact absurd h h₁
    | cons c cs =>
      have hc : (c == '(') = false := by
        rw [beq_eq_false_iff_ne]
        intro hc
        rw [hc] at h
        exact h₂ cs h
      simp [spellParams, hc, h]

theorem toList_joined (ds : List Declaration) (depth : Nat) :
    (";".intercalate (ds.map (·.print ":"))).toList = spellBody true depth ds := by
  induction ds with
  | nil => rfl
  | cons d ds ih =>
    cases ds with
    | nil =>
      rw [List.map_cons, List.map_nil, String.intercalate_singleton, toList_print]
      simp [spellBody, padding, ending]
    | cons e ds =>
      rw [List.map_cons, List.map_cons, String.intercalate_cons_cons, ← List.map_cons]
      simp only [String.toList_append, ih, toList_print]
      simp [spellBody, padding, ending, lineEnd]

theorem minified_cons (node : Node) (nodes : List Node) :
    minified (node :: nodes) =
      node.minified ++ (if node.isDeclaration && !nodes.isEmpty then ";" else "") ++
        minified nodes := by
  cases nodes with
  | nil =>
    show node.minified = _ ++ minified []
    rw [minified_nil]
    cases node.isDeclaration <;> simp
  | cons next rest =>
    rw [minified]
    cases node.isDeclaration <;> rfl

theorem toList_minified (nodes : List Node) :
    ∀ depth, (minified nodes).toList = spellAll true depth nodes := by
  induction nodes using sheetInduction with
  | nil => exact fun _ => rfl
  | declaration d nodes ih =>
    intro depth
    rw [minified_cons, spellAll_declaration, Node.minified]
    simp only [String.toList_append, toList_print, ih depth]
    cases nodes <;> simp [Node.isDeclaration, padding, ending, lineEnd]
  | rule s b nodes ih =>
    intro depth
    rw [minified_cons, spellAll_rule, Node.minified]
    simp only [String.toList_append, toList_joined b (depth + 1), ih depth]
    simp [Node.isDeclaration, spellBlock, padding, gap, lineEnd]
  | atRule n p children nodes ihc ih =>
    intro depth
    rw [minified_cons, spellAll_atRule, Node.minified]
    simp only [String.toList_append, toList_minifiedParams, ihc (depth + 1), ih depth]
    simp [Node.isDeclaration, spellBlock, spellHeader, padding, gap, lineEnd]

theorem toList_printSheet (minify : Bool) (nodes : List Node) :
    (printSheet minify nodes).toList = spellAll minify 0 nodes := by
  cases minify with
  | true => exact toList_minified nodes 0
  | false => exact toList_pretty nodes 0

end CssOptimizer
