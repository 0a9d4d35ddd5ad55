import CssOptimizer.Proofs.Scan.Blocks
import CssOptimizer.Proofs.Scan.Comments
import CssOptimizer.Proofs.Text.Trim
import CssOptimizer.Sheet.Parse

/-!
# Conditions on stylesheets

A condition says what loose declarations, style rules and the headers of at-rules have to be
like; a stylesheet meets it if all of its nodes do, at any depth.

* `Condition`, `MeetsAll`   conditions, and the stylesheets that meet them;
* `Condition.canonical`     texts that stand for themselves: trimmed, without delimiters or
                            comments outside strings;
* `Condition.read`          what reading guarantees: the bodies of style rules may hold braces;
* `Condition.quiet`         no text of a node opens a comment;
* `Condition.balanced`      the braces in the body of each style rule close each other.

Canonical stylesheets meet the other three (`canonical_read`, `canonical_quiet`,
`canonical_balanced`).
-/

namespace CssOptimizer
open Scan

/-! ## recursion over stylesheets -/

/-- an induction over the nodes of a stylesheet, at-rules with their children -/
theorem sheetInduction {P : List Node → Prop} (nil : P [])
    (declaration : ∀ d nodes, P nodes → P (.declaration d :: nodes))
    (rule : ∀ selector body nodes, P nodes → P (.rule selector body :: nodes))
    (atRule : ∀ name params children nodes, P children → P nodes →
      P (.atRule name params children :: nodes)) : ∀ nodes, P nodes
  | [] => nil
  | .declaration d :: nodes =>
    declaration d nodes (sheetInduction nil declaration rule atRule nodes)
  | .rule s b :: nodes => rule s b nodes (sheetInduction nil declaration rule atRule nodes)
  | .atRule n p children :: nodes =>
    atRule n p children nodes (sheetInduction nil declaration rule atRule children)
      (sheetInduction nil declaration rule atRule nodes)

structure Condition where
  declaration : Declaration → Prop
  rule : String → List Declaration → Prop
  header : String → String → Prop

mutual

def Node.Meets (c : Condition) : Node → Prop
  | .declaration d => c.declaration d
  | .rule selector body => c.rule selector body
  | .atRule name params children => c.header name params ∧ MeetsAll c children

def MeetsAll (c : Condition) : List Node → Prop
  | [] => True
  | node :: nodes => node.Meets c ∧ MeetsAll c nodes

end

theorem meetsAll_nil (c : Condition) : MeetsAll c [] := trivial
theorem meetsAll_cons {c : Condition} {node : Node} {nodes : List Node} :
    MeetsAll c (node :: nodes) ↔ node.Meets c ∧ MeetsAll c nodes := Iff.rfl

theorem meetsAll_append {c : Condition} {a b : List Node} :
    MeetsAll c (a ++ b) ↔ MeetsAll c a ∧ MeetsAll c b := by
  induction a with
  | nil => exact ⟨fun h => ⟨trivial, h⟩, fun h => h.2⟩
  | cons node a ih => rw [List.cons_append, meetsAll_cons, meetsAll_cons, ih, and_assoc]

theorem MeetsAll.of_mem {c : Condition} {nodes : List Node} (h : MeetsAll c nodes) {node : Node}
    (hm : node ∈ nodes) : node.Meets c := by
  induction nodes with
  | nil => exact absurd hm List.not_mem_nil
  | cons first nodes ih =>
    rcases List.mem_cons.mp hm with rfl | hm
    · exact h.1
    · exact ih h.2 hm

theorem MeetsAll.imp {c d : Condition} {nodes : List Node} (h : MeetsAll c nodes)
    (hd : ∀ x, c.declaration x → d.declaration x) (hr : ∀ s b, c.rule s b → d.rule s b)
    (hh : ∀ n p, c.header n p → d.header n p) : MeetsAll d nodes := by
  induction nodes using sheetInduction with
  | nil => trivial
  | declaration x nodes ih => exact ⟨hd x h.1, ih h.2⟩
  | rule s b nodes ih => exact ⟨hr s b h.1, ih h.2⟩
  | atRule n p children nodes ihc ih => exact ⟨⟨hh n p h.1.1, ihc h.1.2⟩, ih h.2⟩

section
variable (c : Condition) [∀ d, Decidable (c.declaration d)] [∀ s b, Decidable (c.rule s b)]
  [∀ n p, Decidable (c.header n p)]

mutual

def Node.decideMeets : (node : Node) → Decidable (node.Meets c)
  | .declaration d => inferInstanceAs (Decidable (c.declaration d))
  | .rule s b => inferInstanceAs (Decidable (c.rule s b))
  | .atRule n p children =>
    match (inferInstance : Decidable (c.header n p)), decideMeetsAll children with
    | .isTrue h, .isTrue hc => .isTrue ⟨h, hc⟩
    | .isFalse h, _ => .isFalse fun e => h e.1
    | _, .isFalse hc => .isFalse fun e => hc e.2

def decideMeetsAll : (nodes : List Node) → Decidable (MeetsAll c nodes)
  | [] => .isTrue trivial
  | node :: nodes =>
    match Node.decideMeets node, decideMeetsAll nodes with
    | .isTrue h, .isTrue hs => .isTrue ⟨h, hs⟩
    | .isFalse h, _ => .isFalse fun e => h e.1
    | _, .isFalse hs => .isFalse fun e => hs e.2

end

instance (nodes : List Node) : Decidable (MeetsAll c nodes) := decideMeetsAll c nodes

end

/-! ## texts of nodes -/

/-- a declaration without blanks around its colon -/
def Declaration.chars (d : Declaration) : List Char :=
  d.property.toList ++ ':' :: d.value.toList

/-- what stands before the block of an at-rule -/
def headerChars (name params : String) : List Char :=
  '@' :: (name.toList ++ ' ' :: params.toList)

/-- a text that ends outside strings and parentheses, has no delimiter of statements and blocks
outside them, and opens no comment outside strings -/
structure Scan.SelfContained (cs : List Char) : Prop where
  plain : Plain Piece.isEnd cs
  quiet : opensComment start cs = false

instance (cs : List Char) : Decidable (SelfContained cs) :=
  decidable_of_iff (Plain Piece.isEnd cs ∧ opensComment start cs = false)
    ⟨fun h => ⟨h.1, h.2⟩, fun h => ⟨h.plain, h.quiet⟩⟩

/-- the property and the value are trimmed, and the colon between them is the first one -/
structure Declaration.Tidy (d : Declaration) : Prop where
  property_ne : d.property.toList ≠ []
  property_trimmed : Text.Trimmed d.property.toList
  property_colon : ':' ∉ d.property.toList
  value_trimmed : Text.Trimmed d.value.toList

instance (d : Declaration) : Decidable d.Tidy :=
  decidable_of_iff (d.property.toList ≠ [] ∧ Text.Trimmed d.property.toList ∧
      ':' ∉ d.property.toList ∧ Text.Trimmed d.value.toList)
    ⟨fun h => ⟨h.1, h.2.1, h.2.2.1, h.2.2.2⟩,
      fun h => ⟨h.property_ne, h.property_trimmed, h.property_colon, h.value_trimmed⟩⟩

/-- a selector is trimmed and cannot be taken for an at-rule -/
structure TidySelector (selector : String) : Prop where
  ne : selector.toList ≠ []
  trimmed : Text.Trimmed selector.toList
  head : selector.toList.head? ≠ some '@'

instance (selector : String) : Decidable (TidySelector selector) :=
  decidable_of_iff (selector.toList ≠ [] ∧ Text.Trimmed selector.toList ∧
      selector.toList.head? ≠ some '@')
    ⟨fun h => ⟨h.1, h.2.1, h.2.2⟩, fun h => ⟨h.ne, h.trimmed, h.head⟩⟩

/-- whether a character ends the name of an at-rule -/
def Header.endsName (c : Char) : Bool := Text.isBlank c || c == '('

/-- the name of an at-rule is one word, and its parameters are trimmed -/
structure TidyHeader (name params : String) : Prop where
  ne : name.toList ≠ []
  word : ∀ c ∈ name.toList, Header.endsName c = false
  trimmed : Text.Trimmed params.toList

instance (name params : String) : Decidable (TidyHeader name params) :=
  have : Decidable (∀ c ∈ name.toList, Header.endsName c = false) := List.decidableBAll ..
  decidable_of_iff (name.toList ≠ [] ∧ (∀ c ∈ name.toList, Header.endsName c = false) ∧
      Text.Trimmed params.toList)
    ⟨fun h => ⟨h.1, h.2.1, h.2.2⟩, fun h => ⟨h.ne, h.word, h.trimmed⟩⟩

namespace Condition

def canonical : Condition where
  declaration d := d.Tidy ∧ SelfContained d.chars
  rule selector body := (TidySelector selector ∧ SelfContained selector.toList) ∧
    ∀ d ∈ body, d.Tidy ∧ SelfContained d.chars
  header name params := TidyHeader name params ∧ SelfContained (headerChars name params)

/-- what reading a text guarantees; only the semicolon parts the body of a style rule -/
def read : Condition where
  declaration d := d.Tidy ∧ Plain Piece.isEnd d.chars
  rule selector body := (TidySelector selector ∧ Plain Piece.isEnd selector.toList) ∧
    ∀ d ∈ body, d.Tidy ∧ Plain (· == ';') d.chars
  header name params := TidyHeader name params ∧ Plain Piece.isEnd (headerChars name params)

def quiet : Condition where
  declaration d := opensComment start d.chars = false
  rule selector body := opensComment start selector.toList = false ∧
    ∀ d ∈ body, opensComment start d.chars = false
  header name params := opensComment start (headerChars name params) = false

def balanced : Condition where
  declaration _ := True
  rule _ body := blocks 0 start (body.flatMap Declaration.chars) = some 0
  header _ _ := True

instance (d : Declaration) : Decidable (canonical.declaration d) :=
  inferInstanceAs (Decidable (_ ∧ _))
instance (selector : String) (body : List Declaration) : Decidable (canonical.rule selector body) :=
  inferInstanceAs (Decidable (_ ∧ _))
instance (name params : String) : Decidable (canonical.header name params) :=
  inferInstanceAs (Decidable (_ ∧ _))

instance (d : Declaration) : Decidable (quiet.declaration d) :=
  inferInstanceAs (Decidable (_ = _))
instance (selector : String) (body : List Declaration) : Decidable (quiet.rule selector body) :=
  inferInstanceAs (Decidable (_ ∧ _))
instance (name params : String) : Decidable (quiet.header name params) :=
  inferInstanceAs (Decidable (_ = _))

instance (d : Declaration) : Decidable (balanced.declaration d) :=
  inferInstanceAs (Decidable True)
instance (selector : String) (body : List Declaration) : Decidable (balanced.rule selector body) :=
  inferInstanceAs (Decidable (_ = _))
instance (name params : String) : Decidable (balanced.header name params) :=
  inferInstanceAs (Decidable True)

end Condition

def NoneLoose (nodes : List Node) : Prop := ∀ node ∈ nodes, node.isDeclaration = false

instance (nodes : List Node) : Decidable (NoneLoose nodes) :=
  inferInstanceAs (Decidable (∀ _ ∈ _, _))

/-- a stylesheet whose texts stand for themselves, with no declaration at the top -/
def Canonical (nodes : List Node) : Prop := MeetsAll .canonical nodes ∧ NoneLoose nodes

instance (nodes : List Node) : Decidable (Canonical nodes) :=
  inferInstanceAs (Decidable (_ ∧ _))

/-! ## canonical stylesheets -/

theorem isEnd_semicolon (c : Char) (h : (c == ';') = true) : Piece.isEnd c = true := by
  rw [Piece.isEnd, h]
  rfl

theorem isEnd_of_isBrace (c : Char) (h : isBrace c = true) : Piece.isEnd c = true := by
  rw [isBrace, Bool.or_eq_true] at h
  rw [Piece.isEnd]
  rcases h with h | h
  · rw [h, Bool.or_true]
  · rw [h, Bool.or_true, Bool.true_or]

theorem canonical_read {nodes : List Node} (h : MeetsAll .canonical nodes) :
    MeetsAll .read nodes := by
  refine h.imp (fun d hd => ⟨hd.1, hd.2.plain⟩) (fun s b hs => ⟨⟨hs.1.1, hs.1.2.plain⟩, ?_⟩)
    (fun n p hh => ⟨hh.1, hh.2.plain⟩)
  intro d hd
  exact ⟨(hs.2 d hd).1, (hs.2 d hd).2.plain.mono isEnd_semicolon⟩

theorem canonical_quiet {nodes : List Node} (h : MeetsAll .canonical nodes) :
    MeetsAll .quiet nodes :=
  h.imp (fun _ hd => hd.2.quiet) (fun _ _ hs => ⟨hs.1.2.quiet, fun d hd => (hs.2 d hd).2.quiet⟩)
    (fun _ _ hh => hh.2.quiet)

theorem balanced_flatMap {ds : List Declaration} (h : ∀ d ∈ ds, Balanced d.chars) :
    Balanced (ds.flatMap Declaration.chars) := by
  induction ds with
  | nil => exact balanced_nil
  | cons d ds ih =>
    rw [List.flatMap_cons]
    exact (h d List.mem_cons_self).append (ih fun e he => h e (List.mem_cons_of_mem _ he))

theorem canonical_balanced {nodes : List Node} (h : MeetsAll .canonical nodes) :
    MeetsAll .balanced nodes := by
  refine h.imp (fun _ _ => trivial) (fun s b hs => ?_) (fun _ _ _ => trivial)
  have hb : ∀ d ∈ b, Balanced d.chars := fun d hd =>
    (hs.2 d hd).2.plain.balanced isEnd_of_isBrace
  exact (balanced_flatMap hb).nested

end CssOptimizer
