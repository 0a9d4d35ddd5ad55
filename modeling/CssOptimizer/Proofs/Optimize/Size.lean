import CssOptimizer.Optimize
import CssOptimizer.Proofs.Sheet.Size

/-!
# Minified output never grows

Each step makes the minified text of the nodes shorter, or leaves it as it is.  Where rules are
merged, a selector that moves to the first rule brings a comma and a blank along, and its own rule
goes with the two braces around its body.

* `selectorsIn keys`         the selectors of the rules with a block key among `keys`;
* `utf8Len_mergeFrom_le`     what a merged sheet saves;
* `optimize_minified_le`     the optimized text is no longer than the text it was made of.
-/

namespace CssOptimizer
open Scan String

/-! ## dropping nodes -/

section
variable (depth : Nat)

theorem utf8Len_spellAll_cons (node : Node) (nodes : List Node) :
    utf8Len (spellAll true depth (node :: nodes)) =
      utf8Len (node.spell true depth) +
        utf8Len (if node.isDeclaration then ending true nodes.isEmpty else []) +
        utf8Len (spellAll true depth nodes) := by
  rw [spellAll, utf8Len_append, utf8Len_append]

/-- a node in front of shorter nodes; its semicolon may go with the nodes behind it -/
theorem utf8Len_spellAll_cons_le {a b : List Node} (hempty : b = [] → a = []) {saved : Nat}
    (h : utf8Len (spellAll true depth a) + saved ≤ utf8Len (spellAll true depth b))
    (node : Node) :
    utf8Len (spellAll true depth (node :: a)) + saved ≤
      utf8Len (spellAll true depth (node :: b)) := by
  have hend : utf8Len (ending true a.isEmpty) ≤ utf8Len (ending true b.isEmpty) := by
    cases b with
    | nil => rw [hempty rfl]
    | cons next b => exact utf8Len_ending_le a.isEmpty
  have hbehind : utf8Len (if node.isDeclaration then ending true a.isEmpty else []) ≤
      utf8Len (if node.isDeclaration then ending true b.isEmpty else []) := by
    cases node.isDeclaration
    · exact Nat.le_refl _
    · exact hend
  rw [utf8Len_spellAll_cons, utf8Len_spellAll_cons]
  omega

theorem utf8Len_spellAll_sublist {a b : List Node} (h : List.Sublist a b) :
    utf8Len (spellAll true depth a) ≤ utf8Len (spellAll true depth b) := by
  induction h with
  | slnil => exact Nat.le_refl _
  | cons node _ ih =>
    rw [utf8Len_spellAll_cons]
    omega
  | cons_cons node hsub ih =>
    show utf8Len _ + 0 ≤ _
    exact utf8Len_spellAll_cons_le depth (fun he => List.sublist_nil.mp (he ▸ hsub)) ih node

end

/-! ## merging rules -/

def selectorsIn (keys : List String) : List Node → List String
  | [] => []
  | .rule selector body :: nodes =>
    if blockKey body ∈ keys then selector :: selectorsIn keys nodes else selectorsIn keys nodes
  | _ :: nodes => selectorsIn keys nodes

/-- the size of selectors with a separator before each of them -/
def joinedSize : List String → Nat
  | [] => 0
  | s :: selectors => utf8Len s.toList + 2 + joinedSize selectors

theorem joinedSize_cons (s : String) (selectors : List String) :
    joinedSize (s :: selectors) = utf8Len s.toList + 2 + joinedSize selectors := rfl

theorem utf8Len_joinSelectors (s : String) (selectors : List String) :
    utf8Len (joinSelectors (s :: selectors)).toList =
      utf8Len s.toList + joinedSize selectors := by
  induction selectors generalizing s with
  | nil =>
    rw [joinSelectors, String.intercalate_singleton]
    rfl
  | cons t selectors ih =>
    have hsep : utf8Len (", " : String).toList = 2 := by decide
    have ht := ih t
    rw [joinSelectors] at ht ⊢
    rw [String.intercalate_cons_cons, String.toList_append, String.toList_append, utf8Len_append,
      utf8Len_append, ht, hsep, joinedSize_cons]
    omega

/-- a new block key adds the selectors of its own rules -/
theorem joinedSize_selectorsIn_cons {key : String} {keys : List String} (h : key ∉ keys)
    (nodes : List Node) :
    joinedSize (selectorsIn (key :: keys) nodes) =
      joinedSize (selectorsWithKey key nodes) + joinedSize (selectorsIn keys nodes) := by
  induction nodes with
  | nil => rfl
  | cons node nodes ih =>
    cases node with
    | declaration d => exact ih
    | atRule n p c => exact ih
    | rule selector body =>
      simp only [selectorsIn, selectorsWithKey, List.mem_cons]
      by_cases hk : blockKey body = key
      · rw [if_pos (Or.inl hk), if_pos hk, if_neg (hk ▸ h), joinedSize_cons, joinedSize_cons, ih]
        omega
      · by_cases hm : blockKey body ∈ keys
        · rw [if_pos (Or.inr hm), if_neg hk, if_pos hm, joinedSize_cons, joinedSize_cons, ih]
          omega
        · rw [if_neg (fun hor => hor.elim hk hm), if_neg hk, if_neg hm, ih]

theorem utf8Len_mergeFrom_le (depth : Nat) (seen : List String) (nodes : List Node) :
    utf8Len (spellAll true depth (mergeFrom seen nodes)) + joinedSize (selectorsIn seen nodes) ≤
      utf8Len (spellAll true depth nodes) := by
  induction nodes generalizing seen with
  | nil => exact Nat.le_refl _
  | cons node nodes ih =>
    have hempty : nodes = [] → mergeFrom seen nodes = [] := by
      rintro rfl
      rfl
    cases node with
    | declaration d => exact utf8Len_spellAll_cons_le depth hempty (ih seen) _
    | atRule n p c => exact utf8Len_spellAll_cons_le depth hempty (ih seen) _
    | rule selector body =>
      rw [mergeFrom_rule, selectorsIn]
      split
      · have hrest := ih seen
        rw [joinedSize_cons, spellAll_rule, utf8Len_append, utf8Len_spellBlock]
        omega
      · rename_i hnew
        have hrest := ih (blockKey body :: seen)
        rw [joinedSize_selectorsIn_cons hnew] at hrest
        rw [spellAll_rule, spellAll_rule, utf8Len_append, utf8Len_append, utf8Len_spellBlock,
          utf8Len_spellBlock, utf8Len_joinSelectors]
        omega

/-! ## all steps -/

section
variable (options : Options) (usage : Option Usage)

theorem utf8Len_purgeStep_le (o : Optimized) :
    utf8Len (spellAll true 0 (purgeStep options usage o).nodes) ≤
      utf8Len (spellAll true 0 o.nodes) := by
  unfold purgeStep
  split
  · exact utf8Len_spellAll_sublist 0 List.filter_sublist
  · exact Nat.le_refl _

theorem utf8Len_mergeStep_le (o : Optimized) :
    utf8Len (spellAll true 0 (mergeStep options o).nodes) ≤ utf8Len (spellAll true 0 o.nodes) := by
  unfold mergeStep
  split
  · exact (Nat.le_add_right _ _).trans (utf8Len_mergeFrom_le 0 [] o.nodes)
  · exact Nat.le_refl _

/-- minified output is no longer than the input, unless atomic classes are made -/
theorem optimize_minified_le (css : String) (hm : options.minify = true)
    (ha : options.atomic = false) :
    (optimize options usage css).css.utf8ByteSize ≤ css.utf8ByteSize ∧
      0 ≤ (optimize options usage css).report.savings := by
  let purged := purgeStep options usage { nodes := parse css }
  let nodes := (optimizeNodes Digest.hexDigest options usage (parse css)).nodes
  have hnodes : nodes = (mergeStep options purged).nodes := by
    show (atomicStep _ options (mergeStep options purged)).nodes = _
    rw [atomicStep, if_neg (by simp [ha])]
  have hsize : (optimize options usage css).css.utf8ByteSize ≤ css.utf8ByteSize := by
    show (printSheet options.minify nodes).utf8ByteSize ≤ _
    rw [hm, hnodes, ← String.utf8Len_toList, ← String.utf8Len_toList, toList_printSheet]
    calc utf8Len (spellAll true 0 (mergeStep options purged).nodes)
        ≤ utf8Len (spellAll true 0 purged.nodes) := utf8Len_mergeStep_le options purged
      _ ≤ utf8Len (spellAll true 0 (parse css)) := utf8Len_purgeStep_le options usage _
      _ ≤ utf8Len (Comment.strip css.toList) := utf8Len_readBlocks_le false _ 0
      _ ≤ utf8Len css.toList := utf8Len_strip_le _
  refine ⟨hsize, ?_⟩
  show 0 ≤ (css.utf8ByteSize : Int) - (optimize options usage css).css.utf8ByteSize
  omega

end

/-- a stylesheet of three rules, two of them with the same declarations in other words -/
def paddedSheet : String := "/* é */ .a \x7b p : 1 ; \x7d .b\x7bp:1\x7d .c\x7bq:2\x7d"

def smallOptions : Options := { purge := true, deduplicate := true, minify := true }

theorem optimize_paddedSheet_le :
    (optimize smallOptions (some { classes := NameSet.ofList ["a", "b"] }) paddedSheet).css =
      ".a, .b\x7bp:1\x7d" ∧
    (optimize smallOptions (some { classes := NameSet.ofList ["a", "b"] })
      paddedSheet).css.utf8ByteSize ≤ paddedSheet.utf8ByteSize ∧
    0 ≤ (optimize smallOptions (some { classes := NameSet.ofList ["a", "b"] })
      paddedSheet).report.savings := by
  refine ⟨by decide +kernel, ?_⟩
  exact optimize_minified_le smallOptions _ paddedSheet rfl rfl

end CssOptimizer
