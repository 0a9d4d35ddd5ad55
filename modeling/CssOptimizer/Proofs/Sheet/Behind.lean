import CssOptimizer.Proofs.Sheet.Lasting

/-!
# What stands behind a printed stylesheet

* `strip_append`             comments behind a text that closes its strings are dropped as if they
                             stood alone;
* `readBlocks_node_append`   a printed rule is read in front of any other text;
* `parse_printSheet_append`  so is a printed stylesheet, and the other text as if it stood alone;
* `parse_blanks_append`      blanks in front of a text make no difference.
-/

namespace CssOptimizer
open Scan Text

/-! ## comments -/

/-- a reader stands behind a slash only if a slash was read -/
theorem eq_slash_of_step {m : Comment.Mode} {c : Char} (h : Comment.step m c = .slash) :
    c = '/' := by
  have hcode (h : Comment.fromCode c = .slash) : c = '/' := by
    unfold Comment.fromCode at h
    split at h
    · assumption
    · split at h <;> exact absurd h Comment.Mode.noConfusion
  cases m with
  | code => exact hcode h
  | slash =>
    rw [Comment.step] at h
    split at h
    · exact absurd h Comment.Mode.noConfusion
    · exact hcode h
  | quoted q =>
    rw [Comment.step] at h
    split at h
    · exact absurd h Comment.Mode.noConfusion
    · split at h <;> exact absurd h Comment.Mode.noConfusion
  | escaped q => exact absurd h Comment.Mode.noConfusion
  | comment =>
    rw [Comment.step] at h
    split at h <;> exact absurd h Comment.Mode.noConfusion
  | star =>
    rw [Comment.step] at h
    split at h
    · exact absurd h Comment.Mode.noConfusion
    · split at h <;> exact absurd h Comment.Mode.noConfusion

theorem Comment.getLast?_of_run_slash {cs : List Char} (h : Comment.run .code cs = .slash) :
    cs.getLast? = some '/' := by
  rcases List.eq_nil_or_concat cs with rfl | ⟨init, c, rfl⟩
  · exact absurd h Comment.Mode.noConfusion
  · rw [List.concat_eq_append] at h ⊢
    rw [Comment.run_append] at h
    rw [eq_slash_of_step h, List.getLast?_concat]

section
variable {cs : List Char} (hc : Closed cs) (hq : opensComment start cs = false)
  (hlast : cs.getLast? ≠ some '/')
include hc hq hlast

theorem run_code_of_closed : Comment.run .code cs = .code := by
  have hstart : Together start .code := trivial
  have hnone : opensNext start .code cs = false := by
    rw [opensNext, hq]
    rfl
  have htogether := hstart.run hnone
  rw [show start.run cs = start from hc] at htogether
  cases hm : Comment.run .code cs with
  | code => rfl
  | slash => exact absurd (Comment.getLast?_of_run_slash hm) hlast
  | _ =>
    rw [hm] at htogether
    exact absurd htogether id

theorem strip_append (rest : List Char) :
    Comment.strip (cs ++ rest) = cs ++ Comment.strip rest := by
  have hrun := run_code_of_closed hc hq hlast
  have hpassed : Comment.passed .code cs = cs := by
    have hstrip := strip_of_not_opensComment hq
    rw [Comment.strip, Comment.stripFrom, hrun] at hstrip
    rwa [show Comment.final .code = [] from rfl, List.append_nil] at hstrip
  rw [Comment.strip, Comment.stripFrom_append, hpassed, hrun]
  rfl

end

/-! ## printed nodes -/

section
variable {minify : Bool} (depth : Nat)

theorem getLast?_spellBlock (header inner : List Char) :
    (spellBlock minify depth header inner).getLast? ≠ some '/' := by
  have hsplit : spellBlock minify depth header inner =
      (padding minify depth ++ header ++ gap minify ++
        '{' :: (lineEnd minify ++ inner ++ padding minify depth)) ++ '}' :: lineEnd minify := by
    simp [spellBlock]
  rw [hsplit, List.getLast?_append]
  cases minify with
  | true => exact fun h => absurd (Option.some.inj h) (by decide)
  | false => exact fun h => absurd (Option.some.inj h) (by decide)

theorem getLast?_spellAll {nodes : List Node} (h : NoneLoose nodes) :
    (spellAll minify depth nodes).getLast? ≠ some '/' := by
  induction nodes with
  | nil => exact fun h => absurd h (by simp [spellAll_nil])
  | cons node nodes ih =>
    have hrest := ih fun node hn => h node (List.mem_cons_of_mem _ hn)
    have hblock (header inner : List Char) :
        (spellBlock minify depth header inner ++ spellAll minify depth nodes).getLast? ≠
          some '/' := by
      rw [List.getLast?_append]
      cases hl : (spellAll minify depth nodes).getLast? with
      | none => exact getLast?_spellBlock depth header inner
      | some c =>
        rw [hl] at hrest
        exact hrest
    cases node with
    | declaration d => exact absurd (h _ List.mem_cons_self) (by simp [Node.isDeclaration])
    | rule s b =>
      rw [spellAll_rule]
      exact hblock _ _
    | atRule n p c =>
      rw [spellAll_atRule]
      exact hblock _ _

theorem readBlocks_node_append {node : Node} (h : Lasting [node]) (rest : List Char) :
    readBlocks false (spellAll minify depth [node] ++ rest) = node :: readBlocks false rest := by
  have hpad := blank_padding minify depth
  have hline := blank_lineEnd minify
  have hbetween (header inner : List Char) :
      spellBlock minify depth header inner ++ rest =
        (padding minify depth ++ header ++ gap minify) ++
          '{' :: ((lineEnd minify ++ inner ++ padding minify depth) ++
            '}' :: (lineEnd minify ++ rest)) := by
    simpa using spellBlock_between depth [] header inner rest []
  obtain ⟨⟨hread, -⟩, hloose, -, ⟨hbalanced, -⟩⟩ := h
  cases node with
  | declaration d => exact absurd (hloose _ List.mem_cons_self) (by simp [Node.isDeclaration])
  | rule s body =>
    have hs : Plain Piece.isEnd (padding minify depth ++ s.toList ++ gap minify) :=
      ((alike_between hpad (blank_gap minify) _).plain_iff visible_isEnd).mpr hread.1.2
    have hbody : Balanced (spellBody minify (depth + 1) body) :=
      balanced_body (fun d hd => (hread.2 d hd).2.closed) hbalanced
    rw [spellAll_rule, spellAll_nil, List.append_nil, hbetween,
      readBlocks_block hs (balanced_inner minify depth hbody),
      readBlock_style hread.1.1 hpad (blank_gap minify),
      readAll_spellBody hread.2 (depth + 1) hline (blank_padding minify depth),
      readBlocks_blanks hline]
    rfl
  | atRule n p children =>
    have hw := Header.writtenAs_spell minify n p hpad (blank_gap minify)
    have hs := (hw.alike.plain_iff visible_isEnd).mpr hread.1.2
    have hchildren : Balanced (spellAll minify (depth + 1) children) :=
      balanced_spellAll hread.2 hbalanced.2
    have hinner := balanced_inner minify depth hchildren
    rw [spellAll_atRule, spellAll_nil, List.append_nil, hbetween, readBlocks_block hs hinner,
      readBlock_atRule hread.1.1 hw, readInner_balanced hinner,
      readBlocks_spellAll hread.2 hbalanced.2 (Or.inl rfl) (depth + 1) hline
        (blank_padding minify depth), readBlocks_blanks hline]
    rfl

theorem readBlocks_spellAll_append {nodes : List Node} (h : Lasting nodes) (rest : List Char) :
    readBlocks false (spellAll minify depth nodes ++ rest) = nodes ++ readBlocks false rest := by
  induction nodes with
  | nil => rfl
  | cons node nodes ih =>
    obtain ⟨hone, hnodes⟩ := lasting_append.mp (show Lasting ([node] ++ nodes) from h)
    have hnode : node.isDeclaration = false := hone.noneLoose node List.mem_cons_self
    have hspell : spellAll minify depth (node :: nodes) ++ rest =
        spellAll minify depth [node] ++ (spellAll minify depth nodes ++ rest) := by
      simp [spellAll, hnode]
    rw [hspell, readBlocks_node_append depth hone, ih hnodes]
    rfl

end

section
variable {nodes : List Node} (h : Lasting nodes) (minify : Bool)
include h

/-- the comments of what stands behind a printed stylesheet are dropped on their own -/
theorem strip_printSheet_append (rest : String) :
    Comment.strip (printSheet minify nodes ++ rest).toList =
      spellAll minify 0 nodes ++ Comment.strip rest.toList := by
  have hclosed := read_closed h.read
  rw [String.toList_append, toList_printSheet]
  exact strip_append (closed_spellAll hclosed) ((opensComment_spellAll hclosed).mpr h.quiet)
    (getLast?_spellAll 0 h.noneLoose) rest.toList

theorem parse_printSheet_append (rest : String) :
    parse (printSheet minify nodes ++ rest) = nodes ++ parse rest := by
  rw [parse, parseChars, strip_printSheet_append h, readBlocks_spellAll_append 0 h]
  rfl

end

theorem parse_blanks_append {ws : String} (h : Blank ws.toList) (rest : String) :
    parse (ws ++ rest) = parse rest := by
  have hstrip : Comment.strip (ws ++ rest).toList = ws.toList ++ Comment.strip rest.toList := by
    rw [String.toList_append]
    refine strip_append (run_start_blanks h) (opensComment_of_blank start h) ?_ _
    exact fun hl => ne_of_isBlank (h _ (List.mem_of_getLast? hl)) rfl rfl
  rw [parse, parseChars, hstrip, readBlocks_blanks h]
  rfl

end CssOptimizer
