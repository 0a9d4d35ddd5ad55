import CssOptimizer.Proofs.Sheet.RoundTrip
import CssOptimizer.Proofs.Sheet.Key

/-!
# The stylesheets that can be read

Main statement: reading some text gives a stylesheet exactly if its parts are as reading
guarantees and no declaration stands loose at the top (`exists_parse_eq_iff`).

A text is made up for such a stylesheet.

* `Comment.exists_strip_eq`   a text may stand for itself: an empty comment behind a slash keeps
                              the slash from opening one;
* `Scan.strayBraces c k`      a brace as a statement, `k` times: it opens or closes blocks but
                              holds no declaration;
* `exists_body`, `exists_text`   the body of a rule may hold braces that do not close each other,
                              so that it is written between as many braces as it needs.
-/

namespace CssOptimizer
open Scan Text

/-! ## texts that stand for themselves -/

namespace Comment

theorem output_of_isPlain {m : Mode} (hm : isPlain m = true) {c : Char}
    (hc : m = .code → c ≠ '/') : output m c = [c] ∧ isPlain (step m c) = true := by
  cases m with
  | code =>
    rw [output, step, fromCode, if_neg (hc rfl), if_neg (hc rfl)]
    refine ⟨rfl, ?_⟩
    split <;> rfl
  | quoted q =>
    refine ⟨rfl, ?_⟩
    rw [step]
    split
    · rfl
    · split <;> rfl
  | escaped q => exact ⟨rfl, rfl⟩
  | slash => cases hm
  | comment => cases hm
  | star => cases hm

theorem exists_stripFrom_eq {m : Mode} (hm : isPlain m = true) (cs : List Char) :
    ∃ text, stripFrom m text = cs := by
  induction cs generalizing m with
  | nil =>
    refine ⟨[], ?_⟩
    cases m with
    | slash => cases hm
    | _ => rfl
  | cons c cs ih =>
    by_cases hc : m = .code ∧ c = '/'
    · obtain ⟨rfl, rfl⟩ := hc
      obtain ⟨text, ht⟩ := ih (m := .code) rfl
      refine ⟨'/' :: '/' :: '*' :: '*' :: '/' :: text, ?_⟩
      show '/' :: stripFrom .code text = '/' :: cs
      rw [ht]
    · obtain ⟨ho, hs⟩ := output_of_isPlain hm fun h e => hc ⟨h, e⟩
      obtain ⟨text, ht⟩ := ih hs
      refine ⟨c :: text, ?_⟩
      rw [stripFrom_cons, ho, ht]
      rfl

theorem exists_strip_eq (cs : List Char) : ∃ text, strip text = cs :=
  exists_stripFrom_eq rfl cs

end Comment

/-! ## braces as statements -/

namespace Scan

def strayBraces (c : Char) : Nat → List Char
  | 0 => []
  | k + 1 => c :: ';' :: strayBraces c k

theorem quiet_strayBraces {c : Char} (hc : isBrace c = true) (k : Nat) :
    Quiet (strayBraces c k) := by
  have hquiet : ∀ d, d = c ∨ d = ';' → isQuote d = false ∧ d ≠ '(' ∧ d ≠ ')' ∧ d ≠ '\\' := by
    rw [isBrace, Bool.or_eq_true, beq_iff_eq, beq_iff_eq] at hc
    rintro d (rfl | rfl)
    · rcases hc with rfl | rfl <;> decide
    · decide
  induction k with
  | zero => exact fun d hd => absurd hd List.not_mem_nil
  | succ k ih =>
    intro d hd
    rw [strayBraces, List.mem_cons, List.mem_cons] at hd
    rcases hd with hd | hd | hd
    · exact hquiet d (Or.inl hd)
    · exact hquiet d (Or.inr hd)
    · exact ih d hd

theorem closed_strayBraces {c : Char} (hc : isBrace c = true) (k : Nat) :
    Closed (strayBraces c k) :=
  run_start_quiet (quiet_strayBraces hc k)

theorem blocks_strayBraces_open (m k : Nat) :
    blocks m start (strayBraces '{' k) = some (m + k) := by
  induction k generalizing m with
  | zero => rfl
  | succ k ih =>
    show blocks (m + 1) start (strayBraces '{' k) = some (m + (k + 1))
    rw [ih, Nat.add_right_comm, Nat.add_assoc]

theorem blocks_strayBraces_close (k : Nat) : blocks k start (strayBraces '}' k) = some 0 := by
  induction k with
  | zero => rfl
  | succ k ih => exact ih

/-- a character closes one block at most -/
theorem le_innerBlocks (k : Nat) (s : Scan) (c : Char) : k - 1 ≤ innerBlocks k s c := by
  unfold innerBlocks
  split
  · omega
  · split
    · omega
    · split <;> omega

/-- with as many blocks open as it has characters, a text closes none too many -/
theorem exists_blocks {k : Nat} {cs : List Char} (h : cs.length ≤ k) (s : Scan) :
    ∃ j, blocks k s cs = some j := by
  induction cs generalizing k s with
  | nil => exact ⟨k, rfl⟩
  | cons c cs ih =>
    rw [List.length_cons] at h
    have hk : (k == 0) = false := beq_eq_false_iff_ne.mpr (by omega)
    have hle := le_innerBlocks k s c
    rw [blocks, hk, Bool.and_false, if_neg Bool.false_ne_true]
    exact ih (by omega) (s.step c)

end Scan

/-! ## bodies of rules -/

namespace Declaration

/-- a brace as a statement is no declaration -/
theorem readAll_strayBraces {c : Char} (hc : isBrace c = true) (k : Nat) (rest : List Char) :
    readAll (strayBraces c k ++ rest) = readAll rest := by
  have hbrace : Plain (· == ';') [c] ∧ read? [c] = none := by
    rw [isBrace, Bool.or_eq_true, beq_iff_eq, beq_iff_eq] at hc
    rcases hc with rfl | rfl <;> exact ⟨by decide, by decide⟩
  induction k with
  | zero => rfl
  | succ k ih =>
    show readAll ([c] ++ ';' :: (strayBraces c k ++ rest)) = readAll rest
    rw [readAll_append hbrace.1, hbrace.2, ih]
    rfl

theorem read?_chars {d : Declaration} (h : d.Tidy) : read? d.chars = some d :=
  read?_of_writtenAs h ⟨[], [], [], [], ⟨blank_nil, blank_nil, blank_nil, blank_nil⟩, by
    rw [List.append_nil]
    rfl⟩

/-- declarations with a semicolon behind each -/
def lines (ds : List Declaration) : List Char := ds.flatMap fun d => d.chars ++ [';']

theorem lines_cons (d : Declaration) (ds : List Declaration) (rest : List Char) :
    lines (d :: ds) ++ rest = d.chars ++ ';' :: (lines ds ++ rest) := by
  rw [lines, List.flatMap_cons, List.append_assoc, List.append_assoc]
  rfl

theorem closed_lines {ds : List Declaration} (h : ∀ d ∈ ds, d.Separate) : Closed (lines ds) := by
  induction ds with
  | nil => exact closed_nil
  | cons d ds ih =>
    obtain ⟨hd, hds⟩ := List.forall_mem_cons.mp h
    have hsemi : Closed [';'] := step_start_of_isBare isBare_semicolon
    rw [lines, List.flatMap_cons]
    exact (hd.2.closed.append hsemi).append (ih hds)

theorem readAll_lines {ds : List Declaration} (h : ∀ d ∈ ds, d.Separate) (rest : List Char) :
    readAll (lines ds ++ rest) = ds ++ readAll rest := by
  induction ds with
  | nil => rfl
  | cons d ds ih =>
    obtain ⟨hd, hds⟩ := List.forall_mem_cons.mp h
    rw [lines_cons, readAll_append hd.2, read?_chars hd.1, ih hds]
    rfl

theorem exists_body {ds : List Declaration} (h : ∀ d ∈ ds, d.Separate) :
    ∃ body, Balanced body ∧ readAll body = ds := by
  -- so many blocks are opened in front that the declarations cannot close one too many; those
  -- still open behind them are closed there
  obtain ⟨j, hj⟩ := exists_blocks (Nat.le_refl (lines ds).length) start
  have hopen := closed_strayBraces (c := '{') rfl (lines ds).length
  have hclose := closed_strayBraces (c := '}') rfl j
  refine ⟨strayBraces '{' (lines ds).length ++ (lines ds ++ strayBraces '}' j),
    ⟨hopen.append ((closed_lines h).append hclose), ?_⟩, ?_⟩
  · rw [blocks_append, blocks_strayBraces_open, Nat.zero_add, hopen, Option.bind_some,
      blocks_append, hj, closed_lines h, Option.bind_some, blocks_strayBraces_close]
  · have hend : readAll (strayBraces '}' j) = [] := by
      have hr := readAll_strayBraces (c := '}') rfl j []
      rwa [List.append_nil] at hr
    rw [readAll_strayBraces rfl, readAll_lines h, hend, List.append_nil]

end Declaration

/-! ## stylesheets -/

theorem exists_text {nodes : List Node} (h : MeetsAll .read nodes) :
    ∃ text, Balanced text ∧
      ∀ loose, loose = true ∨ NoneLoose nodes → readBlocks loose text = nodes := by
  induction nodes using sheetInduction with
  | nil => exact ⟨[], balanced_nil, fun loose _ => readBlocks_blank blank_nil loose⟩
  | declaration d nodes ih =>
    obtain ⟨rest, hrest, hread⟩ := ih h.2
    refine ⟨d.chars ++ ';' :: rest, ?_, fun loose hl => ?_⟩
    · have hsemi : Balanced [';'] := balanced_singleton isBare_semicolon rfl
      exact (h.1.2.balanced isEnd_of_isBrace).append (hsemi.append hrest)
    · rw [loose_of_declaration hl, readBlocks_statement h.1.2, readStatement, if_pos rfl,
        Declaration.read?_chars h.1.1, hread true (Or.inl rfl)]
      rfl
  | rule s ds nodes ih =>
    obtain ⟨rest, hrest, hread⟩ := ih h.2
    obtain ⟨body, hbody, hds⟩ := Declaration.exists_body h.1.2
    have hs : Plain Piece.isEnd ([] ++ s.toList ++ []) := by
      rw [List.nil_append, List.append_nil]
      exact h.1.1.2
    refine ⟨_, (hs.balanced isEnd_of_isBrace).block hbody hrest, fun loose hl => ?_⟩
    rw [readBlocks_block hs hbody, readBlock_style h.1.1.1 blank_nil blank_nil, hds,
      hread loose (loose_tail hl)]
    rfl
  | atRule n p children nodes ihc ih =>
    obtain ⟨rest, hrest, hread⟩ := ih h.2
    obtain ⟨body, hbody, hinner⟩ := ihc h.1.2
    have hw : Header.WrittenAs n p (headerChars n p) :=
      ⟨[], [' '], [], ⟨blank_nil, blank_replicate 1, blank_nil⟩,
        fun hx => absurd hx (List.cons_ne_nil _ _), (List.append_nil _).symm⟩
    have hheader : Plain Piece.isEnd (headerChars n p) := h.1.1.2
    refine ⟨_, (hheader.balanced isEnd_of_isBrace).block hbody hrest, fun loose hl => ?_⟩
    rw [readBlocks_block hheader hbody, readBlock_atRule h.1.1.1 hw, readInner_balanced hbody,
      hinner true (Or.inl rfl), hread loose (loose_tail hl)]
    rfl

/-- what can be read: any nodes with no loose declaration at the top whose selectors, headers and
declarations are trimmed, close what they open and hold no delimiter at which they would be cut
again -/
theorem exists_parse_eq_iff {nodes : List Node} :
    (∃ css, parse css = nodes) ↔ NoneLoose nodes ∧ MeetsAll .read nodes := by
  constructor
  · rintro ⟨css, rfl⟩
    exact ⟨noneLoose_parse css, read_parse css⟩
  · rintro ⟨hl, h⟩
    obtain ⟨text, -, hread⟩ := exists_text h
    obtain ⟨css, hcss⟩ := Comment.exists_strip_eq text
    refine ⟨String.ofList css, ?_⟩
    rw [parse, String.toList_ofList, parseChars, hcss]
    exact hread false (Or.inr hl)

/-- a value may be a closing brace, if a statement before it opens the block that it closes -/
example : parse ".x\x7b\x7b;a:\x7d\x7d" = [.rule ".x" [⟨"a", "\x7d"⟩]] := by cbv

end CssOptimizer
