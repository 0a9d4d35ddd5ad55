import CssOptimizer.Proofs.Sheet.Seams
import CssOptimizer.Theme

/-!
# Stylesheets glued together

* `Piece.left cs`      what is left of `cs` behind its last complete statement or block;
* `readBlocks_join`    every piece of a text is found in front of any other text, so what is read
                       of both is what is read of the first one, and then of what is left of it with
                       the second one behind;
* `Finished cs`        nothing is left open in `cs`;
* `finished_of_parse`  this is so if the empty rule is read behind `cs` as it stands.

Main statement: a stylesheet is read on its own in front of every other one exactly if nothing is
left open in it (`parse_append_iff`).
-/

namespace CssOptimizer
open Scan Text Comment

/-! ## what is left of a text -/

namespace Piece

def left (cs : List Char) : List Char :=
  match _hn : next cs with
  | .last => cs
  | .statement _ rest => left rest
  | .block _ _ rest => left rest
termination_by cs.length
decreasing_by
  · exact length_of_next_statement _hn
  · exact (length_of_next_block _hn).2

theorem left_of_last {cs : List Char} (h : next cs = .last) : left cs = cs := by
  rw [left]
  split <;> simp_all

theorem left_of_statement {cs text rest : List Char} (h : next cs = .statement text rest) :
    left cs = left rest := by
  rw [left]
  split <;> simp_all

theorem left_of_block {cs header body rest : List Char} (h : next cs = .block header body rest) :
    left cs = left rest := by
  rw [left]
  split <;> simp_all

/-- an induction over the pieces of a text, without the bodies of blocks -/
theorem leftInduction {P : List Char → List Char → Prop}
    (last : ∀ cs, next cs = .last → P cs cs)
    (statement : ∀ cs text rest, next cs = .statement text rest → P rest (left rest) →
      P cs (left rest))
    (block : ∀ cs header body rest, next cs = .block header body rest → P rest (left rest) →
      P cs (left rest)) (cs : List Char) : P cs (left cs) := by
  induction hn : cs.length using Nat.strongRecOn generalizing cs with
  | ind n ih =>
    cases h : next cs with
    | last =>
      rw [left_of_last h]
      exact last cs h
    | statement text rest =>
      rw [left_of_statement h]
      exact statement cs text rest h (ih _ (hn ▸ length_of_next_statement h) rest rfl)
    | block header body rest =>
      rw [left_of_block h]
      exact block cs header body rest h (ih _ (hn ▸ (length_of_next_block h).2) rest rfl)

theorem next_left (cs : List Char) : next (left cs) = .last :=
  leftInduction (P := fun _ rest => next rest = .last) (fun _ h => h) (fun _ _ _ _ ih => ih)
    (fun _ _ _ _ _ ih => ih) cs

/-- the pieces of a text close what they open -/
theorem run_left (cs : List Char) : start.run (left cs) = start.run cs := by
  refine leftInduction (P := fun cs rest => start.run rest = start.run cs) ?_ ?_ ?_ cs
  · exact fun _ _ => rfl
  · intro cs text rest h ih
    obtain ⟨ht, d, hd, rfl⟩ := next_statement_spec h
    have hbare : start.isBare d = true := by rcases hd with rfl | rfl <;> rfl
    rw [ih, run_closed ht.closed, Scan.run_cons, step_start_of_isBare hbare]
  · intro cs header body rest h ih
    obtain ⟨hh, hb, rfl⟩ := next_block_spec h
    rw [ih, run_closed hh.closed]
    show start.run rest = start.run (body ++ '}' :: rest)
    rw [run_closed hb.closed]
    rfl

/-! ## joined texts -/

theorem next_append_statement {a text rest : List Char} (h : next a = .statement text rest)
    (b : List Char) : next (a ++ b) = .statement text (rest ++ b) := by
  unfold next at h
  split at h
  · cases h
  · rename_i before d after hcut
    rw [next, cut_append_of_cut hcut b]
    split at h
    · split at h <;> cases h
    · rename_i hd
      cases h
      simp only [if_neg hd]

theorem next_append_block {a header body rest : List Char} (h : next a = .block header body rest)
    (b : List Char) : next (a ++ b) = .block header body (rest ++ b) := by
  unfold next at h
  split at h
  · cases h
  · rename_i before d after hcut
    rw [next, cut_append_of_cut hcut b]
    split at h
    · rename_i hd
      split at h
      · cases h
      · rename_i inner behind hclose
        cases h
        simp only [if_pos hd, close_append_of_close b hclose]
    · cases h

end Piece

theorem readBlocks_join (a b : List Char) :
    readBlocks false (a ++ b) = readBlocks false a ++ readBlocks false (Piece.left a ++ b) := by
  refine Piece.leftInduction (P := fun a rest =>
    readBlocks false (a ++ b) = readBlocks false a ++ readBlocks false (rest ++ b)) ?_ ?_ ?_ a
  · intro a h
    rw [readBlocks_eq_of_last h]
    rfl
  · intro a text rest h ih
    rw [readBlocks_eq_of_statement (Piece.next_append_statement h b), ih,
      readBlocks_eq_of_statement h, List.append_assoc]
  · intro a header body rest h ih
    rw [readBlocks_eq_of_block (Piece.next_append_block h b), ih, readBlocks_eq_of_block h,
      List.append_assoc]

/-! ## texts in front of any other -/

/-- nothing is left open in a text: it ends outside strings and comments, and only blanks stand
behind its last statement or block -/
structure Finished (cs : List Char) : Prop where
  inCode : EndsInCode cs
  blank : Blank (Piece.left (strip cs))

instance (cs : List Char) : Decidable (Finished cs) :=
  decidable_of_iff (EndsInCode cs ∧ Blank (Piece.left (strip cs)))
    ⟨fun h => ⟨h.1, h.2⟩, fun h => ⟨h.inCode, h.blank⟩⟩

theorem Finished.parse_append {a : String} (h : Finished a.toList) {b : String}
    (hab : MarksApart a.toList b.toList) : parse (a ++ b) = parse a ++ parse b := by
  rw [parse, parseChars, String.toList_append, strip_join h.inCode hab, readBlocks_join,
    readBlocks_blanks h.blank]
  rfl

/-! ## the rule that tells -/

/-- an empty rule -/
def emptyRule : List Char := ['x', '{', '}']

theorem quiet_emptyRule : Quiet emptyRule := by
  intro c hc
  have hone : c = 'x' ∨ c = '{' ∨ c = '}' := by simpa [emptyRule] using hc
  rcases hone with rfl | rfl | rfl <;> decide

/-- in a string or in parentheses nothing is bare as long as only quiet characters follow -/
theorem Scan.Sound.hasBare_quiet {s : Scan} (hs : s.Sound) (hne : s ≠ start) {cs : List Char}
    (h : Quiet cs) (stop : Char → Bool) : hasBare stop s cs = false := by
  induction cs generalizing s with
  | nil => rfl
  | cons c cs ih =>
    have hbare : s.isBare c = false := Bool.eq_false_iff.mpr fun hb => hne (eq_start_of_isBare hb)
    have hone : Quiet [c] := h.mono (by simp)
    have hnext : s.step c ≠ start := fun he => hne (hs.eq_start_of_run_quiet hone he)
    rw [hasBare, hbare, ih (hs.step c) hnext (h.mono fun d hd => List.mem_cons_of_mem c hd)]
    rfl

/-- an empty rule closes no block that is open before it -/
theorem close_emptyRule (k : Nat) {s : Scan} (hs : s.Sound) : close k s emptyRule = none := by
  have hblocks : blocks k s emptyRule = some k := by
    by_cases hstart : s = start
    · rw [hstart]
      cases k <;> rfl
    · exact blocks_of_hasBare (hs.hasBare_quiet hstart quiet_emptyRule isBrace) k
  have happend := close_append [] hblocks
  rwa [List.append_nil, close, Option.map_none] at happend

/-- a block that is left open stays open -/
theorem next_append_emptyRule {cs before rest : List Char} {d : Char}
    (hcut : cut Piece.isEnd start cs = some (before, d, rest)) (hlast : Piece.next cs = .last) :
    Piece.next (cs ++ emptyRule) = .last := by
  rw [Piece.next, hcut] at hlast
  simp only at hlast
  split at hlast
  · rename_i hd
    cases hopen : close 0 start rest with
    | some r =>
      rw [hopen] at hlast
      cases hlast
    | none =>
      have hsome : blocks 0 start rest ≠ none := by
        intro hn
        obtain ⟨body, behind, -, hclose⟩ := exists_of_blocks_eq_none hn
        rw [hopen] at hclose
        cases hclose
      obtain ⟨k, hk⟩ := Option.ne_none_iff_exists'.mp hsome
      have hclose : close 0 start (rest ++ emptyRule) = none := by
        rw [close_append emptyRule hk, close_emptyRule k (sound_start.run rest)]
        rfl
      rw [Piece.next, cut_append_of_cut hcut]
      simp only [if_pos hd, hclose]
  · cases hlast

/-- a text that is read as a part of no selector is blank -/
theorem blank_of_readBlock {cs body : List Char} {nodes : List Declaration}
    (h : readBlock (cs ++ ['x']) body = [.rule "x" nodes]) : Blank cs := by
  unfold readBlock at h
  split at h
  · exact absurd h.symm (List.cons_ne_nil _ _)
  · rename_i selector hread
    rw [List.cons.injEq, Node.rule.injEq] at h
    have hx : selector = ['x'] := by rw [← String.toList_ofList (l := selector), h.1.1]; rfl
    obtain ⟨-, a, b, ⟨ha, hb⟩, he⟩ := Header.of_read?_style hread
    rw [hx] at he
    rcases List.eq_nil_or_concat b with rfl | ⟨init, c, rfl⟩
    · rw [List.append_nil] at he
      rw [List.append_cancel_right he]
      exact ha
    · rw [List.concat_eq_append, ← List.append_assoc] at he
      have hc : 'x' = c := (List.append_inj_right' he rfl |> List.cons.inj).1
      have hblank : isBlank c = true := hb c (by simp)
      exact absurd hc (ne_of_isBlank hblank rfl).symm
  · exact absurd (List.cons.inj h).1 Node.noConfusion

/-- behind something that is left open the empty rule is not read as it stands -/
theorem blank_of_readBlocks {cs : List Char} (hlast : Piece.next cs = .last)
    (h : readBlocks false (cs ++ emptyRule) = [.rule "x" []]) : Blank cs := by
  have hread : Piece.next (cs ++ emptyRule) ≠ .last := by
    intro hn
    rw [readBlocks_eq_of_last hn] at h
    exact List.cons_ne_nil _ _ h.symm
  cases hcut : cut Piece.isEnd start cs with
  | some r =>
    obtain ⟨before, d, rest⟩ := r
    exact absurd (next_append_emptyRule hcut hlast) hread
  | none =>
    have hbare := cut_eq_none_iff.mp hcut
    by_cases hclosed : Closed cs
    · have hheader : Plain Piece.isEnd (cs ++ ['x']) := Plain.append ⟨hclosed, hbare⟩ (by decide)
      have hsplit : cs ++ emptyRule = (cs ++ ['x']) ++ '{' :: ([] ++ '}' :: []) := by
        simp [emptyRule]
      rw [hsplit, readBlocks_block hheader balanced_nil, readBlocks_blank blank_nil,
        List.append_nil] at h
      exact blank_of_readBlock h
    · have hrest := (sound_start.run cs).hasBare_quiet hclosed quiet_emptyRule Piece.isEnd
      refine absurd (next_of_hasBare ?_) hread
      rw [hasBare_append, hbare, hrest]
      rfl

theorem strip_append_of_endsInComment {a : List Char} (h : endsInComment a = true) :
    strip (a ++ emptyRule) = strip a := by
  have hjoin : strip (a ++ emptyRule) =
      passed .code a ++ stripFrom (Comment.run .code a) emptyRule := stripFrom_append .code a _
  have hone : strip a = passed .code a ++ final (Comment.run .code a) := rfl
  rw [hjoin, hone]
  rw [endsInComment] at h
  cases hm : Comment.run .code a with
  | comment => rfl
  | star => rfl
  | _ =>
    rw [hm] at h
    exact absurd h Bool.false_ne_true

theorem finished_of_parse {a : String}
    (h : parse (a ++ String.ofList emptyRule) = parse a ++ [.rule "x" []]) :
    Finished a.toList := by
  rw [parse, parseChars, String.toList_append, String.toList_ofList, parse, parseChars] at h
  have hcomment : endsInComment a.toList = false := by
    rw [Bool.eq_false_iff]
    intro hc
    rw [strip_append_of_endsInComment hc] at h
    exact List.cons_ne_nil _ _ (List.self_eq_append_right.mp h)
  rw [strip_append_of_no_slash hcomment (by decide) (by decide), readBlocks_join,
    List.append_cancel_left_eq] at h
  have hblank : Blank (Piece.left (strip a.toList)) :=
    blank_of_readBlocks (Piece.next_left _) h
  refine ⟨endsInCode_of_closed hcomment ?_, hblank⟩
  rw [Closed, ← Piece.run_left, run_start_blanks hblank]

/-! ## all of it -/

/-- a stylesheet is read on its own in front of every other one exactly if nothing is left open in
it, and the theme is such a stylesheet if its rule is canonical -/
theorem parse_append_iff :
    (∀ a : String, (∀ b : String, MarksApart a.toList b.toList →
        parse (a ++ b) = parse a ++ parse b) ↔ Finished a.toList) ∧
      ∀ (t : Theme) (minify : Bool), t.isEmpty = false → Canonical [t.node] →
        ∀ css, parse (t.css minify ++ css) = t.node :: parse css := by
  constructor
  · intro a
    refine ⟨fun h => finished_of_parse ?_, fun h b hab => h.parse_append hab⟩
    have hrule : parse (String.ofList emptyRule) = [.rule "x" []] := by decide +kernel
    rw [h _ (marksApart_of_ne (by decide) _), hrule]
  · intro t minify ht hroot css
    have hcss : t.css minify = printSheet minify [t.node] := if_neg (by simp [ht])
    rw [hcss, parse_printSheet_append (lasting_of_canonical hroot)]
    rfl

/-- a statement with a semicolon in a string, a rule, a closing brace too many and a comment -/
def importSheet : String := "@import \x27a;b\x27;.a\x7bp:1\x7d \x7d /* \x7b */\n"

def gapTheme : Theme := ({} : Theme).withToken "gap" "sm" "4px"

theorem parse_append_importSheet :
    Finished importSheet.toList ∧ MarksApart importSheet.toList "*\x7bq:2\x7d".toList ∧
      parse (importSheet ++ "*\x7bq:2\x7d") = [.rule ".a" [⟨"p", "1"⟩], .rule "*" [⟨"q", "2"⟩]] ∧
      gapTheme.isEmpty = false ∧ Canonical [gapTheme.node] ∧
      parse (gapTheme.css true ++ "*\x7bq:2\x7d") =
        [.rule ":root" [⟨"--gap-sm", "4px"⟩], .rule "*" [⟨"q", "2"⟩]] := by
  obtain ⟨hany, htheme⟩ := parse_append_iff
  have ha : Finished importSheet.toList := by decide +kernel
  have hab : MarksApart importSheet.toList "*\x7bq:2\x7d".toList := by decide +kernel
  have ht : gapTheme.isEmpty = false := by decide +kernel
  have hroot : Canonical [gapTheme.node] := by decide +kernel
  refine ⟨ha, hab, ?_, ht, hroot, ?_⟩
  · rw [(hany importSheet).mpr ha _ hab]
    decide +kernel
  · rw [htheme gapTheme true ht hroot]
    decide +kernel

end CssOptimizer
