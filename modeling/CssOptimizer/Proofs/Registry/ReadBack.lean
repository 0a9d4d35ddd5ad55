import CssOptimizer.Proofs.Registry.Runs
import CssOptimizer.Proofs.Selector.Classes
import CssOptimizer.Proofs.Sheet.Lasting

/-!
# Registered bodies as parsed ones

A body is registered with its comments, which parsing drops.  So what is stored for a text is what
is parsed of it where no comment makes a difference, as in texts without comments.

* `parse_rule`           what is parsed of a text between the braces of a rule;
* `FitBody`              texts that close what they open, without braces and comments;
* `ReadsAlike`           texts that have the same declarations without their comments;
* `canonical_readAll`    the declarations of fit bodies stand for themselves;
* `declarations?`, `stored_run`   what is stored for the class of a text;
* `rule_of_declarations?`         where it is stored;
* `readsBack_run`        how this agrees with what is parsed, and what is extracted.
-/

namespace CssOptimizer
open Scan Text

/-! ## texts in a rule -/

theorem readBlocks_rule {body : List Char} (h : Balanced body) :
    readBlocks false (".x\x7b".toList ++ (body ++ ['}'])) =
      [.rule ".x" (Declaration.readAll body)] := by
  have hsplit : ".x\x7b".toList ++ (body ++ ['}']) =
      ".x".toList ++ '{' :: (body ++ '}' :: []) := rfl
  have hone : readBlock ([] ++ ".x".toList ++ []) body = [.rule ".x" (Declaration.readAll body)] :=
    readBlock_style (by decide) blank_nil blank_nil body
  rw [hsplit, readBlocks_block (by decide) h, readBlocks_blank blank_nil, List.append_nil]
  exact hone

theorem parse_rule {text : String} (hc : endsInComment text.toList = false)
    (hp : Plain isBrace (Comment.strip text.toList)) :
    parse (".x\x7b" ++ text ++ "\x7d") =
      [.rule ".x" (Declaration.readAll (Comment.strip text.toList))] := by
  have hpassed : Comment.passed .code ".x\x7b".toList = ".x\x7b".toList := by decide
  have hrun : Comment.run .code ".x\x7b".toList = .code := by decide
  have hstrip : Comment.strip (".x\x7b" ++ text ++ "\x7d").toList =
      ".x\x7b".toList ++ (Comment.strip text.toList ++ ['}']) := by
    rw [String.toList_append, String.toList_append, List.append_assoc, Comment.strip,
      Comment.stripFrom_append, hpassed, hrun]
    exact congrArg _ (strip_append_of_no_slash hc (by decide) (by decide))
  rw [parse, parseChars, hstrip, readBlocks_rule (hp.balanced fun _ h => h)]

/-! ## bodies that stand for themselves -/

/-- a text of declarations that closes its strings and parentheses and has neither braces outside
them nor comments outside strings -/
structure FitBody (text : String) : Prop where
  plain : Plain isBrace text.toList
  quiet : opensComment start text.toList = false

instance (text : String) : Decidable (FitBody text) :=
  decidable_of_iff (Plain isBrace text.toList ∧ opensComment start text.toList = false)
    ⟨fun h => ⟨h.1, h.2⟩, fun h => ⟨h.plain, h.quiet⟩⟩

structure ReadsAlike (text : String) : Prop where
  closed : endsInComment text.toList = false
  plain : Plain isBrace (Comment.strip text.toList)
  readAll_strip : Declaration.readAll (Comment.strip text.toList) = parseDeclarations text

theorem ReadsAlike.parse {text : String} (h : ReadsAlike text) :
    parse (".x\x7b" ++ text ++ "\x7d") = [.rule ".x" (parseDeclarations text)] := by
  rw [parse_rule h.closed h.plain, h.readAll_strip]

theorem FitBody.readsAlike {text : String} (h : FitBody text) : ReadsAlike text := by
  have hstrip := strip_of_not_opensComment h.quiet
  refine ⟨not_endsInComment h.quiet, ?_, ?_⟩
  · rw [hstrip]
    exact h.plain
  · rw [hstrip]
    rfl

theorem hasBare_isEnd {s : Scan} {cs : List Char} (hs : hasBare (· == ';') s cs = false)
    (hb : hasBare isBrace s cs = false) : hasBare Piece.isEnd s cs = false := by
  induction cs generalizing s with
  | nil => rfl
  | cons c cs ih =>
    rw [hasBare, Bool.or_eq_false_iff] at hs hb ⊢
    refine ⟨?_, ih hs.2 hb.2⟩
    cases hbare : s.isBare c with
    | false => rfl
    | true =>
      rw [hbare, Bool.true_and] at hs hb
      rw [isBrace, Bool.or_eq_false_iff] at hb
      rw [Bool.true_and, Piece.isEnd, hs.1, hb.1.1, hb.1.2]
      rfl

theorem selfContained_of_read? {seg : List Char} (hs : hasBare (· == ';') start seg = false)
    (hp : Plain isBrace seg) (hq : opensComment start seg = false) {d : Declaration}
    (hd : Declaration.read? seg = some d) : d.Tidy ∧ SelfContained d.chars := by
  have hend : Plain Piece.isEnd seg := ⟨hp.closed, hasBare_isEnd hs hp.noBare⟩
  obtain ⟨htidy, hplain⟩ := Declaration.of_read? visible_isEnd hend hd
  have halike := (Declaration.writtenAs_of_read? hd).2.alike
  exact ⟨htidy, hplain, halike.opens ▸ hq⟩

theorem canonical_readAll (cs : List Char) : Plain isBrace cs → opensComment start cs = false →
    ∀ d ∈ Declaration.readAll cs, d.Tidy ∧ SelfContained d.chars := by
  refine Declaration.bodyInduction (P := fun cs ds => Plain isBrace cs →
    opensComment start cs = false → ∀ d ∈ ds, d.Tidy ∧ SelfContained d.chars) ?_ ?_ cs
  · intro seg hs hp hq d hd
    exact selfContained_of_read? hs hp hq (Option.mem_toList.mp hd)
  · intro seg rest hseg ih hp hq d hd
    have hclosed : Closed (';' :: rest) := closed_of_append hseg.closed hp.closed
    have hbare := hp.noBare
    rw [hasBare_append, hseg.closed, Bool.or_eq_false_iff] at hbare
    rw [opensComment_append_cons _ _ _ (by decide) (by decide), hseg.closed,
      Bool.or_eq_false_iff] at hq
    rcases List.mem_append.mp hd with hd | hd
    · exact selfContained_of_read? hseg.noBare ⟨hseg.closed, hbare.1⟩ hq.1
        (Option.mem_toList.mp hd)
    · exact ih ⟨hclosed, hbare.2⟩ hq.2 d hd

/-! ## classes as selectors -/

/-- the selector of a class with an id -/
def classSelector (classPrefix : String) (id : Nat) : String :=
  "." ++ (classPrefix ++ toString id)

theorem toList_classSelector (classPrefix : String) (id : Nat) :
    (classSelector classPrefix id).toList =
      '.' :: (classPrefix.toList ++ (toString id).toList) := by
  rw [classSelector, String.toList_append, String.toList_append]
  rfl

theorem tidySelector_class (classPrefix : String) (id : Nat) :
    TidySelector (classSelector classPrefix id) := by
  have hne := toString_ne_nil id
  obtain ⟨last, hlast⟩ : ∃ last, last = (toString id).toList.getLast hne := ⟨_, rfl⟩
  have hdigit : isBlank last = false :=
    isBlank_of_isDigit (isDigit_toString (hlast ▸ List.getLast_mem hne))
  have hchars : (classSelector classPrefix id).toList =
      ('.' :: (classPrefix.toList ++ (toString id).toList.dropLast)) ++ last :: [] := by
    rw [toList_classSelector, hlast, List.cons_append, List.append_assoc,
      List.dropLast_concat_getLast hne]
  refine ⟨?_, ?_, ?_⟩
  · rw [toList_classSelector]
    exact List.cons_ne_nil _ _
  · rw [Trimmed, trim, hchars, List.cons_append, trimStart_of_not_isBlank rfl, ← List.cons_append,
      trimEnd_append_cons _ hdigit]
    rfl
  · rw [toList_classSelector, List.head?_cons]
    decide

theorem selfContained_class {classPrefix : String} (h : SelfContained classPrefix.toList)
    (id : Nat) : SelfContained (classSelector classPrefix id).toList := by
  have hdigits := selfContained_of_isName fun c (hc : c ∈ (toString id).toList) =>
    isName_of_isDigit (isDigit_toString hc)
  have hdot : Plain Piece.isEnd ['.'] := by decide
  have hhead : (toString id).toList.head? ≠ some '*' := fun hh =>
    ne_of_isDigit (isDigit_toString (List.mem_of_mem_head? hh)) rfl rfl
  rw [toList_classSelector]
  refine ⟨hdot.append (h.plain.append hdigits.plain), ?_⟩
  rw [opensComment_cons_of_ne _ (by decide)]
  show opensComment start _ = false
  rw [opensComment_append _ _ hhead, h.quiet, h.plain.closed, hdigits.quiet]
  rfl

/-! ## registries -/

namespace Registry

/-- registrations whose nodes are read back -/
def Registration.Fits : Registration → Prop
  | .style text => FitBody text
  | .block css => MeetsAll .quiet (parse css) ∧ MeetsAll .balanced (parse css)

instance : (reg : Registration) → Decidable reg.Fits
  | .style text => inferInstanceAs (Decidable (FitBody text))
  | .block _ => inferInstanceAs (Decidable (_ ∧ _))

theorem lasting_nodes {classPrefix : String} (hcontained : SelfContained classPrefix.toList)
    {reg : Registration} (h : reg.Fits) (id : Nat) : Lasting (reg.nodes classPrefix id) := by
  cases reg with
  | style text =>
    refine lasting_of_canonical ⟨⟨⟨⟨tidySelector_class classPrefix id,
      selfContained_class hcontained id⟩, canonical_readAll _ h.plain h.quiet⟩, trivial⟩, ?_⟩
    intro node hn
    rw [List.mem_singleton.mp hn]
    rfl
  | block css => exact ⟨read_parse css, noneLoose_parse css, h.1, h.2⟩

theorem css_optimized {options : Options} (hpurge : options.purge = false)
    (hmerge : options.deduplicate = false) (hatomic : options.atomic = false) (r : Registry)
    (usage : Option Usage) :
    (r.optimized none usage options).css =
      printSheet options.minify (parse (printSheet false r.nodes)) := by
  have hsheet : r.sheet none = printSheet false r.nodes := String.empty_append
  have hp (o : Optimized) : purgeStep options usage o = o := by
    unfold purgeStep
    rw [hpurge]
  have hm (o : Optimized) : mergeStep options o = o := by
    rw [mergeStep, hmerge]
    rfl
  have ha (o : Optimized) : atomicStep Digest.hexDigest options o = o := by
    rw [atomicStep, hatomic]
    rfl
  have hnodes (nodes : List Node) :
      (optimizeNodes Digest.hexDigest options usage nodes).nodes = nodes := by
    rw [optimizeNodes, hp, hm, ha]
  show printSheet options.minify (optimizeNodes Digest.hexDigest options usage
    (parse (r.sheet none))).nodes = _
  rw [hnodes, hsheet]

section
variable {hash : String → String} {calls : List Call} {classPrefix : String}

theorem lasting_run (hapart : Apart hash (recent calls))
    (hcontained : SelfContained classPrefix.toList) (hfits : ∀ reg ∈ recent calls, reg.Fits) :
    Lasting (run hash classPrefix calls).nodes := by
  have hrun : run hash classPrefix calls = _ := run_eq_holding hapart
  rw [hrun, nodes_holding]
  refine lasting_flatten fun nodes hn => ?_
  obtain ⟨i, hi, rfl⟩ := List.mem_mapIdx.mp hn
  exact lasting_nodes hcontained (hfits _ (mem_of_mem_firsts (List.getElem_mem hi))) i

def declarations? (r : Registry) (className : String) : Option (List Declaration) :=
  (r.entries.find? (·.className = some className)).bind fun entry =>
    match entry.nodes with
    | .rule _ body :: _ => some body
    | _ => none

theorem declarations?_holding {kept : List Registration} {id : Nat} {text : String}
    (h : kept[id]? = some (.style text)) :
    (holding hash classPrefix kept).declarations? (classPrefix ++ toString id) =
      some (parseDeclarations text) := by
  rw [declarations?, find?_className h]
  rfl

theorem rule_of_declarations? {className : String} {body : List Declaration}
    (h : (run hash classPrefix calls).declarations? className = some body) :
    ∃ id : Nat, className = classPrefix ++ toString id ∧
      Node.rule ("." ++ className) body ∈ (run hash classPrefix calls).nodes := by
  obtain ⟨e, he, hbody⟩ := Option.bind_eq_some_iff.mp h
  have hm := List.mem_of_find?_eq_some he
  have htest := List.find?_some he
  have hclass : e.className = some className := of_decide_eq_true htest
  obtain ⟨id, reg, hreg⟩ := exists_registration hm
  rw [hreg] at hclass hbody
  cases reg with
  | block css => exact absurd hclass (Option.some_ne_none _).symm
  | style text =>
    obtain rfl := Option.some.inj hclass
    obtain rfl := Option.some.inj hbody
    refine ⟨id, rfl, List.mem_flatMap.mpr ⟨e, hm, ?_⟩⟩
    rw [hreg]
    exact List.mem_cons_self

/-- a text is new if nothing was registered before with the same keys -/
def IsNew (regs : List Registration) (text : String) : Prop :=
  ∀ s, .style s ∈ regs →
    (parseDeclarations s).map Declaration.key ≠ (parseDeclarations text).map Declaration.key

theorem not_mem_firsts_of_isNew {regs : List Registration} {text : String}
    (h : IsNew regs text) :
    (Registration.style text).content ∉ (firsts regs).map Registration.content := by
  intro hmem
  obtain ⟨reg, hreg, hcontent⟩ := List.mem_map.mp hmem
  cases reg with
  | block css => exact absurd hcontent Content.noConfusion
  | style s => exact h s (mem_of_mem_firsts hreg) (Content.style.inj hcontent)

theorem stored_run (classPrefix : String) {before after : List Call} {text : String}
    (hapart : Apart hash (recent calls))
    (hcalls : calls = before ++ .register (.style text) :: after) (hafter : Call.clear ∉ after) :
    ∃ body, (run hash classPrefix calls).declarations?
          ((run hash classPrefix before).addStyle hash text).1.className = some body ∧
        body.map Declaration.key = (parseDeclarations text).map Declaration.key ∧
        (IsNew (recent before) text → body = parseDeclarations text) := by
  obtain ⟨hanswer, hmem⟩ := addStyle_run classPrefix (hcalls ▸ hapart) hafter
  rw [← hcalls] at hanswer hmem
  obtain ⟨first, hfirst, hkeys⟩ := exists_first hmem
  have hrun : run hash classPrefix calls = _ := run_eq_holding hapart
  rw [hrun, hanswer]
  refine ⟨parseDeclarations first, declarations?_holding hfirst, hkeys, fun hnew => ?_⟩
  obtain ⟨later, hlater⟩ := recent_split before (.style text) hafter
  rw [hcalls, hlater, getElem?_slot_of_not_mem (not_mem_firsts_of_isNew hnew)] at hfirst
  rw [Registration.style.inj (Option.some.inj hfirst)]

/-! ## all of it -/

/-- how the bodies that are registered in a run agree with what is parsed of their texts -/
structure ReadsBack (hash : String → String) (classPrefix : String) (calls : List Call) :
    Prop where
  parsed : ∀ text, endsInComment text.toList = false →
    Plain isBrace (Comment.strip text.toList) →
    parse (".x\x7b" ++ text ++ "\x7d") =
      [.rule ".x" (Declaration.readAll (Comment.strip text.toList))]
  stored : Apart hash (recent calls) → ∀ before text after,
    calls = before ++ .register (.style text) :: after → Call.clear ∉ after →
    ∃ body, (run hash classPrefix calls).declarations?
          ((run hash classPrefix before).addStyle hash text).1.className = some body ∧
      body.map Declaration.key = (parseDeclarations text).map Declaration.key ∧
      (IsNew (recent before) text → body = parseDeclarations text)
  agrees : Apart hash (recent calls) → ∀ before text after,
    calls = before ++ .register (.style text) :: after → Call.clear ∉ after →
    endsInComment text.toList = false → Plain isBrace (Comment.strip text.toList) →
    ∃ parsed body, parse (".x\x7b" ++ text ++ "\x7d") = [.rule ".x" parsed] ∧
      (run hash classPrefix calls).declarations?
          ((run hash classPrefix before).addStyle hash text).1.className = some body ∧
      (ReadsAlike text → body.map Declaration.key = parsed.map Declaration.key) ∧
      (IsNew (recent before) text → (body = parsed ↔ ReadsAlike text))
  alike : ∀ text, FitBody text → ReadsAlike text
  handles : ∀ before₁ s after₁ before₂ t after₂,
    calls = before₁ ++ .register (.style s) :: after₁ → Call.clear ∉ after₁ →
    calls = before₂ ++ .register (.style t) :: after₂ → Call.clear ∉ after₂ →
    ReadsAlike s → ReadsAlike t →
    parse (".x\x7b" ++ s ++ "\x7d") = parse (".x\x7b" ++ t ++ "\x7d") →
    ((run hash classPrefix before₁).addStyle hash s).1 =
      ((run hash classPrefix before₂).addStyle hash t).1
  extracted : Apart hash (recent calls) → SelfContained classPrefix.toList →
    (∀ reg ∈ recent calls, reg.Fits) →
    ∀ usage options, options.purge = false → options.deduplicate = false →
    options.atomic = false →
    parse ((run hash classPrefix calls).optimized none usage options).css =
      (run hash classPrefix calls).nodes

theorem readsBack_run (hash : String → String) (classPrefix : String) (calls : List Call) :
    ReadsBack hash classPrefix calls := by
  constructor
  case parsed => exact fun text => parse_rule
  case stored =>
    intro hapart before text after hcalls hafter
    exact stored_run classPrefix hapart hcalls hafter
  case agrees =>
    intro hapart before text after hcalls hafter hclosed hplain
    obtain ⟨body, hbody, hkeys, hnew⟩ := stored_run classPrefix hapart hcalls hafter
    refine ⟨_, body, parse_rule hclosed hplain, hbody, fun h => ?_, fun h => ?_⟩
    · rw [h.readAll_strip, hkeys]
    · rw [hnew h]
      exact ⟨fun he => ⟨hclosed, hplain, he.symm⟩, fun h => h.readAll_strip.symm⟩
  case alike => exact fun text => FitBody.readsAlike
  case handles =>
    intro before₁ s after₁ before₂ t after₂ hs hs' ht ht' halikes halike hparse
    rw [halikes.parse, halike.parse, List.cons.injEq, Node.rule.injEq] at hparse
    exact addStyle_eq_of_keys hs hs' ht ht' (congrArg (List.map _) hparse.1.2)
  case extracted =>
    intro hapart hcontained hfits usage options hpurge hmerge hatomic
    have hlasting : Lasting (run hash classPrefix calls).nodes :=
      lasting_run hapart hcontained hfits
    rw [css_optimized hpurge hmerge hatomic, hlasting.parse, hlasting.parse]

end

/-- strings and parentheses around delimiters, and a body that is registered twice -/
def quotedBodies : List Call :=
  [.register (.style "content:\x22;/*\x22;background:url(a;b)"),
    .register (.block "html\x7bmargin:0\x7d"),
    .register (.style " content:\x22;/*\x22 ; background : url(a;b)")]

theorem readsBack_quotedBodies :
    Apart Digest.hexDigest (recent quotedBodies) ∧ SelfContained "zx-".toList ∧
      (∀ reg ∈ recent quotedBodies, reg.Fits) ∧
      parse ((run Digest.hexDigest "zx-" quotedBodies).optimized none none {}).css =
        (run Digest.hexDigest "zx-" quotedBodies).nodes := by
  have hapart : Apart Digest.hexDigest (recent quotedBodies) := by decide +kernel
  have hcontained : SelfContained "zx-".toList := by decide
  have hfits : ∀ reg ∈ recent quotedBodies, reg.Fits := by decide +kernel
  refine ⟨hapart, hcontained, hfits, ?_⟩
  exact (readsBack_run Digest.hexDigest "zx-" quotedBodies).extracted hapart hcontained hfits
    none {} rfl rfl rfl

/-- a declaration behind a comment with a semicolon in it -/
def notedBody : String := "/* note; */ color: red"

/-- what is stored for a text with a comment need not be what is parsed of it, and the text does
not get the class of the same body without the comment -/
theorem noted_stored :
    endsInComment notedBody.toList = false ∧
      Plain isBrace (Comment.strip notedBody.toList) ∧
      parse (".x\x7b" ++ notedBody ++ "\x7d") = [.rule ".x" [⟨"color", "red"⟩]] ∧
      parse ".x\x7bcolor: red\x7d" = [.rule ".x" [⟨"color", "red"⟩]] ∧
      (run Digest.hexDigest "c" [.register (.style "color: red"),
        .register (.style notedBody)]).entries.map (fun e => (e.className, e.nodes)) =
        [(some "c0", [.rule ".c0" [⟨"color", "red"⟩]]),
          (some "c1", [.rule ".c1" [⟨"*/ color", "red"⟩]])] := by
  decide +kernel

end Registry
end CssOptimizer
