import CssOptimizer.Proofs.Sheet.ReadBack

/-!
# Lasting stylesheets

* `Lasting`, `lasting_iff_parse`   nodes that are read back from what is printed of them;
* `lasting_of_canonical`    canonical stylesheets last;
* `lasting_iff`             a stylesheet lasts if each of its nodes does;
* `Lasting.selector`, `Lasting.withSelector`   the selector of a rule may be any that is tidy and
                            stands for itself.
-/

namespace CssOptimizer
open Scan

structure Lasting (nodes : List Node) : Prop where
  read : MeetsAll .read nodes
  noneLoose : NoneLoose nodes
  quiet : MeetsAll .quiet nodes
  balanced : MeetsAll .balanced nodes

theorem Lasting.parse {nodes : List Node} (h : Lasting nodes) (minify : Bool) :
    CssOptimizer.parse (printSheet minify nodes) = nodes :=
  parse_printSheet_of_read h.read h.noneLoose h.quiet h.balanced minify

theorem lasting_iff_parse {nodes : List Node} (minify : Bool) :
    Lasting nodes ↔ CssOptimizer.parse (printSheet minify nodes) = nodes := by
  refine ⟨fun h => h.parse minify, fun h => ?_⟩
  have hread : MeetsAll .read nodes := h ▸ read_parse _
  have hloose : NoneLoose nodes := h ▸ noneLoose_parse _
  obtain ⟨hquiet, hbalanced⟩ := (parse_printSheet_iff hread hloose minify).mp h
  exact ⟨hread, hloose, hquiet, hbalanced⟩

theorem lasting_of_canonical {nodes : List Node} (h : Canonical nodes) : Lasting nodes :=
  ⟨canonical_read h.1, h.2, canonical_quiet h.1, canonical_balanced h.1⟩

/-! ## lists of nodes -/

theorem lasting_nil : Lasting [] :=
  ⟨trivial, fun _ hn => absurd hn List.not_mem_nil, trivial, trivial⟩

theorem lasting_append {a b : List Node} : Lasting (a ++ b) ↔ Lasting a ∧ Lasting b := by
  constructor
  · intro h
    obtain ⟨hra, hrb⟩ := meetsAll_append.mp h.read
    obtain ⟨hla, hlb⟩ := List.forall_mem_append.mp h.noneLoose
    obtain ⟨hqa, hqb⟩ := meetsAll_append.mp h.quiet
    obtain ⟨hba, hbb⟩ := meetsAll_append.mp h.balanced
    exact ⟨⟨hra, hla, hqa, hba⟩, ⟨hrb, hlb, hqb, hbb⟩⟩
  · rintro ⟨ha, hb⟩
    exact ⟨meetsAll_append.mpr ⟨ha.read, hb.read⟩,
      List.forall_mem_append.mpr ⟨ha.noneLoose, hb.noneLoose⟩,
      meetsAll_append.mpr ⟨ha.quiet, hb.quiet⟩,
      meetsAll_append.mpr ⟨ha.balanced, hb.balanced⟩⟩

theorem lasting_flatten {lists : List (List Node)} (h : ∀ nodes ∈ lists, Lasting nodes) :
    Lasting lists.flatten := by
  induction lists with
  | nil => exact lasting_nil
  | cons nodes lists ih =>
    obtain ⟨hnodes, hlists⟩ := List.forall_mem_cons.mp h
    rw [List.flatten_cons]
    exact lasting_append.mpr ⟨hnodes, ih hlists⟩

theorem lasting_iff {nodes : List Node} : Lasting nodes ↔ ∀ node ∈ nodes, Lasting [node] := by
  induction nodes with
  | nil => exact ⟨fun _ _ hn => absurd hn List.not_mem_nil, fun _ => lasting_nil⟩
  | cons node nodes ih =>
    have hcons : Lasting ([node] ++ nodes) ↔ Lasting [node] ∧ Lasting nodes := lasting_append
    rw [List.forall_mem_cons, ← ih]
    exact hcons

theorem Lasting.filter {nodes : List Node} (h : Lasting nodes) (p : Node → Bool) :
    Lasting (nodes.filter p) :=
  lasting_iff.mpr fun node hn => lasting_iff.mp h node (List.mem_filter.mp hn).1

/-! ## rules -/

theorem Lasting.selector {s : String} {body : List Declaration} (h : Lasting [.rule s body]) :
    TidySelector s ∧ SelfContained s.toList :=
  ⟨h.read.1.1.1, h.read.1.1.2, h.quiet.1.1⟩

theorem Lasting.withSelector {s t : String} {body : List Declaration}
    (h : Lasting [.rule s body]) (ht : TidySelector t) (hc : SelfContained t.toList) :
    Lasting [.rule t body] where
  read := ⟨⟨⟨ht, hc.plain⟩, h.read.1.2⟩, trivial⟩
  noneLoose := List.forall_mem_singleton.mpr rfl
  quiet := ⟨⟨hc.quiet, h.quiet.1.2⟩, trivial⟩
  balanced := h.balanced

end CssOptimizer
