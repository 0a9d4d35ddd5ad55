import CssOptimizer.Proofs.Sheet.Key
import CssOptimizer.Registry

/-!
# The text of a registered body

The text that a body is registered under is the keys of its declarations with semicolons between
them.  A scan finds these semicolons again, also if the last declaration leaves a string or a
parenthesis open, so that the text tells the keys.

* `Joinable`                          texts that can be taken apart again when they are joined;
* `split_intercalate`                 taking them apart;
* `bodyText_parseDeclarations_iff`    bodies with the same text are those with the same keys.
-/

namespace CssOptimizer
open Scan Text

/-! ## joined texts -/

/-- texts without a bare separator, of which only the last one may leave something open -/
def Joinable (d : Char) : List (List Char) → Prop
  | [] => True
  | t :: ts => hasBare (· == d) start t = false ∧ (ts ≠ [] → Closed t) ∧ Joinable d ts

theorem joinable_cons {d : Char} {t : List Char} {ts : List (List Char)}
    (ht : Plain (· == d) t) (hts : Joinable d ts) : Joinable d (t :: ts) :=
  ⟨ht.noBare, fun _ => ht.closed, hts⟩

theorem split_intercalate {d : Char} (hd : start.isBare d = true) {ts : List (List Char)}
    (h : Joinable d ts) (hne : ts ≠ []) : split d start ([d].intercalate ts) = ts := by
  induction ts with
  | nil => exact absurd rfl hne
  | cons t ts ih =>
    obtain ⟨ht, hclosed, hts⟩ := h
    cases ts with
    | nil => rw [List.intercalate_singleton, split_of_hasBare ht]
    | cons u ts =>
      have hcons : [d].intercalate (t :: u :: ts) = t ++ d :: [d].intercalate (u :: ts) := by
        rw [List.intercalate_cons_cons, List.append_assoc]
        rfl
      have hplain : Plain (· == d) t := ⟨hclosed (List.cons_ne_nil u ts), ht⟩
      rw [hcons, split_plain hplain hd, ih hts (List.cons_ne_nil u ts)]

/-! ## bodies -/

theorem Declaration.tidy_of_mem_readAll {text : List Char} {d : Declaration}
    (h : d ∈ readAll text) : d.Tidy := by
  obtain ⟨seg, -, hr⟩ := List.mem_filterMap.mp h
  exact (writtenAs_of_read? hr).1

/-- what is read of a text stands between its semicolons, closed but for the last -/
theorem joinable_readAll (text : List Char) :
    Joinable ';' ((Declaration.readAll text).map (·.key.chars)) := by
  refine Declaration.bodyInduction (P := fun _ ds => Joinable ';' (ds.map (·.key.chars))) ?_ ?_ text
  · intro seg hseg
    cases hd : Declaration.read? seg with
    | none => trivial
    | some d =>
      have hw := (Declaration.writtenAs_of_read? hd).2.alike
      rw [hw.bare _ (visible_beq rfl)] at hseg
      exact ⟨Declaration.noBare_key hseg, fun h => absurd rfl h, trivial⟩
  · intro seg rest hseg hrest
    cases hd : Declaration.read? seg with
    | none => exact hrest
    | some d =>
      exact joinable_cons (Declaration.plain_key (Declaration.of_read? (visible_beq rfl) hseg hd))
        hrest

theorem toList_bodyText (ds : List Declaration) :
    (Registry.bodyText ds).toList = [';'].intercalate (ds.map (·.key.chars)) := by
  rw [Registry.bodyText, String.toList_intercalate, List.map_map]
  refine congrArg _ (List.map_congr_left fun d _ => ?_)
  exact DeclarationKey.toList_text d.key

theorem bodyText_congr {a b : List Declaration}
    (h : a.map Declaration.key = b.map Declaration.key) :
    Registry.bodyText a = Registry.bodyText b := by
  have he (ds : List Declaration) :
      Registry.bodyText ds = ";".intercalate ((ds.map Declaration.key).map (·.text)) := by
    rw [List.map_map]
    rfl
  rw [he, he, h]

/-- each key has a colon, so that only the empty body has an empty text -/
theorem bodyText_ne_empty {ds : List Declaration} (h : ds ≠ []) : Registry.bodyText ds ≠ "" := by
  intro he
  have hnil := congrArg String.toList he
  rw [toList_bodyText] at hnil
  cases ds with
  | nil => exact h rfl
  | cons d ds =>
    cases ds with
    | nil => simp [DeclarationKey.chars] at hnil
    | cons e ds =>
      rw [List.map_cons, List.map_cons, List.intercalate_cons_cons] at hnil
      simp at hnil

theorem bodyText_parseDeclarations_iff {s t : String} :
    Registry.bodyText (parseDeclarations s) = Registry.bodyText (parseDeclarations t) ↔
      (parseDeclarations s).map Declaration.key = (parseDeclarations t).map Declaration.key := by
  have hsplit {u : String} (hne : parseDeclarations u ≠ []) :
      split ';' start (Registry.bodyText (parseDeclarations u)).toList =
        (parseDeclarations u).map (·.key.chars) := by
    rw [toList_bodyText]
    exact split_intercalate isBare_semicolon (joinable_readAll _)
      (mt List.map_eq_nil_iff.mp hne)
  refine ⟨fun h => ?_, bodyText_congr⟩
  by_cases hs : parseDeclarations s = []
  · by_cases ht : parseDeclarations t = []
    · rw [hs, ht]
    · rw [hs] at h
      exact absurd h.symm (bodyText_ne_empty ht)
  · by_cases ht : parseDeclarations t = []
    · rw [ht] at h
      exact absurd h (bodyText_ne_empty hs)
    · have hchars := hsplit hs
      rw [h, hsplit ht] at hchars
      exact keys_eq_of_chars (fun _ => Declaration.tidy_of_mem_readAll)
        (fun _ => Declaration.tidy_of_mem_readAll) hchars.symm

end CssOptimizer
