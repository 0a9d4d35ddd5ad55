import CssOptimizer.Proofs.Atomic.Cascade
import CssOptimizer.Theme

/-!
# The custom properties of a theme

A token is declared under a name that joins its category and its key by a hyphen.  Both may hold
hyphens themselves, so that the same name may come apart in more than one way.

* `Theme.ofTokens`        the theme of tokens that are set one after the other;
* `Theme.tokenList`       the tokens of a theme, by category and key;
* `Token.Hides`           a token whose category goes on into the key of another token;
* `property_eq_iff`       tokens with the same property stand at the same place, or one hides the
                          other;
* `lastValue_eq_iff`      the value of a property is that of the token that no other one hides;
* `ofTokens_declares`     what a theme declares, and which tokens keep their own value.

The categories of tokens with the same property are prefixes of each other, so that they stand in
the order of their lengths, and the longest one has the last word.
-/

namespace CssOptimizer

/-- a token with its value -/
structure Token where
  category : String
  key : String
  value : String
  deriving DecidableEq

namespace Token

/-- where a token stands in a theme -/
def place (x : Token) : String × String := (x.category, x.key)

/-- the custom property of a token -/
def property (x : Token) : String := Theme.property x.category x.key

def declaration (x : Token) : Declaration := ⟨x.property, x.value⟩

/-- the order of tokens in a theme -/
def Before (x y : Token) : Prop :=
  x.category < y.category ∨ x.category = y.category ∧ x.key < y.key

/-- the category of one token goes on into the key of the other, so that both have the same
property -/
def Hides (x y : Token) : Prop :=
  ∃ between, x.category = y.category ++ "-" ++ between ∧ y.key = between ++ "-" ++ x.key

/-! ## places -/

section
variable {x y z : Token}

theorem Before.ne_place (h : x.Before y) : x.place ≠ y.place := by
  intro he
  obtain ⟨hcategory, hkey⟩ := Prod.mk.inj he
  rcases h with hlt | ⟨-, hlt⟩
  · rw [hcategory] at hlt
    exact String.lt_irrefl _ hlt
  · rw [hkey] at hlt
    exact String.lt_irrefl _ hlt

theorem Before.not_before (h : x.Before y) : ¬y.Before x := by
  rintro (hlt | ⟨heq, hlt⟩) <;> rcases h with hlt' | ⟨heq', hlt'⟩
  · exact String.lt_irrefl _ (String.lt_trans hlt hlt')
  · rw [heq'] at hlt
    exact String.lt_irrefl _ hlt
  · rw [heq] at hlt'
    exact String.lt_irrefl _ hlt'
  · exact String.lt_irrefl _ (String.lt_trans hlt hlt')

/-! ## properties -/

theorem toList_property (x : Token) :
    x.property.toList = "--".toList ++ (x.category.toList ++ '-' :: x.key.toList) := by
  simp [property, Theme.property]

theorem hides_iff : x.Hides y ↔ ∃ between : List Char,
    x.category.toList = y.category.toList ++ '-' :: between ∧
      y.key.toList = between ++ '-' :: x.key.toList := by
  constructor
  · rintro ⟨between, hcategory, hkey⟩
    exact ⟨between.toList, by simp [hcategory], by simp [hkey]⟩
  · rintro ⟨between, hcategory, hkey⟩
    refine ⟨String.ofList between, String.toList_inj.mp ?_, String.toList_inj.mp ?_⟩
    · simp [hcategory]
    · simp [hkey]

/-- it is the places that count -/
theorem Hides.congr {x' y' : Token} (h : x.Hides y) (hx : x'.place = x.place)
    (hy : y'.place = y.place) : x'.Hides y' := by
  obtain ⟨hxcategory, hxkey⟩ := Prod.mk.inj hx
  obtain ⟨hycategory, hykey⟩ := Prod.mk.inj hy
  rw [Hides, hxcategory, hxkey, hycategory, hykey]
  exact h

theorem not_hides_of_places {xs ys : List Token}
    (h : ∀ p ∈ ys.map place, p ∈ xs.map place)
    (hxs : ∀ x ∈ xs, ∀ y ∈ xs, ¬x.Hides y) : ∀ x ∈ ys, ∀ y ∈ ys, ¬x.Hides y := by
  have hmember {x : Token} (hx : x ∈ ys) : ∃ x' ∈ xs, x'.place = x.place :=
    List.mem_map.mp (h x.place (List.mem_map_of_mem hx))
  intro x hx y hy hhides
  obtain ⟨x', hx', hxplace⟩ := hmember hx
  obtain ⟨y', hy', hyplace⟩ := hmember hy
  exact hxs x' hx' y' hy' (hhides.congr hxplace hyplace)

theorem Hides.property_eq (h : x.Hides y) : x.property = y.property := by
  obtain ⟨between, hcategory, hkey⟩ := hides_iff.mp h
  rw [← String.toList_inj, toList_property, toList_property, hcategory, hkey, List.append_assoc,
    List.cons_append]

/-- a longer category comes later -/
theorem Hides.before (h : x.Hides y) : y.Before x := by
  obtain ⟨between, hcategory, -⟩ := hides_iff.mp h
  have hlt : y.category.toList ++ [] < y.category.toList ++ '-' :: between :=
    List.append_left_lt (List.nil_lt_cons '-' between)
  rw [List.append_nil, ← hcategory] at hlt
  exact Or.inl (String.lt_iff.mpr hlt)

/-- two places where a property comes apart are the same, or one is behind the other -/
theorem place_or_hides (h : x.category.toList ++ '-' :: x.key.toList =
    y.category.toList ++ '-' :: y.key.toList) {more : List Char}
    (hcategory : x.category.toList = y.category.toList ++ more) :
    x.place = y.place ∨ x.Hides y := by
  rw [hcategory, List.append_assoc] at h
  have hrest := List.append_cancel_left h
  cases more with
  | nil =>
    rw [List.append_nil] at hcategory
    rw [List.nil_append, List.cons.injEq] at hrest
    exact Or.inl (Prod.ext (String.toList_inj.mp hcategory) (String.toList_inj.mp hrest.2))
  | cons c between =>
    rw [List.cons_append, List.cons.injEq] at hrest
    rw [hrest.1] at hcategory
    exact Or.inr (hides_iff.mpr ⟨between, hcategory, hrest.2.symm⟩)

theorem property_eq_iff : x.property = y.property ↔ x.place = y.place ∨ x.Hides y ∨ y.Hides x := by
  constructor
  · intro h
    rw [← String.toList_inj, toList_property, toList_property, List.append_cancel_left_eq] at h
    rcases List.append_eq_append_iff.mp h with ⟨more, hcategory, -⟩ | ⟨more, hcategory, -⟩
    · exact (place_or_hides h.symm hcategory).imp Eq.symm Or.inr
    · exact (place_or_hides h hcategory).imp id Or.inl
  · rintro (h | h | h)
    · obtain ⟨hcategory, hkey⟩ := Prod.mk.inj h
      rw [property, hcategory, hkey, property]
    · exact h.property_eq
    · exact h.property_eq.symm

end

end Token

namespace Theme

/-! ## setting tokens -/

def ofTokens (set : List Token) : Theme :=
  set.foldl (fun t x => t.withToken x.category x.key x.value) {}

/-- the value that was set last at a place -/
def lastSet? (set : List Token) (place : String × String) : Option String :=
  (set.filter (·.place = place)).getLast?.map (·.value)

theorem lastSet?_concat (set : List Token) (x : Token) (place : String × String) :
    lastSet? (set ++ [x]) place = if x.place = place then some x.value else lastSet? set place := by
  have hfilter : [x].filter (·.place = place) = if x.place = place then [x] else [] := by
    rw [List.filter_singleton, Bool.cond_decide]
  rw [lastSet?, List.filter_append, hfilter]
  split
  · rw [List.getLast?_concat, Option.map_some]
  · rw [List.append_nil, lastSet?]

/-- a token has the value that was set last -/
theorem token?_ofTokens (set : List Token) (category key : String) :
    (ofTokens set).token? category key = lastSet? set (category, key) := by
  induction set using List.reverseRecOn with
  | nil => rfl
  | append_singleton set x ih =>
    rw [lastSet?_concat, ← ih, ofTokens, List.foldl_append]
    exact token?_withToken _ _ _ _ _ _

theorem isSome_lastSet?_iff {set : List Token} {place : String × String} :
    (lastSet? set place).isSome ↔ place ∈ set.map Token.place := by
  rw [lastSet?, Option.isSome_map, List.getLast?_isSome, List.mem_map, ne_eq,
    List.filter_eq_nil_iff]
  simp

/-! ## the tokens of a theme -/

def tokenList (t : Theme) : List Token :=
  t.tokens.entries.flatMap fun (category, entries) =>
    entries.entries.map fun (key, value) => ⟨category, key, value⟩

theorem declarations_eq (t : Theme) : t.declarations = t.tokenList.map Token.declaration := by
  simp only [declarations, tokenList, List.map_flatMap, List.map_map]
  rfl

theorem mem_tokenList {t : Theme} {x : Token} :
    x ∈ t.tokenList ↔ t.token? x.category x.key = some x.value := by
  rw [token?, Option.bind_eq_some_iff, tokenList, List.mem_flatMap]
  constructor
  · rintro ⟨⟨category, entries⟩, hcategory, hx⟩
    obtain ⟨⟨key, value⟩, hkey, rfl⟩ := List.mem_map.mp hx
    exact ⟨entries, NameMap.get?_eq_some_iff.mpr hcategory, NameMap.get?_eq_some_iff.mpr hkey⟩
  · rintro ⟨entries, hcategory, hkey⟩
    exact ⟨(x.category, entries), NameMap.get?_eq_some_iff.mp hcategory,
      List.mem_map.mpr ⟨(x.key, x.value), NameMap.get?_eq_some_iff.mp hkey, rfl⟩⟩

theorem pairwise_tokenList (t : Theme) : t.tokenList.Pairwise Token.Before := by
  refine List.pairwise_flatMap.mpr ⟨fun ⟨category, entries⟩ _ => ?_, ?_⟩
  · exact List.pairwise_map.mpr (entries.sorted.imp fun hlt => Or.inr ⟨rfl, hlt⟩)
  · refine t.tokens.sorted.imp fun hlt x hx y hy => Or.inl ?_
    obtain ⟨-, -, rfl⟩ := List.mem_map.mp hx
    obtain ⟨-, -, rfl⟩ := List.mem_map.mp hy
    exact hlt

theorem nodup_places (t : Theme) : (t.tokenList.map Token.place).Nodup :=
  List.pairwise_map.mpr (t.pairwise_tokenList.imp Token.Before.ne_place)

section
variable {t : Theme} {x y : Token}

theorem eq_of_mem_of_place (hx : x ∈ t.tokenList) (hy : y ∈ t.tokenList)
    (h : x.place = y.place) : x = y :=
  List.inj_on_of_nodup_map t.nodup_places hx hy h

/-- no property is declared twice exactly if no token hides another one -/
theorem nodup_properties_iff : (t.tokenList.map Token.property).Nodup ↔
    ∀ x ∈ t.tokenList, ∀ y ∈ t.tokenList, ¬x.Hides y := by
  rw [List.nodup_map_iff_inj_on t.nodup_places.of_map]
  constructor
  · intro h x hx y hy hhides
    obtain rfl := h x hx y hy hhides.property_eq
    exact hhides.before.ne_place rfl
  · intro h x hx y hy he
    refine eq_of_mem_of_place hx hy ?_
    exact (Token.property_eq_iff.mp he).resolve_right
      (not_or.mpr ⟨h x hx y hy, h y hy x hx⟩)

end

/-! ## the last word -/

/-- the last member of a list in order is the one that all others are before -/
theorem getLast?_iff_of_pairwise {xs : List Token} (h : xs.Pairwise Token.Before) {x : Token} :
    xs.getLast? = some x ↔ x ∈ xs ∧ ∀ y ∈ xs, y = x ∨ y.Before x := by
  constructor
  · intro hlast
    obtain ⟨init, rfl⟩ := List.getLast?_eq_some_iff.mp hlast
    refine ⟨List.mem_concat_self, fun y hy => ?_⟩
    rcases List.mem_append.mp hy with hy | hy
    · exact Or.inr ((List.pairwise_append.mp h).2.2 y hy x (List.mem_singleton_self x))
    · exact Or.inl (List.mem_singleton.mp hy)
  · rintro ⟨hx, hbefore⟩
    obtain ⟨init, last, rfl⟩ := (List.eq_nil_or_concat xs).resolve_left (List.ne_nil_of_mem hx)
    rw [List.concat_eq_append] at h hx hbefore ⊢
    rw [List.getLast?_concat]
    rcases List.mem_append.mp hx with hinit | hlast
    · have hafter := (List.pairwise_append.mp h).2.2 x hinit last (List.mem_singleton_self last)
      rcases hbefore last List.mem_concat_self with rfl | hlast
      · rfl
      · exact absurd hlast hafter.not_before
    · rw [List.mem_singleton.mp hlast]

section
variable {t : Theme} {x : Token}

theorem lastValue_declarations (property : String) (t : Theme) :
    lastValue property t.declarations =
      (t.tokenList.filter (·.property == property)).getLast?.map (·.value) := by
  rw [lastValue, ofProperty, declarations_eq, List.filter_map, List.getLast?_map, Option.map_map]
  rfl

theorem lastValue_eq_iff {property value : String} :
    lastValue property t.declarations = some value ↔
      ∃ y ∈ t.tokenList, y.property = property ∧ y.value = value ∧
        ∀ z ∈ t.tokenList, ¬z.Hides y := by
  have hpairwise := t.pairwise_tokenList.filter (·.property == property)
  have hmem {y : Token} : y ∈ t.tokenList.filter (·.property == property) ↔
      y ∈ t.tokenList ∧ y.property = property := by
    rw [List.mem_filter, beq_iff_eq]
  rw [lastValue_declarations, Option.map_eq_some_iff]
  refine exists_congr fun y => ?_
  rw [getLast?_iff_of_pairwise hpairwise, hmem, and_assoc, and_assoc]
  refine and_congr_right fun hy => and_congr_right fun hproperty => ?_
  rw [and_comm]
  refine and_congr_right fun _ => ⟨fun hlast z hz hhides => ?_, fun hhidden z hz => ?_⟩
  · rcases hlast z (hmem.mpr ⟨hz, hhides.property_eq.trans hproperty⟩) with rfl | hbefore
    · exact hhides.before.ne_place rfl
    · exact hbefore.not_before hhides.before
  · obtain ⟨hz, hsame⟩ := hmem.mp hz
    rcases Token.property_eq_iff.mp (hsame.trans hproperty.symm) with hplace | hhides | hhides
    · exact Or.inl (eq_of_mem_of_place hz hy hplace)
    · exact absurd hhides (hhidden z hz)
    · exact Or.inr hhides.before

/-- every property of a token has a value -/
theorem exists_lastValue (hx : x ∈ t.tokenList) :
    ∃ value, lastValue x.property t.declarations = some value := by
  rw [← Option.isSome_iff_exists, lastValue_declarations, Option.isSome_map, List.getLast?_isSome]
  exact List.ne_nil_of_mem (List.mem_filter.mpr ⟨hx, beq_self_eq_true x.property⟩)

/-- a token keeps its value exactly if the last token that hides it has the same one -/
theorem lastValue_own_iff (hx : x ∈ t.tokenList) :
    lastValue x.property t.declarations = some x.value ↔
      ∀ y ∈ t.tokenList, y.Hides x → (∀ z ∈ t.tokenList, ¬z.Hides y) → y.value = x.value := by
  constructor
  · intro h y hy hhides hhidden
    have hvalue := lastValue_eq_iff.mpr ⟨y, hy, hhides.property_eq, rfl, hhidden⟩
    exact Option.some.inj (hvalue.symm.trans h)
  · intro h
    obtain ⟨value, hvalue⟩ := exists_lastValue hx
    obtain ⟨y, hy, hproperty, rfl, hhidden⟩ := lastValue_eq_iff.mp hvalue
    rw [hvalue]
    rcases Token.property_eq_iff.mp hproperty with hplace | hhides | hhides
    · rw [eq_of_mem_of_place hy hx hplace]
    · rw [h y hy hhides hhidden]
    · exact absurd hhides (hhidden x hx)

end

/-! ## what a theme declares -/

theorem mem_tokenList_ofTokens {set : List Token} {x : Token} :
    x ∈ (ofTokens set).tokenList ↔ lastSet? set x.place = some x.value := by
  rw [mem_tokenList, token?_ofTokens]
  rfl

/-- the places of a theme are those that were set -/
theorem mem_places_ofTokens (set : List Token) (place : String × String) :
    place ∈ (ofTokens set).tokenList.map Token.place ↔ place ∈ set.map Token.place := by
  rw [← @isSome_lastSet?_iff set, Option.isSome_iff_exists, List.mem_map]
  constructor
  · rintro ⟨x, hx, rfl⟩
    exact ⟨x.value, mem_tokenList_ofTokens.mp hx⟩
  · rintro ⟨value, h⟩
    exact ⟨⟨place.1, place.2, value⟩, mem_tokenList_ofTokens.mpr h, rfl⟩

/-- a theme declares each place that was ever set once, by category and key, with the value that
was set last; two tokens have the same property exactly if one hides the other, and a token keeps
its value unless the longest category of its property has another one -/
theorem ofTokens_declares (set : List Token) :
    ∃ tokens : List Token,
      (ofTokens set).node = .rule ":root" (tokens.map Token.declaration) ∧
      (tokens.map Token.place).Nodup ∧
      (∀ place, place ∈ tokens.map Token.place ↔ place ∈ set.map Token.place) ∧
      (∀ x ∈ tokens, lastSet? set x.place = some x.value) ∧
      ((tokens.map Token.property).Nodup ↔ ∀ x ∈ set, ∀ y ∈ set, ¬x.Hides y) ∧
      ∀ x ∈ tokens, lastValue x.property (ofTokens set).node.body = some x.value ↔
        ∀ y ∈ tokens, y.Hides x → (∀ z ∈ tokens, ¬z.Hides y) → y.value = x.value := by
  have hplaces := mem_places_ofTokens set
  refine ⟨(ofTokens set).tokenList, ?_, nodup_places _, hplaces,
    fun x => mem_tokenList_ofTokens.mp, ?_, fun x hx => lastValue_own_iff hx⟩
  · rw [node, declarations_eq]
  · rw [nodup_properties_iff]
    exact ⟨Token.not_hides_of_places fun place => (hplaces place).mpr,
      Token.not_hides_of_places fun place => (hplaces place).mp⟩

/-- two tokens, the second of which hides the first one -/
def dashedTokens : List Token := [⟨"a", "b-c", "1"⟩, ⟨"a-b", "c", "2"⟩]

theorem property_dashedTokens :
    (ofTokens dashedTokens).node = .rule ":root" [⟨"--a-b-c", "1"⟩, ⟨"--a-b-c", "2"⟩] ∧
      lastSet? dashedTokens ("a", "b-c") = some "1" ∧
      lastValue (property "a" "b-c") (ofTokens dashedTokens).node.body = some "2" := by
  decide +kernel

end Theme
end CssOptimizer
