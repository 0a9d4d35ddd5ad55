import CssOptimizer.Atomic.Naming
import CssOptimizer.Proofs.Atomic.Uses
import CssOptimizer.Proofs.Text.Names
import Mathlib.Algebra.Group.Nat.Even
import Mathlib.Data.List.Nodup

/-!
# Names drawn one after the other

By content a name is an underscore with a start of the digest of its key.  The start has eight
digits, and two more for as long as an earlier key has the name already.

* `freePrefix_spec`        where the lengthening of a start ends;
* `ShortPrefix`            a name is as short as the names before it allow;
* `Remembers`              what a supply knows of the names drawn from it, which every draw keeps;
* `shortPrefix_drawAll`    so each name of a run is as short as possible;
* `drawAll_eq_short`       and has eight digits where no two digests start with the same eight;
* `distinct_drawAll`       names are distinct where digests are.
-/

namespace CssOptimizer.NameSupply

/-! ## lengthening a start -/

theorem freePrefix_spec (isTaken : List Char → Bool) {digest : List Char}
    (hdigest : Even digest.length) {length : Nat} (heven : Even length)
    (hle : length ≤ digest.length) :
    ∃ n, (length ≤ n ∧ n ≤ digest.length ∧ Even n) ∧
      freePrefix isTaken digest length = digest.take n ∧
      (∀ m, length ≤ m → m < n → Even m → isTaken (digest.take m) = true) ∧
      (isTaken (digest.take n) = true → n = digest.length) := by
  fun_induction freePrefix isTaken digest length with
  | case1 length h ih =>
    obtain ⟨htaken, hlt⟩ := h
    have heven' : Even (length + 2) := heven.add (by decide)
    have hle' : length + 2 ≤ digest.length := by
      obtain ⟨a, ha⟩ := heven
      obtain ⟨b, hb⟩ := hdigest
      omega
    obtain ⟨n, ⟨hn, hmost, hen⟩, htake, hshorter, hlast⟩ := ih heven' hle'
    refine ⟨n, ⟨by omega, hmost, hen⟩, htake, fun m hm hmn hem => ?_, hlast⟩
    by_cases he : m = length
    · rw [he]
      exact htaken
    · refine hshorter m ?_ hmn hem
      obtain ⟨a, ha⟩ := heven
      obtain ⟨b, hb⟩ := hem
      omega
  | case2 length h =>
    refine ⟨length, ⟨Nat.le_refl _, hle, heven⟩, rfl, fun m hm hmn => by omega, fun ht => ?_⟩
    by_contra hne
    exact h ⟨ht, by omega⟩

theorem contentName_inj {a b : List Char} : contentName a = contentName b ↔ a = b := by
  rw [contentName, contentName, String.ofList_inj, List.cons.injEq]
  exact and_iff_right rfl

/-! ## what a supply remembers -/

/-- the digits of a digest in a hash -/
def digestLength : Nat := 64

/-- a name is the start of a digest with `n` digits, and every shorter start of even length that a
name may have is taken by an earlier name -/
structure ShortPrefix (before : List String) (digest : List Char) (name : String) (n : Nat) :
    Prop where
  least : shortLength ≤ n
  most : n ≤ digestLength
  even : Even n
  name_eq : name = contentName (digest.take n)
  taken : ∀ m, shortLength ≤ m → m < n → Even m → contentName (digest.take m) ∈ before

/-- a supply knows the names that were drawn from it, each with a key that has it -/
structure Remembers (n : NameSupply) (drawn : List (DeclarationKey × String)) : Prop where
  owner : ∀ name key, InsertionMap.at? n.taken name = some key → (key, name) ∈ drawn
  known : ∀ key name, (key, name) ∈ drawn → ∃ other, InsertionMap.at? n.taken name = some other

section
variable {hash : String → String} {n : NameSupply} {drawn : List (DeclarationKey × String)}
  {key : DeclarationKey}

theorem remembers_nil : Remembers {} [] where
  owner := fun _ _ h => absurd h.symm (Option.some_ne_none _)
  known := fun _ _ h => absurd h List.not_mem_nil

theorem fst_draw (hash : String → String) (n : NameSupply) (key : DeclarationKey) :
    (n.draw hash .byContent key).1 =
      contentName (freePrefix (n.isTaken key) (hash key.text).toList shortLength) := rfl

theorem taken_draw (hash : String → String) (n : NameSupply) (key : DeclarationKey) :
    (n.draw hash .byContent key).2.taken =
      InsertionMap.amend n.taken (n.draw hash .byContent key).1 fun _ => key := rfl

/-- for a new key a name is taken if it was drawn before -/
theorem Remembers.isTaken_iff (h : Remembers n drawn) (hkey : key ∉ drawn.map Prod.fst)
    {digits : List Char} :
    n.isTaken key digits = true ↔ contentName digits ∈ drawn.map Prod.snd := by
  rw [isTaken, Option.any_eq_true, List.mem_map]
  constructor
  · rintro ⟨other, hat, -⟩
    exact ⟨(other, contentName digits), h.owner _ _ hat, rfl⟩
  · rintro ⟨⟨other, name⟩, hm, rfl⟩
    obtain ⟨owner, hat⟩ := h.known _ _ hm
    refine ⟨owner, hat, decide_eq_true fun he => hkey ?_⟩
    exact List.mem_map.mpr ⟨_, h.owner _ _ hat, he⟩

theorem Remembers.draw (h : Remembers n drawn) (hash : String → String) (key : DeclarationKey) :
    Remembers (n.draw hash .byContent key).2
      (drawn ++ [(key, (n.draw hash .byContent key).1)]) where
  owner := by
    intro name other hat
    rw [taken_draw, InsertionMap.at?_amend] at hat
    split at hat
    · rename_i hname
      rw [Option.some.injEq] at hat
      rw [hname, hat]
      exact List.mem_append_right _ (List.mem_singleton_self _)
    · exact List.mem_append_left _ (h.owner _ _ hat)
  known := by
    intro other name hm
    rw [taken_draw, InsertionMap.at?_amend]
    split
    · exact ⟨key, rfl⟩
    · rename_i hname
      rcases List.mem_append.mp hm with hm | hm
      · exact h.known _ _ hm
      · rw [List.mem_singleton, Prod.mk.injEq] at hm
        exact absurd hm.2.symm hname

/-- a draw gives the shortest name that is left, and an old one only if the whole digest is taken -/
theorem Remembers.shortPrefix_draw (h : Remembers n drawn) (hkey : key ∉ drawn.map Prod.fst)
    (hlength : (hash key.text).length = digestLength) :
    ∃ m, ShortPrefix (drawn.map Prod.snd) (hash key.text).toList (n.draw hash .byContent key).1 m ∧
      ((n.draw hash .byContent key).1 ∈ drawn.map Prod.snd → m = digestLength) := by
  have hdigest : (hash key.text).toList.length = digestLength := hlength
  have heven : Even (hash key.text).toList.length := by
    rw [hdigest]
    decide
  have hshort : Even shortLength := by decide
  have hle : shortLength ≤ (hash key.text).toList.length := by
    rw [hdigest]
    decide
  obtain ⟨m, ⟨hleast, hmost, hm⟩, htake, htaken, hlast⟩ :=
    freePrefix_spec (n.isTaken key) heven hshort hle
  rw [hdigest] at hmost hlast
  have hname : (n.draw hash .byContent key).1 = contentName ((hash key.text).toList.take m) := by
    rw [fst_draw, htake]
  refine ⟨m, ⟨hleast, hmost, hm, hname, fun l hl hlm hel => ?_⟩, fun hmem => ?_⟩
  · exact (h.isTaken_iff hkey).mp (htaken l hl hlm hel)
  · rw [hname] at hmem
    exact hlast ((h.isTaken_iff hkey).mpr hmem)

/-! ## runs -/

theorem drawAll_cons (hash : String → String) (naming : ClassNaming) (n : NameSupply)
    (key : DeclarationKey) (keys : List DeclarationKey) :
    drawAll hash naming n (key :: keys) =
      (key, (n.draw hash naming key).1) ::
        drawAll hash naming (n.draw hash naming key).2 keys := rfl

/-- each name of a run is drawn from a supply that remembers the names before it -/
theorem Remembers.exists_draw (h : Remembers n drawn) {keys : List DeclarationKey}
    {earlier later : List (DeclarationKey × String)} {name : String}
    (hrun : drawAll hash .byContent n keys = earlier ++ (key, name) :: later) :
    ∃ n' : NameSupply, Remembers n' (drawn ++ earlier) ∧
      name = (n'.draw hash .byContent key).1 := by
  induction earlier generalizing n drawn keys with
  | nil =>
    cases keys with
    | nil => exact absurd hrun.symm (List.cons_ne_nil _ _)
    | cons first keys =>
      obtain ⟨hfirst, -⟩ := List.cons.inj hrun
      obtain ⟨rfl, hname⟩ := Prod.mk.inj hfirst
      exact ⟨n, by rwa [List.append_nil], hname.symm⟩
  | cons e earlier ih =>
    cases keys with
    | nil => exact absurd hrun.symm (List.cons_ne_nil _ _)
    | cons first keys =>
      obtain ⟨rfl, hrest⟩ := List.cons.inj hrun
      obtain ⟨n', hn', hname⟩ := ih (h.draw hash first) hrest
      rw [List.append_assoc] at hn'
      exact ⟨n', hn', hname⟩

end

section
variable {hash : String → String} {keys : List DeclarationKey}

theorem shortPrefix_drawAll (hnodup : keys.Nodup)
    (hlength : ∀ key ∈ keys, (hash key.text).length = digestLength)
    {earlier later : List (DeclarationKey × String)} {key : DeclarationKey} {name : String}
    (hrun : drawAll hash .byContent {} keys = earlier ++ (key, name) :: later) :
    ∃ m, ShortPrefix (earlier.map Prod.snd) (hash key.text).toList name m ∧
      (name ∈ earlier.map Prod.snd → m = digestLength) := by
  have hkeys : keys = earlier.map Prod.fst ++ key :: later.map Prod.fst := by
    rw [← keys_drawAll hash .byContent {} keys, hrun, InsertionMap.keys, List.map_append,
      List.map_cons]
  rw [hkeys] at hnodup hlength
  have hkey : key ∉ earlier.map Prod.fst := fun hm =>
    (List.nodup_append.mp hnodup).2.2 key hm key List.mem_cons_self rfl
  obtain ⟨n, hn, rfl⟩ := remembers_nil.exists_draw hrun
  rw [List.nil_append] at hn
  exact hn.shortPrefix_draw hkey (hlength key (List.mem_append_right _ List.mem_cons_self))

/-- the name with the least number of digits -/
def shortName (hash : String → String) (key : DeclarationKey) : String :=
  contentName ((hash key.text).toList.take shortLength)

theorem draw_of_not_isTaken {n : NameSupply} {key : DeclarationKey}
    (h : n.isTaken key ((hash key.text).toList.take shortLength) = false) :
    (n.draw hash .byContent key).1 = shortName hash key := by
  rw [fst_draw, freePrefix, if_neg (by rw [h]; exact fun h => Bool.false_ne_true h.1)]
  rfl

theorem drawAll_eq_short (h : (keys.map (shortName hash)).Nodup) :
    drawAll hash .byContent {} keys = keys.map fun key => (key, shortName hash key) := by
  -- along the keys that are left, for a supply that remembers short names for those before them
  have hrun (n : NameSupply) (drawn keys : List DeclarationKey)
      (hn : Remembers n (drawn.map fun key => (key, shortName hash key)))
      (hnodup : ((drawn ++ keys).map (shortName hash)).Nodup) :
      drawAll hash .byContent n keys = keys.map fun key => (key, shortName hash key) := by
    induction keys generalizing n drawn with
    | nil => rfl
    | cons key keys ih =>
      have hnew : shortName hash key ∉ drawn.map (shortName hash) := by
        rw [List.map_append, List.map_cons] at hnodup
        exact fun hm => (List.nodup_append.mp hnodup).2.2 _ hm _ List.mem_cons_self rfl
      have hfree : n.isTaken key ((hash key.text).toList.take shortLength) = false := by
        rw [isTaken, Option.any_eq_false]
        intro other hat
        obtain ⟨k, hk, he⟩ := List.mem_map.mp (hn.owner _ _ hat)
        exact absurd (List.mem_map.mpr ⟨k, hk, (Prod.mk.inj he).2⟩) hnew
      have hname := draw_of_not_isTaken hfree
      have hnext := hn.draw hash key
      rw [hname] at hnext
      rw [drawAll_cons, hname, List.map_cons]
      refine congrArg _ (ih _ (drawn ++ [key]) ?_ ?_)
      · rw [List.map_append]
        exact hnext
      · rw [List.append_assoc]
        exact hnodup
  exact hrun {} [] keys remembers_nil h

/-! ## distinct names -/

/-- the digests of keys have the usual length, and different keys have different ones -/
structure DigestsApart (hash : String → String) (keys : List DeclarationKey) : Prop where
  length : ∀ key ∈ keys, (hash key.text).length = digestLength
  apart : keys.Pairwise fun a b => hash a.text ≠ hash b.text

theorem DigestsApart.nodup (h : DigestsApart hash keys) : keys.Nodup :=
  h.apart.imp fun hne he => hne (by rw [he])

theorem nodup_of_splits {α : Type} {xs : List α}
    (h : ∀ a x b, xs = a ++ x :: b → x ∉ a) : xs.Nodup := by
  induction xs using List.reverseRecOn with
  | nil => exact List.nodup_nil
  | append_singleton xs x ih =>
    have hxs : xs.Nodup := ih fun a y b he => h a y (b ++ [x]) (by rw [he, List.append_assoc]; rfl)
    refine List.nodup_append.mpr ⟨hxs, List.pairwise_singleton _ x, fun y hy z hz => ?_⟩
    rw [List.mem_singleton.mp hz]
    exact fun he => h xs x [] rfl (he ▸ hy)

theorem drawAll_inSequence (n : NameSupply) :
    (drawAll hash .inSequence n keys).map Prod.snd =
      (List.range' n.next keys.length).map fun i => "_" ++ toString i := by
  induction keys generalizing n with
  | nil => rfl
  | cons key keys ih =>
    rw [drawAll_cons, List.map_cons, ih, List.length_cons, List.range'_succ, List.map_cons]
    rfl

theorem eq_of_toList_eq_take {a b : String} (ha : a.length = digestLength)
    (hb : b.length = digestLength) {m : Nat} (h : a.toList = b.toList.take m) : a = b := by
  have ha' : a.toList.length = digestLength := ha
  have hb' : b.toList.length = digestLength := hb
  have hlength : a.toList.length = min m b.toList.length := by rw [h, List.length_take]
  rw [List.take_of_length_le (by omega)] at h
  exact String.toList_injective h

/-- a name that an earlier key has would be the whole digest of both keys -/
theorem DigestsApart.not_mem_earlier (h : DigestsApart hash keys)
    {earlier later : List (DeclarationKey × String)} {key : DeclarationKey} {name : String}
    (hrun : drawAll hash .byContent {} keys = earlier ++ (key, name) :: later) :
    name ∉ earlier.map Prod.snd := by
  intro hm
  obtain ⟨n, hn, hwhole⟩ := shortPrefix_drawAll h.nodup h.length hrun
  obtain ⟨⟨other, name'⟩, hother, hname⟩ := List.mem_map.mp hm
  obtain rfl : name' = name := hname
  obtain ⟨first, between, rfl⟩ := List.append_of_mem hother
  have hrun' : drawAll hash .byContent {} keys =
      first ++ (other, name') :: (between ++ (key, name') :: later) := by
    rw [hrun, List.append_assoc, List.cons_append]
  have hkeys : keys =
      first.map Prod.fst ++ other :: (between.map Prod.fst ++ key :: later.map Prod.fst) := by
    rw [← keys_drawAll hash .byContent {} keys, hrun', InsertionMap.keys]
    simp only [List.map_append, List.map_cons]
  obtain ⟨m, hm', -⟩ := shortPrefix_drawAll h.nodup h.length hrun'
  have hkey : key ∈ keys := by simp [hkeys]
  have hotherKey : other ∈ keys := by simp [hkeys]
  have hne : hash other.text ≠ hash key.text := by
    have hapart := h.apart
    rw [hkeys] at hapart
    have hbehind := (List.pairwise_cons.mp (List.pairwise_append.mp hapart).2.1).1
    exact hbehind key (List.mem_append_right _ List.mem_cons_self)
  have hdigest : (hash key.text).toList.length = digestLength := h.length key hkey
  have hwholeName : name' = contentName (hash key.text).toList := by
    rw [hn.name_eq, hwhole hm, List.take_of_length_le (Nat.le_of_eq hdigest)]
  have hsame : (hash key.text).toList = (hash other.text).toList.take m :=
    contentName_inj.mp (hwholeName.symm.trans hm'.name_eq)
  exact hne (eq_of_toList_eq_take (h.length key hkey) (h.length other hotherKey) hsame).symm

/-- the names of a run are distinct, and those by content are as short as the names of earlier keys
allow: the digits grow from eight, at most to the whole digest, and only past starts that an
earlier key has -/
theorem distinct_drawAll {naming : ClassNaming}
    (h : naming = .byContent → DigestsApart hash keys) :
    ((drawAll hash naming {} keys).map Prod.snd).Nodup ∧
      InsertionMap.keys (drawAll hash naming {} keys) = keys ∧
      (naming = .byContent → ∀ earlier key name later,
        drawAll hash naming {} keys = earlier ++ (key, name) :: later →
        name ∉ earlier.map Prod.snd ∧
          ∃ m, ShortPrefix (earlier.map Prod.snd) (hash key.text).toList name m) := by
  cases naming with
  | inSequence =>
    refine ⟨?_, keys_drawAll .., fun h => absurd h (by decide)⟩
    rw [drawAll_inSequence]
    refine List.Nodup.map (fun i j he => Text.toString_inj.mp ?_) List.nodup_range'
    exact (String.append_right_inj "_").mp he
  | byContent =>
    have hapart := h rfl
    refine ⟨nodup_of_splits fun a name b he => ?_, keys_drawAll .., fun _ earlier key name later
      hrun => ⟨hapart.not_mem_earlier hrun, ?_⟩⟩
    · obtain ⟨earlier, rest, hrun, rfl, hrest⟩ := List.map_eq_append_iff.mp he
      obtain ⟨⟨key, _⟩, later, rfl, rfl, -⟩ := List.map_eq_cons_iff.mp hrest
      exact hapart.not_mem_earlier hrun
    · obtain ⟨m, hm, -⟩ := shortPrefix_drawAll hapart.nodup hapart.length hrun
      exact ⟨m, hm⟩

end

/-- a digest that tells texts apart by their last characters only -/
def lastDigest (text : String) : String :=
  String.ofList (List.replicate 63 '0' ++ text.toList.drop (text.toList.length - 1))

/-- where digests start with the same digits, each name is longer than the one before it -/
theorem distinct_drawAll_sameStart :
    let keys : List DeclarationKey := [⟨"p", "1"⟩, ⟨"p", "2"⟩, ⟨"p", "3"⟩]
    let names := ["_00000000", "_0000000000", "_000000000000"]
    DigestsApart lastDigest keys ∧ drawAll lastDigest .byContent {} keys = keys.zip names ∧
      ((drawAll lastDigest .byContent {} keys).map Prod.snd).Nodup ∧
      ∃ m, ShortPrefix (names.take 2) (lastDigest "p:3").toList "_000000000000" m := by
  intro keys names
  have hapart : DigestsApart lastDigest keys := ⟨by decide +kernel, by decide +kernel⟩
  have hdrawn : drawAll lastDigest .byContent {} keys = keys.zip names := by decide +kernel
  have h := distinct_drawAll fun _ : ClassNaming.byContent = .byContent => hapart
  exact ⟨hapart, hdrawn, h.1, (h.2.2 rfl ((keys.zip names).take 2) _ _ [] hdrawn).2⟩

end CssOptimizer.NameSupply
