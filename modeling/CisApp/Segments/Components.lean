import CisApp.Lib.Guarded
import CisApp.Segments.Derive

/-!
# The components of the moment rule

`_connected` for any keyed atoms, any veto, any set of atoms that must be involved and
any countries.  The union-find with its path halving is a run of `Labelled.links` over
the pairs that match (`joinKeyed_refines`), so that the sets it returns are the classes
of fair joins: they part the atoms, hold one known country at most, are connected
inside, and could not be larger (`connected_components`).  `derive_segments` uses it
with the veto and the countries of its atoms.
-/

namespace CisApp.Segments

open CisApp.Lib Relation

/-! ## The source -/

section source

variable (T : Text) (allowed : String → String → Bool) (involving : Option (Finset String))

def joins (x y : String × Key) : Bool :=
  (match involving with
    | none => true
    | some new => x.1 ∈ new || y.1 ∈ new) &&
  looksLikeOneMoment x.2 y.2 && allowed x.1 y.1

def joinKeyed (join : String × Key → String × Key → Bool) (fuel : Nat) : List (String × Key) → Joined → Joined
  | [], st => st
  | x :: rest, st =>
    joinKeyed join fuel rest (rest.foldl (fun st y => if join x y then st.link fuel x.1 y.1 else st) st)

def knownCountry (keyed : List (String × Key)) (countryOf : String → String) (id : String) : Option String :=
  if id ∈ keyed.map Prod.fst && T.countryNorm (countryOf id) ≠ "" then some (T.countryNorm (countryOf id)) else none

/-- `_connected` -/
def connectedOf (keyed : List (String × Key)) (countryOf : String → String) : List (Finset String) :=
  let fuel := keyed.length * keyed.length
  let st := joinKeyed (joins allowed involving) fuel keyed ⟨id, knownCountry T keyed countryOf⟩
  let ids := keyed.map Prod.fst
  (groups Prod.fst ((findAll fuel st.parent ids).zip ids)).map fun e => (e.2.map Prod.snd).toFinset

end source

/-! ## Union-find and classes -/

/-- The union-find keeps the classes. -/
structure Refines (st : Joined) (c : Labelled String String) (n : Nat) : Prop where
  forest : Forest st.parent c.root n
  country : st.country = c.label

theorem clash_eq_differ (x y : Option String) : clash x y = differ x y := rfl

theorem Refines.link {st : Joined} {c : Labelled String String} {n : Nat} (h : Refines st c n) {fuel : Nat} (hn : n ≤ fuel)
    (a b : String) : Refines (st.link fuel a b) (c.link a b) (n + 1) := by
  obtain ⟨hl, h1⟩ := h.forest.find fuel hn a
  obtain ⟨hr, h2⟩ := h1.find fuel hn b
  have hcountry := h.country
  unfold Joined.link Labelled.link
  dsimp only
  rw [hl, hr, hcountry, clash_eq_differ]
  by_cases hab : c.root a = c.root b
  · rw [if_pos hab, if_pos (by rw [decide_eq_true hab, Bool.true_or])]
    exact ⟨h2.mono (Nat.le_succ n), rfl⟩
  · rw [if_neg hab, decide_eq_false hab, Bool.false_or]
    split
    · exact ⟨h2.mono (Nat.le_succ n), rfl⟩
    · have hlabel : ∀ r, c.label r = (c.label (c.root a)).or (c.label (c.root b)) ∨
          ((c.label (c.root a)).isSome || (c.label (c.root b)).isSome) = true →
          (if (c.label (c.root a)).isSome || (c.label (c.root b)).isSome then
            Function.update c.label r ((c.label (c.root a)).or (c.label (c.root b))) else c.label) =
          Function.update c.label r ((c.label (c.root a)).or (c.label (c.root b))) := by
        intro r hr
        split
        · rfl
        · next hnone =>
          rw [← hr.resolve_right hnone, Function.update_eq_self]
      have hset : ∀ r, r = c.root a ∨ r = c.root b →
          c.label r = (c.label (c.root a)).or (c.label (c.root b)) ∨
            ((c.label (c.root a)).isSome || (c.label (c.root b)).isSome) = true := by
        rintro r hr
        cases hx : c.label (c.root a) <;> cases hy : c.label (c.root b)
        · left
          rcases hr with rfl | rfl
          · exact hx
          · exact hy
        · exact Or.inr rfl
        · exact Or.inr rfl
        · exact Or.inr rfl
      rcases lt_or_gt_of_ne hab with hlt | hlt
      · rw [min_eq_left hlt.le, max_eq_right hlt.le]
        exact ⟨h2.link b a (Ne.symm hab), hlabel _ (hset _ (Or.inl rfl))⟩
      · rw [min_eq_right hlt.le, max_eq_left hlt.le]
        exact ⟨h2.link a b hab, hlabel _ (hset _ (Or.inr rfl))⟩

theorem Refines.links {st : Joined} {c : Labelled String String} {n : Nat} (h : Refines st c n) {fuel : Nat}
    (pairs : List (String × String)) (hn : n + pairs.length ≤ fuel) :
    Refines (pairs.foldl (fun st e => st.link fuel e.1 e.2) st) (c.links pairs) (n + pairs.length) := by
  unfold Labelled.links
  induction pairs generalizing st c n with
  | nil => exact h
  | cons e pairs ih =>
    rw [List.length_cons] at hn ⊢
    rw [List.foldl_cons, List.foldl_cons, ← Nat.add_assoc, Nat.add_right_comm]
    exact ih (h.link (by omega) e.1 e.2) (by omega)

theorem joinLoop_eq {ι : Type} (id : ι → String) (join : ι → ι → Bool) (fuel : Nat) (l : List ι) (x : ι) (st : Joined) :
    l.foldl (fun st y => if join x y then st.link fuel (id x) (id y) else st) st =
      (((l.map fun y => (x, y)).filter fun e => join e.1 e.2).map fun e => (id e.1, id e.2)).foldl
        (fun st e => st.link fuel e.1 e.2) st := by
  induction l generalizing st with
  | nil => rfl
  | cons y l ih =>
    rw [List.foldl_cons, ih, List.map_cons, List.filter_cons]
    split
    · rfl
    · rfl

def joined {ι : Type} (id : ι → String) (join : ι → ι → Bool) (l : List ι) : List (String × String) :=
  ((pairsOf l).filter fun e => join e.1 e.2).map fun e => (id e.1, id e.2)

theorem joined_cons {ι : Type} (id : ι → String) (join : ι → ι → Bool) (x : ι) (l : List ι) :
    joined id join (x :: l) =
      (((l.map fun y => (x, y)).filter fun e => join e.1 e.2).map fun e => (id e.1, id e.2)) ++ joined id join l := by
  unfold joined
  rw [pairsOf, List.filter_append, List.map_append]

theorem joinKeyed_eq (join : String × Key → String × Key → Bool) (fuel : Nat) (l : List (String × Key)) (st : Joined) :
    joinKeyed join fuel l st = (joined Prod.fst join l).foldl (fun st e => st.link fuel e.1 e.2) st := by
  induction l generalizing st with
  | nil => rfl
  | cons x l ih => rw [joinKeyed, ih, joined_cons, List.foldl_append, joinLoop_eq Prod.fst]

theorem joinAtoms_eq (join : SegmentAtom → SegmentAtom → Bool) (fuel : Nat) (l : List SegmentAtom) (st : Joined) :
    joinAtoms join fuel l st = (joined SegmentAtom.atomId join l).foldl (fun st e => st.link fuel e.1 e.2) st := by
  induction l generalizing st with
  | nil => rfl
  | cons x l ih => rw [joinAtoms, ih, joined_cons, List.foldl_append, joinLoop_eq SegmentAtom.atomId]

theorem length_joined {ι : Type} (id : ι → String) (join : ι → ι → Bool) (l : List ι) :
    (joined id join l).length ≤ l.length * l.length := by
  unfold joined
  rw [List.length_map]
  exact (List.length_filter_le _ _).trans (length_pairsOf l)

theorem findAll_links (country : String → Option String) {pairs : List (String × String)} {fuel : Nat}
    (hfuel : pairs.length ≤ fuel) (ids : List String) :
    findAll fuel (pairs.foldl (fun st e => st.link fuel e.1 e.2) (⟨id, country⟩ : Joined)).parent ids =
      ids.map ((⟨id, country⟩ : Labelled String String).links pairs).root := by
  have hstart : Refines ⟨id, country⟩ ⟨id, country⟩ 0 := ⟨forest_id 0, rfl⟩
  have hbound : 0 + pairs.length ≤ fuel := by omega
  have hend := hstart.links pairs hbound
  exact hend.forest.findAll fuel (by omega) ids

/-! ## The sets -/

section sets

variable (T : Text) (allowed : String → String → Bool) (involving : Option (Finset String))
  (keyed : List (String × Key)) (countryOf : String → String)

/-- A pair of the list, in its order, that matches, is allowed and is involved. -/
def Matching (a b : String) : Prop :=
  ∃ k k', [(a, k), (b, k')].Sublist keyed ∧ joins allowed involving (a, k) (b, k') = true

def classesOf : Labelled String String :=
  (⟨id, knownCountry T keyed countryOf⟩ : Labelled String String).links (joined Prod.fst (joins allowed involving) keyed)

theorem mem_joined (a b : String) :
    (a, b) ∈ joined Prod.fst (joins allowed involving) keyed ↔ Matching allowed involving keyed a b := by
  unfold joined Matching
  rw [List.mem_map]
  constructor
  · rintro ⟨⟨⟨a', k⟩, b', k'⟩, hin, heq⟩
    obtain ⟨rfl, rfl⟩ := Prod.mk.inj heq
    obtain ⟨hpair, hjoin⟩ := List.mem_filter.1 hin
    exact ⟨k, k', mem_pairsOf.1 hpair, hjoin⟩
  · rintro ⟨k, k', hsub, hjoin⟩
    exact ⟨((a, k), b, k'), List.mem_filter.2 ⟨mem_pairsOf.2 hsub, hjoin⟩, rfl⟩

theorem fair_classesOf : Fair (knownCountry T keyed countryOf) (Matching allowed involving keyed)
    (classesOf T allowed involving keyed countryOf) := by
  have hpairs : (fun u v => (u, v) ∈ joined Prod.fst (joins allowed involving) keyed) =
      Matching allowed involving keyed := by
    funext u v
    exact propext (mem_joined allowed involving keyed u v)
  rw [← hpairs]
  exact fair_links _ _

theorem connectedOf_eq : connectedOf T allowed involving keyed countryOf =
    (groups (classesOf T allowed involving keyed countryOf).root (keyed.map Prod.fst)).map fun e => e.2.toFinset := by
  unfold connectedOf
  dsimp only
  rw [joinKeyed_eq, findAll_links _ (length_joined _ _ _), ← List.map_prod_right_eq_zip, groups_map, List.map_map]
  refine List.map_congr_left fun e _ => ?_
  rw [Function.comp]
  rw [List.map_map]
  exact congrArg List.toFinset (List.map_id _)

theorem mem_connectedOf (s : Finset String) : s ∈ connectedOf T allowed involving keyed countryOf ↔
    ∃ a ∈ keyed.map Prod.fst, ∀ b, b ∈ s ↔ b ∈ keyed.map Prod.fst ∧
      (classesOf T allowed involving keyed countryOf).root b = (classesOf T allowed involving keyed countryOf).root a := by
  rw [connectedOf_eq, List.mem_map]
  constructor
  · rintro ⟨e, he, rfl⟩
    obtain ⟨⟨a, ha, hkey⟩, hg⟩ := (mem_groups _ _ e).1 he
    refine ⟨a, ha, fun b => ?_⟩
    rw [hg, List.mem_toFinset, List.mem_filter, decide_eq_true_eq, hkey]
  · rintro ⟨a, ha, hs⟩
    refine ⟨((classesOf T allowed involving keyed countryOf).root a, (keyed.map Prod.fst).filter fun b =>
      (classesOf T allowed involving keyed countryOf).root b = (classesOf T allowed involving keyed countryOf).root a),
      (mem_groups _ _ _).2 ⟨⟨a, ha, rfl⟩, rfl⟩, ?_⟩
    ext b
    rw [List.mem_toFinset, List.mem_filter, decide_eq_true_eq, hs]

theorem connectedOf_disjoint : (connectedOf T allowed involving keyed countryOf).Pairwise Disjoint := by
  rw [connectedOf_eq, List.pairwise_map]
  have hkeys := List.pairwise_map.1
    (groups_keys_nodup (classesOf T allowed involving keyed countryOf).root (keyed.map Prod.fst))
  refine hkeys.imp_of_mem fun {e e'} he he' hne => Finset.disjoint_left.2 fun a ha ha' => hne ?_
  rw [((mem_groups _ _ e).1 he).2, List.mem_toFinset, List.mem_filter, decide_eq_true_eq] at ha
  rw [((mem_groups _ _ e').1 he').2, List.mem_toFinset, List.mem_filter, decide_eq_true_eq] at ha'
  exact ha.2.symm.trans ha'.2

theorem knownCountry_eq_some {a x : String} : knownCountry T keyed countryOf a = some x ↔
    a ∈ keyed.map Prod.fst ∧ T.countryNorm (countryOf a) = x ∧ x ≠ "" := by
  unfold knownCountry
  split
  · next h =>
    rw [Bool.and_eq_true, decide_eq_true_eq, decide_eq_true_eq] at h
    rw [Option.some.injEq]
    constructor
    · rintro rfl
      exact ⟨h.1, rfl, h.2⟩
    · rintro ⟨-, hx, -⟩
      exact hx
  · next h =>
    rw [Bool.and_eq_true, decide_eq_true_eq, decide_eq_true_eq] at h
    constructor
    · intro hnone
      cases hnone
    · rintro ⟨ha, rfl, hx⟩
      exact absurd ⟨ha, hx⟩ h

theorem Matching.mem {a b : String} (h : Matching allowed involving keyed a b) :
    a ∈ keyed.map Prod.fst ∧ b ∈ keyed.map Prod.fst := by
  obtain ⟨k, k', hsub, -⟩ := h
  exact ⟨List.mem_map.2 ⟨(a, k), hsub.subset (by simp), rfl⟩, List.mem_map.2 ⟨(b, k'), hsub.subset (by simp), rfl⟩⟩

end sets

/-! ## The atoms of `derive_segments` -/

section atoms

variable {T : Text} {apart : Finset (Finset String)} {involving : Option (Finset String)} {atoms : List SegmentAtom}

/-- `may_join(by_id[a], by_id[b], apart)` -/
def vetoOf (T : Text) (apart : Finset (Finset String)) (atoms : List SegmentAtom) (a b : String) : Bool :=
  match atoms.find? (fun x => x.atomId = a), atoms.find? fun x => x.atomId = b with
  | some x, some y => mayJoin T apart x y
  | _, _ => false

def countryById (atoms : List SegmentAtom) (id : String) : String :=
  ((atoms.find? fun x => x.atomId = id).map SegmentAtom.country).getD ""

def SegmentAtom.keyed (T : Text) (a : SegmentAtom) : String × Key := (a.atomId, a.key T)

/-- The classes that the loops over sorted atoms leave. -/
def atomClasses (T : Text) (apart : Finset (Finset String)) (involving : Option (Finset String)) (keyed : List SegmentAtom) :
    Labelled String String :=
  (⟨id, (Joined.init T keyed).country⟩ : Labelled String String).links
    (joined SegmentAtom.atomId (linked T apart involving) keyed)

theorem connected_groups (T : Text) (apart : Finset (Finset String)) (involving : Option (Finset String))
    (atoms : List SegmentAtom) :
    connected T apart involving atoms =
      (groups (fun a => (atomClasses T apart involving (sortBy SegmentAtom.atomId atoms)).root a.atomId)
        (sortBy SegmentAtom.atomId atoms)).map Prod.snd := by
  have hlen := length_joined SegmentAtom.atomId (linked T apart involving) (sortBy SegmentAtom.atomId atoms)
  have hinit : Joined.init T (sortBy SegmentAtom.atomId atoms) =
      ⟨id, (Joined.init T (sortBy SegmentAtom.atomId atoms)).country⟩ := rfl
  unfold connected
  dsimp only
  rw [joinAtoms_eq, hinit, findAll_links _ hlen, List.map_map, ← List.map_prod_right_eq_zip, groups_map, List.map_map]
  refine List.map_congr_left fun e _ => ?_
  rw [Function.comp]
  rw [List.map_map]
  exact List.map_id _

end atoms

/-- **Country-guarded components.**  For any keyed atoms, veto, involved set and countries the sets are disjoint and hold
the atoms, each at most one known country; two members are connected by matching pairs inside their set; and a matching
pair is in one set or in two with different known countries.  So `derive_segments` never finds two countries in one. -/
theorem connected_components (T : Text) (allowed : String → String → Bool) (involving : Option (Finset String))
    (keyed : List (String × Key)) (countryOf : String → String) :
    let sets := connectedOf T allowed involving keyed countryOf
    (∀ s ∈ sets, s.Nonempty) ∧ sets.Pairwise Disjoint ∧ (∀ a, (∃ s ∈ sets, a ∈ s) ↔ a ∈ keyed.map Prod.fst) ∧
    (∀ s ∈ sets, ∀ a ∈ s, ∀ b ∈ s, T.countryNorm (countryOf a) ≠ "" → T.countryNorm (countryOf b) ≠ "" →
      T.countryNorm (countryOf a) = T.countryNorm (countryOf b)) ∧
    (∀ s ∈ sets, ∀ a ∈ s, ∀ b ∈ s, ReflTransGen (fun u v => u ∈ s ∧ v ∈ s ∧
      (Matching allowed involving keyed u v ∨ Matching allowed involving keyed v u)) a b) ∧
    (∀ a b, Matching allowed involving keyed a b →
      (∃ s ∈ sets, a ∈ s ∧ b ∈ s) ∨ ∃ s ∈ sets, ∃ t ∈ sets, a ∈ s ∧ b ∈ t ∧ ∃ c ∈ s, ∃ d ∈ t,
        T.countryNorm (countryOf c) ≠ "" ∧ T.countryNorm (countryOf d) ≠ "" ∧
          T.countryNorm (countryOf c) ≠ T.countryNorm (countryOf d)) ∧
    ∀ (sha : String → String) (apart : Finset (Finset String)) (atoms : List SegmentAtom),
      (atoms.map SegmentAtom.atomId).Nodup → ∃ segments, deriveSegments T sha apart involving atoms = .ok segments := by
  intro sets
  have hfair := fair_classesOf T allowed involving keyed countryOf
  have hmem := mem_connectedOf T allowed involving keyed countryOf
  -- the set of an atom
  have hset : ∀ a ∈ keyed.map Prod.fst, ∃ s ∈ sets, ∀ b, b ∈ s ↔ b ∈ keyed.map Prod.fst ∧
      (classesOf T allowed involving keyed countryOf).root b = (classesOf T allowed involving keyed countryOf).root a := by
    intro a ha
    refine ⟨(keyed.map Prod.fst).toFinset.filter fun b => (classesOf T allowed involving keyed countryOf).root b =
      (classesOf T allowed involving keyed countryOf).root a, ?_, ?_⟩
    · refine (hmem _).2 ⟨a, ha, fun b => ?_⟩
      rw [Finset.mem_filter, List.mem_toFinset]
    · intro b
      rw [Finset.mem_filter, List.mem_toFinset]
  refine ⟨fun s hs => ?_, connectedOf_disjoint T allowed involving keyed countryOf, fun a => ?_, fun s hs a ha b hb hca hcb => ?_,
    fun s hs a ha b hb => ?_, fun a b hab => ?_, fun sha apart atoms hid => ⟨_, deriveSegments_eq T sha apart involving hid⟩⟩
  · obtain ⟨a, ha, hs⟩ := (hmem s).1 hs
    exact ⟨a, (hs a).2 ⟨ha, rfl⟩⟩
  · constructor
    · rintro ⟨s, hs, ha⟩
      obtain ⟨r, -, hs⟩ := (hmem s).1 hs
      exact ((hs a).1 ha).1
    · intro ha
      obtain ⟨s, hs, hin⟩ := hset a ha
      exact ⟨s, hs, (hin a).2 ⟨ha, rfl⟩⟩
  · obtain ⟨r, -, hs⟩ := (hmem s).1 hs
    obtain ⟨ha, hra⟩ := (hs a).1 ha
    obtain ⟨hb, hrb⟩ := (hs b).1 hb
    have hla := hfair.label a _ ((knownCountry_eq_some T keyed countryOf).2 ⟨ha, rfl, hca⟩)
    have hlb := hfair.label b _ ((knownCountry_eq_some T keyed countryOf).2 ⟨hb, rfl, hcb⟩)
    rw [hra, ← hrb, hlb] at hla
    exact (Option.some.inj hla).symm
  · obtain ⟨r, -, hs⟩ := (hmem s).1 hs
    obtain ⟨-, hra⟩ := (hs a).1 ha
    obtain ⟨-, hrb⟩ := (hs b).1 hb
    refine ReflTransGen.mono ?_ _ _ (hfair.chain a b (hra.trans hrb.symm))
    rintro u v ⟨hu, hv, hpair⟩
    have hids : u ∈ keyed.map Prod.fst ∧ v ∈ keyed.map Prod.fst := by
      rcases hpair with hpair | hpair
      · exact hpair.mem
      · exact hpair.mem.symm
    exact ⟨(hs u).2 ⟨hids.1, hu.trans hra⟩, (hs v).2 ⟨hids.2, hv.trans hra⟩, hpair⟩
  · obtain ⟨s, hs, hins⟩ := hset a hab.mem.1
    obtain ⟨t, ht, hint⟩ := hset b hab.mem.2
    rcases hfair.apart a b hab with heq | ⟨x, y, hx, hy, hne⟩
    · exact Or.inl ⟨s, hs, (hins a).2 ⟨hab.mem.1, rfl⟩, (hins b).2 ⟨hab.mem.2, heq.symm⟩⟩
    · obtain ⟨c, hrc, hc⟩ := hfair.known a x hx
      obtain ⟨d, hrd, hd⟩ := hfair.known b y hy
      obtain ⟨hcin, rfl, hcx⟩ := (knownCountry_eq_some T keyed countryOf).1 hc
      obtain ⟨hdin, rfl, hdy⟩ := (knownCountry_eq_some T keyed countryOf).1 hd
      exact Or.inr ⟨s, hs, t, ht, (hins a).2 ⟨hab.mem.1, rfl⟩, (hint b).2 ⟨hab.mem.2, rfl⟩, c, (hins c).2 ⟨hcin, hrc⟩, d,
        (hint d).2 ⟨hdin, hrd⟩, hcx, hdy, hne⟩

/-- Two atoms of one moment in two countries. -/
def twoCountries : List SegmentAtom :=
  [{ atomId := "a", tourId := "t", day := some 1, place := "P", action := "see", country := "Laos" },
    { atomId := "b", tourId := "u", day := some 1, place := "P", action := "see", country := "Peru" }]

theorem connected_components_twoCountries :
    ∃ segments, deriveSegments Text.ascii id ∅ none twoCountries = .ok segments :=
  (connected_components Text.ascii (vetoOf Text.ascii ∅ twoCountries) none
    (twoCountries.map (SegmentAtom.keyed Text.ascii)) (countryById twoCountries)).2.2.2.2.2.2 id ∅ twoCountries (by decide)

end CisApp.Segments
