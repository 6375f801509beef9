import CisApp.Lib.Grouping
import CisApp.Lib.UnionFind
import CisApp.Segments.Moment
import CisApp.Segments.Reconcile

/-!
# Sorting atoms into Segments

`derive_segments` of `services/acp_contract/segment_matching.py`: connected
components of the atoms under the moment rule (a union-find in the order of the
atom ids that never puts two known countries together), each named by its most
economical key and minted from it, and every contested id minted again from the
full key.

`deriveSegments_partition`: the country check never raises, and the members
partition the atom ids.
-/

namespace CisApp.Segments

open CisApp.Lib List

variable (T : Text) (sha : String → String)

/-! ## Components -/

/-- The parents of the union-find and the known country of a root. -/
structure Joined where
  parent : String → String
  country : String → Option String

/-- `lc and rc and lc != rc`. -/
def clash (lc rc : Option String) : Bool := lc.isSome && rc.isSome && lc ≠ rc

/-- One pair that the rules join. -/
def Joined.link (fuel : Nat) (st : Joined) (a b : String) : Joined :=
  let left := find fuel st.parent a
  let right := find fuel left.2 b
  if left.1 = right.1 then { st with parent := right.2 }
  else
    let lc := st.country left.1
    let rc := st.country right.1
    if clash lc rc then { st with parent := right.2 }
    else
      let root := min left.1 right.1
      { parent := Function.update right.2 (max left.1 right.1) root
        country := if lc.isSome || rc.isSome then Function.update st.country root (lc.or rc)
          else st.country }

/-- The pair is compared, looks like one moment and may join. -/
def linked (apart : Finset (Finset String)) (involving : Option (Finset String))
    (a b : SegmentAtom) : Bool :=
  (match involving with
    | none => true
    | some new => a.atomId ∈ new || b.atomId ∈ new) &&
  looksLikeOneMoment (a.key T) (b.key T) && mayJoin T apart a b

/-- The two nested loops over the atoms. -/
def joinAtoms (join : SegmentAtom → SegmentAtom → Bool) (fuel : Nat) :
    List SegmentAtom → Joined → Joined
  | [], st => st
  | a :: rest, st =>
    joinAtoms join fuel rest
      (rest.foldl (fun st b => if join a b then st.link fuel a.atomId b.atomId else st) st)

def Joined.init (atoms : List SegmentAtom) : Joined where
  parent := id
  country id :=
    (atoms.find? fun a => a.atomId = id).bind fun a =>
      if T.countryNorm a.country = "" then none else some (T.countryNorm a.country)

/-- `_connected(sorted(keys.items()), …)`: the members of each component, by atom id. -/
def connected (apart : Finset (Finset String)) (involving : Option (Finset String))
    (atoms : List SegmentAtom) : List (List SegmentAtom) :=
  let keyed := sortBy SegmentAtom.atomId atoms
  let fuel := keyed.length * keyed.length
  let st := joinAtoms (linked T apart involving) fuel keyed (Joined.init T keyed)
  let roots := findAll fuel st.parent (keyed.map SegmentAtom.atomId)
  (groups Prod.fst (roots.zip keyed)).map fun e => e.2.map Prod.snd

/-! ## Names and ids -/

abbrev KeyOrder := Nat ×ₗ List String ×ₗ String ×ₗ String ×ₗ List String

def Key.order (k : Key) : KeyOrder :=
  toLex (k.place.length, toLex (k.place, toLex (k.verb, toLex (k.said, k.about))))

def canonicalKey (keys : List Key) : Option Key := (sortBy Key.order keys).head?

def sortDay (day : Option Int) : Int := day.getD (-1)

def labelKey (a : SegmentAtom) : String ×ₗ Int ×ₗ String ×ₗ String :=
  toLex (a.tourId, toLex (sortDay a.day, toLex (a.place, a.action)))

def mint (canonical : Key) (country : String) : String :=
  sha (joinWith '|' ([joinWith ' ' canonical.place, canonical.verb] ++
    if country = "" then [] else [country]))

def mintSpecific (canonical : Key) (country : String) (n : Nat) : String :=
  sha (joinWith '|' [joinWith ' ' canonical.place, canonical.verb, country, canonical.said,
    joinWith ' ' canonical.about, n.repr])

def pseudoPrefix : String := "__existing_segment__"

def pseudoId (segmentId : String) : String := pseudoPrefix ++ segmentId

def isPseudo (atomId : String) : Bool := pseudoPrefix.toList.isPrefixOf atomId.toList

/-- The Segment id of a pseudo atom, `atom_id[len(_PSEUDO_PREFIX):]`. -/
def storedId (atomId : String) : String := String.ofList (atomId.toList.drop pseudoPrefix.length)

/-- A Segment as first minted, with what a second mint needs. -/
structure Minted where
  segment : Segment
  canonical : Key
  country : String
deriving Repr, DecidableEq

/-- The Segment of one component; `atoms` is the list in its own order. -/
def mintComponent (atoms members : List SegmentAtom) : Option Minted :=
  (canonicalKey (members.map (SegmentAtom.key T))).bind fun canonical =>
    let named := atoms.filter fun a =>
      a.atomId ∈ members.map SegmentAtom.atomId && a.key T = canonical
    (sortBy labelKey named).head?.map fun label =>
      { segment :=
          { id := mint sha canonical label.country
            place := label.place
            action := label.action
            atomIds := members.map SegmentAtom.atomId }
        canonical := canonical
        country := label.country }

def knownCountries (members : List SegmentAtom) : List String :=
  wordSet ((members.filter fun a => T.strip a.country ≠ "").map fun a => T.countryNorm a.country)

def storedIds (minted : List Minted) : List String :=
  minted.flatMap fun m => (m.segment.atomIds.filter fun a => isPseudo a).map storedId

/-- `while identifier in stored and …: n += 1`, with the `n` it stops at. -/
def freeMint (stored : List String) (m : Minted) : Nat → Nat → Nat
  | 0, n => n
  | fuel + 1, n =>
    let identifier := mintSpecific sha m.canonical m.country n
    if identifier ∈ stored && pseudoId identifier ∉ m.segment.atomIds then
      freeMint stored m fuel (n + 1)
    else n

/-- The second mints of one group: the next index of each full key, and the ids given so far. -/
def remintStep (stored : List String) (st : (Key × String → Nat) × List (Nat × String))
    (e : Minted × Nat) : (Key × String → Nat) × List (Nat × String) :=
  let full := (e.1.canonical, e.1.country)
  let n := freeMint sha stored e.1 stored.length (st.1 full)
  (Function.update st.1 full (n + 1), st.2 ++ [(e.2, mintSpecific sha e.1.canonical e.1.country n)])

/-- The new ids of a contested group, by position in the list. -/
def remintGroup (stored : List String) (baseId : String) (members : List (Minted × Nat)) :
    List (Nat × String) :=
  if members.length < 2 && baseId ∉ stored then []
  else
    ((sortBy (fun e => e.1.segment.atomIds)
        (members.filter fun e => pseudoId baseId ∉ e.1.segment.atomIds)).foldl
      (remintStep sha stored) (fun _ => 0, [])).2

def remints (minted : List Minted) : List (Nat × String) :=
  (groups (fun e => e.1.segment.id) minted.zipIdx).flatMap fun g =>
    remintGroup sha (storedIds minted) g.1 g.2

def uniqueIds (minted : List Minted) : List Segment :=
  minted.zipIdx.map fun e =>
    { e.1.segment with id := ((remints sha minted).lookup e.2).getD e.1.segment.id }

def deriveSegments (apart : Finset (Finset String)) (involving : Option (Finset String))
    (atoms : List SegmentAtom) : Except SegmentError (List Segment) :=
  let memberships := connected T apart involving atoms
  match memberships.find? fun members => 1 < (knownCountries T members).length with
  | some members => .error (.mixedCountry (knownCountries T members))
  | none =>
    .ok (sortBy Segment.id (uniqueIds sha (memberships.filterMap (mintComponent T sha atoms))))

/-! ## The components -/

/-- The forest of the atoms joined so far: its roots, and the known country of each class. -/
structure JoinInv (atoms : List SegmentAtom) (st : Joined) (root : String → String) (n : Nat) :
    Prop where
  forest : Forest st.parent root n
  country : ∀ a ∈ atoms, T.countryNorm a.country ≠ "" →
    st.country (root a.atomId) = some (T.countryNorm a.country)

variable {T sha} {atoms : List SegmentAtom}

variable {st : Joined} {root : String → String} {n : Nat}

theorem JoinInv.mono {m : Nat}
    (h : JoinInv T atoms st root n) (hnm : n ≤ m) : JoinInv T atoms st root m :=
  ⟨h.forest.mono hnm, h.country⟩

theorem joinInv_init (hid : (atoms.map SegmentAtom.atomId).Nodup) :
    JoinInv T atoms (Joined.init T atoms) id 0 := by
  refine ⟨forest_id 0, fun a ha hc => ?_⟩
  have hfind : atoms.find? (fun b => b.atomId = a.atomId) = some a := by
    cases hf : atoms.find? (fun b => b.atomId = a.atomId) with
    | none =>
      rw [List.find?_eq_none] at hf
      exact absurd (decide_eq_true rfl) (hf a ha)
    | some b =>
      have hb := List.find?_some hf
      rw [decide_eq_true_eq] at hb
      rw [inj_on_of_nodup_map hid (List.mem_of_find?_eq_some hf) ha hb]
  show (atoms.find? fun b => b.atomId = a.atomId).bind _ = _
  rw [hfind, Option.bind_some, if_neg hc]

theorem JoinInv.point (h : JoinInv T atoms st root n)
    {p : String → String} (hp : Forest p root n) (x y : String) (hxy : root x ≠ root y)
    {country : String → Option String}
    (hother : ∀ r, r ≠ root y → country r = st.country r)
    (hroot : ∀ c, st.country (root x) = some c ∨ st.country (root y) = some c →
      country (root y) = some c) :
    JoinInv T atoms ⟨Function.update p (root x) (root y), country⟩
      (fun z => if root z = root x then root y else root z) (n + 1) := by
  refine ⟨hp.link x y hxy, fun a ha hc => ?_⟩
  have hold := h.country a ha hc
  dsimp only
  by_cases hax : root a.atomId = root x
  · rw [if_pos hax]
    rw [hax] at hold
    exact hroot _ (Or.inl hold)
  · rw [if_neg hax]
    by_cases hay : root a.atomId = root y
    · rw [hay] at hold ⊢
      exact hroot _ (Or.inr hold)
    · rw [hother _ hay]
      exact hold

theorem JoinInv.link (h : JoinInv T atoms st root n)
    (fuel : Nat) (hn : n ≤ fuel) (a b : String) :
    ∃ root', JoinInv T atoms (st.link fuel a b) root' (n + 1) := by
  obtain ⟨hl, h1⟩ := h.forest.find fuel hn a
  obtain ⟨hr, h2⟩ := h1.find fuel hn b
  unfold Joined.link
  dsimp only
  rw [hl, hr]
  by_cases hab : root a = root b
  · rw [if_pos hab]
    exact ⟨root, h2.mono (by omega), h.country⟩
  · rw [if_neg hab]
    by_cases hclash : clash (st.country (root a)) (st.country (root b)) = true
    · rw [if_pos hclash]
      exact ⟨root, h2.mono (by omega), h.country⟩
    · rw [if_neg hclash]
      have hagree : ∀ c c', st.country (root a) = some c → st.country (root b) = some c' →
          c = c' := by
        intro c c' hc hc'
        simp only [clash, hc, hc', Option.isSome_some, Bool.and_self, Bool.true_and, ne_eq,
          Option.some.injEq, decide_eq_true_eq, not_not] at hclash
        exact hclash
      -- what the root of the joined class is set to
      have hset : ∀ r c, st.country (root a) = some c ∨ st.country (root b) = some c →
          (if (st.country (root a)).isSome || (st.country (root b)).isSome then
              Function.update st.country r ((st.country (root a)).or (st.country (root b)))
            else st.country) r = some c := by
        intro r c hc
        have hor : (st.country (root a)).or (st.country (root b)) = some c := by
          rcases hc with hc | hc
          · rw [hc, Option.some_or]
          · cases hca : st.country (root a) with
            | none => rw [Option.none_or, hc]
            | some c' => rw [Option.some_or, hagree c' c hca hc]
        have hsome : ((st.country (root a)).isSome || (st.country (root b)).isSome) = true := by
          rcases hc with hc | hc <;> simp [hc]
        rw [if_pos hsome, Function.update_self, hor]
      have hkeep : ∀ r r', r' ≠ r →
          (if (st.country (root a)).isSome || (st.country (root b)).isSome then
              Function.update st.country r ((st.country (root a)).or (st.country (root b)))
            else st.country) r' = st.country r' := by
        intro r r' hne
        split
        · exact Function.update_of_ne hne _ _
        · rfl
      rcases lt_or_gt_of_ne hab with hlt | hlt
      · rw [min_eq_left hlt.le, max_eq_right hlt.le]
        exact ⟨_, h.point h2 b a (Ne.symm hab) (hkeep _) fun c hc => hset _ c hc.symm⟩
      · rw [min_eq_right hlt.le, max_eq_left hlt.le]
        exact ⟨_, h.point h2 a b hab (hkeep _) (hset _)⟩

theorem JoinInv.joinAtoms (join : SegmentAtom → SegmentAtom → Bool) (fuel : Nat)
    (l : List SegmentAtom)
    (h : JoinInv T atoms st root n) (hfuel : n + l.length * l.length ≤ fuel) :
    ∃ root', JoinInv T atoms (joinAtoms join fuel l st) root' fuel := by
  have hinner : ∀ (a : SegmentAtom) (rest : List SegmentAtom) (st : Joined) (root : String → String)
      (n : Nat), JoinInv T atoms st root n → n + rest.length ≤ fuel →
      ∃ root', JoinInv T atoms (rest.foldl
        (fun st b => if join a b then st.link fuel a.atomId b.atomId else st) st) root'
        (n + rest.length) := by
    intro a rest
    induction rest with
    | nil => exact fun st root n h _ => ⟨root, h⟩
    | cons b rest ih =>
      intro st root n h hn
      rw [length_cons] at hn ⊢
      have hstep : ∃ root', JoinInv T atoms
          (if join a b then st.link fuel a.atomId b.atomId else st) root' (n + 1) := by
        split
        · exact h.link fuel (by omega) _ _
        · exact ⟨root, h.mono (by omega)⟩
      obtain ⟨root', h'⟩ := hstep
      obtain ⟨root'', h''⟩ := ih _ root' (n + 1) h' (by omega)
      exact ⟨root'', h''.mono (by omega)⟩
  induction l generalizing st root n with
  | nil => exact ⟨root, h.mono (by simpa using hfuel)⟩
  | cons a rest ih =>
    rw [length_cons] at hfuel
    have hsq : (rest.length + 1) * (rest.length + 1) =
        rest.length * rest.length + 2 * rest.length + 1 := by ring
    obtain ⟨root', h'⟩ := hinner a rest st root n h (by omega)
    exact ih h' (by omega)

variable (T) in
theorem connected_eq (apart : Finset (Finset String)) (involving : Option (Finset String))
    (atoms : List SegmentAtom) (hid : (atoms.map SegmentAtom.atomId).Nodup) :
    ∃ root : String → String,
      connected T apart involving atoms =
        (groups (fun a => root a.atomId) (sortBy SegmentAtom.atomId atoms)).map Prod.snd ∧
      ∀ a ∈ atoms, ∀ b ∈ atoms, root a.atomId = root b.atomId → T.countryNorm a.country ≠ "" →
        T.countryNorm b.country ≠ "" → T.countryNorm a.country = T.countryNorm b.country := by
  have hkeyed : ((sortBy SegmentAtom.atomId atoms).map SegmentAtom.atomId).Nodup :=
    ((sortBy_perm _ atoms).map _).nodup_iff.2 hid
  obtain ⟨root, h⟩ := (joinInv_init (T := T) hkeyed).joinAtoms (linked T apart involving)
    ((sortBy SegmentAtom.atomId atoms).length * (sortBy SegmentAtom.atomId atoms).length)
    (sortBy SegmentAtom.atomId atoms) (by omega)
  refine ⟨root, ?_, fun a ha b hb hroot hca hcb => ?_⟩
  · unfold connected
    dsimp only
    rw [h.forest.findAll _ (le_refl _), map_map, ← map_prod_right_eq_zip, groups_map,
      map_map]
    refine map_congr_left fun e _ => ?_
    show (e.2.map fun a => (root a.atomId, a)).map Prod.snd = e.2
    rw [map_map]
    exact map_id _
  · have h1 := h.country a ((mem_sortBy _ atoms a).2 ha) hca
    have h2 := h.country b ((mem_sortBy _ atoms b).2 hb) hcb
    rw [hroot, h2] at h1
    exact (Option.some.inj h1).symm

/-- The components hold the atoms, none is empty, and each has one known country at most. -/
structure Components (T : Text) (atoms : List SegmentAtom) (comps : List (List SegmentAtom)) :
    Prop where
  perm : comps.flatten.Perm atoms
  nonempty : ∀ m ∈ comps, m ≠ []
  oneCountry : ∀ m ∈ comps, (knownCountries T m).length ≤ 1

theorem wordSet_length_le_one {words : List String} (h : ∀ w ∈ words, ∀ w' ∈ words, w = w') :
    (wordSet words).length ≤ 1 := by
  unfold wordSet
  rw [(sortBy_perm id words.dedup).length_eq]
  match hd : words.dedup with
  | [] => simp
  | [_] => simp
  | w :: w' :: rest =>
    have hnodup := nodup_dedup words
    rw [hd] at hnodup
    have hw : w ∈ words := by rw [← mem_dedup, hd]; simp
    have hw' : w' ∈ words := by rw [← mem_dedup, hd]; simp
    rw [h w hw w' hw'] at hnodup
    simp at hnodup

variable (T) in
theorem components_connected (apart : Finset (Finset String)) (involving : Option (Finset String))
    (hid : (atoms.map SegmentAtom.atomId).Nodup) :
    Components T atoms (connected T apart involving atoms) := by
  obtain ⟨root, heq, hcountry⟩ := connected_eq T apart involving atoms hid
  rw [heq]
  have hgroup : ∀ m ∈ (groups (fun a => root a.atomId) (sortBy SegmentAtom.atomId atoms)).map Prod.snd,
      (∃ a ∈ atoms, a ∈ m) ∧ ∀ a ∈ m, ∀ b ∈ m, a ∈ atoms ∧ root a.atomId = root b.atomId := by
    intro m hm
    obtain ⟨e, he, rfl⟩ := List.mem_map.1 hm
    obtain ⟨⟨a, ha, hk⟩, hg⟩ := (mem_groups _ _ e).1 he
    rw [mem_sortBy] at ha
    rw [hg]
    refine ⟨⟨a, ha, ?_⟩, fun b hb b' hb' => ?_⟩
    · simp [ha, hk]
    · simp only [mem_filter, mem_sortBy, decide_eq_true_eq] at hb hb'
      exact ⟨hb.1, hb.2.trans hb'.2.symm⟩
  refine ⟨?_, fun m hm => ?_, fun m hm => ?_⟩
  · rw [← flatMap_def]
    exact (groups_flatten_perm _ _).trans (sortBy_perm _ atoms)
  · obtain ⟨a, -, ha⟩ := (hgroup m hm).1
    exact ne_nil_of_mem ha
  · refine wordSet_length_le_one fun w hw w' hw' => ?_
    obtain ⟨a, ha, rfl⟩ := List.mem_map.1 hw
    obtain ⟨b, hb, rfl⟩ := List.mem_map.1 hw'
    rw [mem_filter, decide_eq_true_eq] at ha hb
    have hab := (hgroup m hm).2 a ha.1 b hb.1
    have hba := (hgroup m hm).2 b hb.1 a ha.1
    exact hcountry a hab.1 b hba.1 hab.2 (T.lower_ne _ ha.2) (T.lower_ne _ hb.2)

/-! ## The Segments -/

theorem Components.subset {comps : List (List SegmentAtom)} (h : Components T atoms comps)
    {m : List SegmentAtom} (hm : m ∈ comps) {a : SegmentAtom} (ha : a ∈ m) : a ∈ atoms :=
  h.perm.mem_iff.1 (List.mem_flatten.2 ⟨m, hm, ha⟩)

variable (T sha) in
theorem mintComponent_spec {members : List SegmentAtom} (hne : members ≠ [])
    (hsub : ∀ a ∈ members, a ∈ atoms) :
    ∃ canonical label, canonicalKey (members.map (SegmentAtom.key T)) = some canonical ∧
      (sortBy labelKey (atoms.filter fun a =>
        a.atomId ∈ members.map SegmentAtom.atomId && a.key T = canonical)).head? = some label ∧
      mintComponent T sha atoms members =
        some ⟨⟨mint sha canonical label.country, label.place, label.action,
          members.map SegmentAtom.atomId⟩, canonical, label.country⟩ := by
  obtain ⟨a, ha⟩ := exists_mem_of_ne_nil members hne
  obtain ⟨canonical, hc⟩ := head?_sortBy_isSome Key.order
    (l := members.map (SegmentAtom.key T)) (by simpa using hne)
  obtain ⟨b, hb, hbk⟩ := List.mem_map.1 (head?_sortBy hc).1
  have hnamed : b ∈ atoms.filter fun a =>
      a.atomId ∈ members.map SegmentAtom.atomId && a.key T = canonical :=
    List.mem_filter.2 ⟨hsub b hb, by simp [hbk, mem_map_of_mem hb]⟩
  obtain ⟨label, hl⟩ := head?_sortBy_isSome labelKey (ne_nil_of_mem hnamed)
  refine ⟨canonical, label, hc, hl, ?_⟩
  unfold mintComponent
  rw [show canonicalKey (members.map (SegmentAtom.key T)) = some canonical from hc]
  dsimp only [Option.bind_some]
  rw [hl, Option.map_some]

variable (T sha) in
theorem map_filterMap_mintComponent {comps : List (List SegmentAtom)} (h : ∀ m ∈ comps, m ≠ [])
    (hsub : ∀ m ∈ comps, ∀ a ∈ m, a ∈ atoms) :
    (comps.filterMap (mintComponent T sha atoms)).map (fun m => m.segment.atomIds) =
      comps.map fun m => m.map SegmentAtom.atomId := by
  induction comps with
  | nil => rfl
  | cons m comps ih =>
    obtain ⟨c, l, -, -, hm⟩ := mintComponent_spec T sha (h m mem_cons_self)
      (hsub m mem_cons_self)
    rw [filterMap_cons_some hm, map_cons, map_cons,
      ih (fun m' hm' => h m' (mem_cons_of_mem _ hm'))
        fun m' hm' => hsub m' (mem_cons_of_mem _ hm')]

variable (sha) in
theorem uniqueIds_atomIds (minted : List Minted) :
    (uniqueIds sha minted).map Segment.atomIds = minted.map fun m => m.segment.atomIds := by
  unfold uniqueIds
  rw [map_map]
  show minted.zipIdx.map ((fun m : Minted => m.segment.atomIds) ∘ Prod.fst) = _
  rw [← map_map, zipIdx_map_fst]

variable (T sha) in
theorem deriveSegments_eq (apart : Finset (Finset String)) (involving : Option (Finset String))
    (hid : (atoms.map SegmentAtom.atomId).Nodup) :
    deriveSegments T sha apart involving atoms =
      .ok (sortBy Segment.id (uniqueIds sha
        ((connected T apart involving atoms).filterMap (mintComponent T sha atoms)))) := by
  have hc := components_connected T apart involving hid
  have hnone : (connected T apart involving atoms).find?
      (fun members => 1 < (knownCountries T members).length) = none := by
    rw [List.find?_eq_none]
    intro m hm
    have := hc.oneCountry m hm
    simpa using this
  unfold deriveSegments
  dsimp only
  rw [hnone]

theorem deriveSegments_partition {apart : Finset (Finset String)} {involving : Option (Finset String)}
    (hid : (atoms.map SegmentAtom.atomId).Nodup) {segments : List Segment}
    (h : deriveSegments T sha apart involving atoms = .ok segments) :
    (segments.flatMap Segment.atomIds).Perm (atoms.map SegmentAtom.atomId) ∧
      ∀ s ∈ segments, s.atomIds ≠ [] := by
  have hc := components_connected T apart involving hid
  rw [deriveSegments_eq T sha apart involving hid] at h
  obtain rfl := Except.ok.inj h
  have hids : ∀ l : List Segment, l.flatMap Segment.atomIds = (l.map Segment.atomIds).flatten :=
    fun l => flatMap_def
  have hmap := map_filterMap_mintComponent T sha hc.nonempty
    fun m hm a ha => hc.subset hm ha
  constructor
  · refine ((sortBy_perm Segment.id _).flatMap_right _).trans ?_
    rw [hids, uniqueIds_atomIds, hmap, ← map_flatten]
    exact hc.perm.map _
  · intro s hs
    rw [mem_sortBy] at hs
    have hin : s.atomIds ∈ (connected T apart involving atoms).map
        fun m => m.map SegmentAtom.atomId := by
      rw [← hmap, ← uniqueIds_atomIds sha]
      exact mem_map_of_mem hs
    obtain ⟨m, hm, heq⟩ := List.mem_map.1 hin
    rw [← heq]
    simpa using hc.nonempty m hm

end CisApp.Segments
