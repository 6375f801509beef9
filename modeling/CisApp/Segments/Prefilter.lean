import CisApp.Segments.Components
import CisApp.Segments.Given
import CisApp.Segments.Order
import CisApp.Segments.Writes

/-!
# The prefilter of the pool

`_candidate_pseudo_atoms` leaves out the existing Segments that no new atom can join.
Their pseudo atoms are alone in the components of the whole pool, so the components,
the keys and the labels of all others stay (`minted_filter`).  But they also had a
stored id, and a key to mint one from: without them an id may be uncontested that the
whole pool contests.  `prefilter_same` says when nothing of this matters.
-/

namespace CisApp.Segments

open Lib List

theorem looksLikeOneMoment_shares {k k' : Key} (h : looksLikeOneMoment k k' = true) :
    k.verb = k'.verb ∧ k.verb ≠ "" ∧ k.place.any (· ∈ k'.place) = true := by
  unfold looksLikeOneMoment at h
  split at h
  · cases h
  · next hverb =>
    rw [Bool.or_eq_true, decide_eq_true_eq, decide_eq_true_eq, not_or, not_not] at hverb
    split at h
    · cases h
    · split at h
      · cases h
      · next hplace =>
        refine ⟨hverb.1, hverb.2, ?_⟩
        rw [Bool.or_eq_true, not_or, List.isEmpty_iff, List.isEmpty_iff] at hplace
        have hleft := length_pos_iff_ne_nil.2 hplace.1
        have hright := length_pos_iff_ne_nil.2 hplace.2
        rw [Bool.or_eq_true, Bool.or_eq_true, decide_eq_true_eq, decide_eq_true_eq, decide_eq_true_eq] at h
        have hshared : 0 < (k.place.filter (· ∈ k'.place)).length := by omega
        obtain ⟨w, hw⟩ := exists_mem_of_length_pos hshared
        obtain ⟨hwin, hwin'⟩ := mem_filter.1 hw
        exact List.any_eq_true.2 ⟨w, hwin, hwin'⟩

/-! ## The two pools -/

section pools

variable (T : Text) (new pseudo : List SegmentAtom) (keep : List String)

/-- `_candidate_pseudo_atoms` keeps the pseudo atom. -/
def isCandidate (p : SegmentAtom) : Bool :=
  p.atomId ∈ keep || new.any fun a =>
    (a.key T).verb ≠ "" && (a.key T).verb = (p.key T).verb && (a.key T).place.any (· ∈ (p.key T).place)

def wholePool : List SegmentAtom := new ++ pseudo

def candidatePool : List SegmentAtom := new ++ candidatePseudoAtoms T new pseudo keep

def leftOut : List SegmentAtom := pseudo.filter fun p => !isCandidate T new keep p

def inBoth (id : String) : Bool := id ∉ (leftOut T new pseudo keep).map SegmentAtom.atomId

def newIds : Finset String := (new.map SegmentAtom.atomId).toFinset

variable {T new pseudo keep} (hid : ((wholePool new pseudo).map SegmentAtom.atomId).Nodup)
include hid

theorem eq_of_atomId {a b : SegmentAtom} (ha : a ∈ wholePool new pseudo) (hb : b ∈ wholePool new pseudo)
    (h : a.atomId = b.atomId) : a = b :=
  inj_on_of_nodup_map hid ha hb h

theorem new_ne_pseudo {a p : SegmentAtom} (ha : a ∈ new) (hp : p ∈ pseudo) : a.atomId ≠ p.atomId := by
  unfold wholePool at hid
  rw [map_append, nodup_append] at hid
  exact hid.2.2 a.atomId (mem_map_of_mem ha) p.atomId (mem_map_of_mem hp)

theorem inBoth_new {a : SegmentAtom} (ha : a ∈ new) : inBoth T new pseudo keep a.atomId = true := by
  refine decide_eq_true fun hin => ?_
  obtain ⟨p, hp, heq⟩ := mem_map.1 hin
  exact new_ne_pseudo hid ha (mem_of_mem_filter hp) heq.symm

theorem inBoth_pseudo {p : SegmentAtom} (hp : p ∈ pseudo) :
    inBoth T new pseudo keep p.atomId = isCandidate T new keep p := by
  cases hc : isCandidate T new keep p with
  | true =>
    refine decide_eq_true fun hin => ?_
    obtain ⟨q, hq, heq⟩ := mem_map.1 hin
    obtain ⟨hqin, hqc⟩ := mem_filter.1 hq
    rw [eq_of_atomId hid (mem_append_right _ hqin) (mem_append_right _ hp) heq, hc] at hqc
    cases hqc
  | false =>
    refine decide_eq_false (not_not.2 (mem_map.2 ⟨p, mem_filter.2 ⟨hp, ?_⟩, rfl⟩))
    rw [hc]
    rfl

theorem candidatePool_eq : candidatePool T new pseudo keep =
    (wholePool new pseudo).filter fun a => inBoth T new pseudo keep a.atomId := by
  unfold candidatePool wholePool
  rw [filter_append]
  congr 1
  · exact (filter_eq_self.2 fun a ha => inBoth_new hid ha).symm
  · exact filter_congr fun p hp => (inBoth_pseudo hid hp).symm

variable (keep) in
theorem candidate_ids : ((candidatePool T new pseudo keep).map SegmentAtom.atomId).Nodup := by
  rw [candidatePool_eq hid]
  exact hid.sublist (filter_sublist.map _)

variable (keep) in
theorem linked_inBoth {apart : Finset (Finset String)} {a b : SegmentAtom} (ha : a ∈ wholePool new pseudo)
    (hb : b ∈ wholePool new pseudo) (h : linked T apart (some (newIds new)) a b = true) :
    inBoth T new pseudo keep a.atomId = true ∧ inBoth T new pseudo keep b.atomId = true := by
  unfold linked at h
  dsimp only at h
  rw [Bool.and_eq_true, Bool.and_eq_true, Bool.or_eq_true, decide_eq_true_eq, decide_eq_true_eq] at h
  obtain ⟨⟨hinvolved, hmoment⟩, -⟩ := h
  obtain ⟨hverb, hne, hplace⟩ := looksLikeOneMoment_shares hmoment
  -- an atom with a match among the new ones is not left out
  have hstays : ∀ x ∈ wholePool new pseudo, ∀ y ∈ new, (y.key T).verb ≠ "" → (y.key T).verb = (x.key T).verb →
      (y.key T).place.any (· ∈ (x.key T).place) = true → inBoth T new pseudo keep x.atomId = true := by
    intro x hx y hy hyne hyverb hyplace
    rcases mem_append.1 hx with hx | hx
    · exact inBoth_new hid hx
    · rw [inBoth_pseudo hid hx]
      refine Bool.or_eq_true_iff.2 (Or.inr (List.any_eq_true.2 ⟨y, hy, ?_⟩))
      rw [decide_eq_true hyne, decide_eq_true hyverb, hyplace]
      rfl
  have hnew : ∀ x ∈ wholePool new pseudo, x.atomId ∈ newIds new → x ∈ new := by
    intro x hx hin
    obtain ⟨y, hy, heq⟩ := mem_map.1 (mem_toFinset.1 hin)
    rw [← eq_of_atomId hid (mem_append_left _ hy) hx heq]
    exact hy
  rcases hinvolved with hin | hin
  · have han := hnew a ha hin
    exact ⟨inBoth_new hid han, hstays b hb a han hne hverb hplace⟩
  · have hbn := hnew b hb hin
    refine ⟨hstays a ha b hbn (hverb ▸ hne) hverb.symm ?_, inBoth_new hid hbn⟩
    obtain ⟨w, hw, hw'⟩ := List.any_eq_true.1 hplace
    exact List.any_eq_true.2 ⟨w, of_decide_eq_true hw', decide_eq_true hw⟩

/-! ## Components -/

variable (apart : Finset (Finset String))

theorem sorted_candidatePool : sortBy SegmentAtom.atomId (candidatePool T new pseudo keep) =
    (sortBy SegmentAtom.atomId (wholePool new pseudo)).filter fun a => inBoth T new pseudo keep a.atomId := by
  rw [candidatePool_eq hid]
  exact sortBy_filter SegmentAtom.atomId (fun a => inBoth T new pseudo keep a.atomId) hid

theorem joined_candidatePool : joined SegmentAtom.atomId (linked T apart (some (newIds new)))
        (sortBy SegmentAtom.atomId (candidatePool T new pseudo keep)) =
      joined SegmentAtom.atomId (linked T apart (some (newIds new))) (sortBy SegmentAtom.atomId (wholePool new pseudo)) := by
  unfold joined
  rw [sorted_candidatePool hid, pairsOf_filter, filter_filter]
  refine congrArg _ (filter_congr ?_)
  rintro ⟨a, b⟩ hin
  have hsub := mem_pairsOf.1 hin
  have ha := (mem_sortBy _ _ a).1 (hsub.subset (by simp))
  have hb := (mem_sortBy _ _ b).1 (hsub.subset (by simp))
  cases hl : linked T apart (some (newIds new)) a b with
  | false => rfl
  | true =>
    obtain ⟨hsa, hsb⟩ := linked_inBoth keep hid ha hb hl
    rw [hsa, hsb]
    rfl

variable (keep) in
theorem agree_pools : Agree (fun id => inBoth T new pseudo keep id = true)
    (atomClasses T apart (some (newIds new)) (sortBy SegmentAtom.atomId (candidatePool T new pseudo keep)))
    (atomClasses T apart (some (newIds new)) (sortBy SegmentAtom.atomId (wholePool new pseudo))) := by
  unfold atomClasses
  rw [joined_candidatePool hid]
  refine agree_links (fun id hstays => ?_) fun e he => ?_
  · unfold Joined.init
    dsimp only
    rw [sorted_candidatePool hid]
    have hfind : ∀ l : List SegmentAtom, (l.filter fun a => inBoth T new pseudo keep a.atomId).find? (fun a => a.atomId = id) =
        l.find? fun a => a.atomId = id := by
      intro l
      induction l with
      | nil => rfl
      | cons a l ih =>
        by_cases ha : inBoth T new pseudo keep a.atomId = true
        · rw [filter_cons, if_pos ha, List.find?_cons, List.find?_cons, ih]
        · rw [filter_cons, if_neg ha, List.find?_cons, ih, decide_eq_false]
          rintro rfl
          exact ha hstays
    rw [hfind]
  · obtain ⟨⟨a, b⟩, hin, rfl⟩ := mem_map.1 he
    obtain ⟨hpair, hl⟩ := mem_filter.1 hin
    have hsub := mem_pairsOf.1 hpair
    exact linked_inBoth _ hid ((mem_sortBy _ _ a).1 (hsub.subset (by simp))) ((mem_sortBy _ _ b).1 (hsub.subset (by simp))) hl

theorem connected_candidatePool : connected T apart (some (newIds new)) (candidatePool T new pseudo keep) =
      (connected T apart (some (newIds new)) (wholePool new pseudo)).filter fun m =>
        m.all fun a => inBoth T new pseudo keep a.atomId := by
  have hagree := agree_pools (T := T) keep hid apart
  have hclass : ∀ a ∈ sortBy SegmentAtom.atomId (wholePool new pseudo),
      ∀ b ∈ sortBy SegmentAtom.atomId (wholePool new pseudo),
      (atomClasses T apart (some (newIds new)) (sortBy SegmentAtom.atomId (wholePool new pseudo))).root a.atomId =
        (atomClasses T apart (some (newIds new)) (sortBy SegmentAtom.atomId (wholePool new pseudo))).root b.atomId →
      inBoth T new pseudo keep a.atomId = inBoth T new pseudo keep b.atomId := by
    intro a _ b _ hroot
    rw [← hagree.root] at hroot
    by_cases ha : inBoth T new pseudo keep a.atomId = true <;> by_cases hb : inBoth T new pseudo keep b.atomId = true
    · rw [ha, hb]
    · have hra := hagree.inside _ ha
      rw [hroot, hagree.outside _ hb] at hra
      exact absurd hra hb
    · have hrb := hagree.inside _ hb
      rw [← hroot, hagree.outside _ ha] at hrb
      exact absurd hrb ha
    · rw [Bool.not_eq_true] at ha hb
      rw [ha, hb]
  rw [connected_groups, connected_groups, hagree.root, sorted_candidatePool hid, groups_filter _ _ hclass, filter_map]
  rfl

/-! ## Minted Segments -/

variable (T) in
def mintedOf (sha : String → String) (apart : Finset (Finset String)) (new pool : List SegmentAtom) : List Minted :=
  (connected T apart (some (newIds new)) pool).filterMap (mintComponent T sha pool)

variable (sha : String → String)

theorem mintComponent_candidatePool {m : List SegmentAtom}
    (hstays : (m.all fun a => inBoth T new pseudo keep a.atomId) = true) :
    mintComponent T sha (candidatePool T new pseudo keep) m = mintComponent T sha (wholePool new pseudo) m := by
  have hnamed : ∀ canonical, (candidatePool T new pseudo keep).filter
      (fun a => a.atomId ∈ m.map SegmentAtom.atomId && a.key T = canonical) =
      (wholePool new pseudo).filter fun a => a.atomId ∈ m.map SegmentAtom.atomId && a.key T = canonical := by
    intro canonical
    rw [candidatePool_eq hid, filter_filter]
    refine filter_congr fun a _ => ?_
    by_cases hin : a.atomId ∈ m.map SegmentAtom.atomId
    · obtain ⟨b, hb, heq⟩ := mem_map.1 hin
      rw [← heq, List.all_eq_true.1 hstays b hb, Bool.and_true]
    · rw [decide_eq_false hin, Bool.false_and, Bool.false_and]
  unfold mintComponent
  simp only [hnamed]

variable (keep) in
theorem minted_filter : mintedOf T sha apart new (candidatePool T new pseudo keep) =
    (mintedOf T sha apart new (wholePool new pseudo)).filter fun x => x.segment.atomIds.all (inBoth T new pseudo keep) := by
  have hc := components_connected T apart (some (newIds new)) hid
  unfold mintedOf
  rw [connected_candidatePool hid apart]
  have hmain : ∀ l : List (List SegmentAtom), (∀ m ∈ l, m ≠ [] ∧ ∀ a ∈ m, a ∈ wholePool new pseudo) →
      (l.filter fun m => m.all fun a => inBoth T new pseudo keep a.atomId).filterMap
        (mintComponent T sha (candidatePool T new pseudo keep)) =
      (l.filterMap (mintComponent T sha (wholePool new pseudo))).filter fun x =>
        x.segment.atomIds.all (inBoth T new pseudo keep) := by
    intro l hl
    induction l with
    | nil => rfl
    | cons m l ih =>
      obtain ⟨hne, hsub⟩ := hl m mem_cons_self
      obtain ⟨canonical, label, -, -, hmint⟩ := mintComponent_spec T sha hne hsub
      have ih := ih fun m' hm' => hl m' (mem_cons_of_mem _ hm')
      have hall : (m.map SegmentAtom.atomId).all (inBoth T new pseudo keep) =
          m.all fun a => inBoth T new pseudo keep a.atomId := all_map
      rw [filterMap_cons_some hmint, filter_cons, filter_cons]
      dsimp only
      rw [hall]
      split
      · next hstays => rw [filterMap_cons_some ((mintComponent_candidatePool hid sha hstays).trans hmint), ih]
      · exact ih
  exact hmain _ fun m hm => ⟨hc.nonempty m hm, fun a ha => hc.subset hm ha⟩

variable (keep) in
theorem minted_cases {m : Minted} (hm : m ∈ mintedOf T sha apart new (wholePool new pseudo)) :
    m ∈ mintedOf T sha apart new (candidatePool T new pseudo keep) ∨ ∃ p ∈ leftOut T new pseudo keep,
      m = ⟨⟨mint sha (p.key T) p.country, p.place, p.action, [p.atomId]⟩, p.key T, p.country⟩ := by
  have hc := components_connected T apart (some (newIds new)) hid
  obtain ⟨members, hmembers, hmint⟩ := mem_filterMap.1 hm
  by_cases hall : (members.all fun a => inBoth T new pseudo keep a.atomId) = true
  · left
    rw [minted_filter _ hid apart sha, mem_filter]
    refine ⟨hm, ?_⟩
    obtain ⟨label, -, -, hspec⟩ := mintComponent_label T sha hid (hc.nonempty _ hmembers) fun a ha => hc.subset hmembers ha
    rw [hspec] at hmint
    rw [← Option.some.inj hmint]
    exact all_map.trans hall
  · right
    rw [Bool.not_eq_true, all_eq_false] at hall
    obtain ⟨a, ha, hgone⟩ := hall
    -- the class of an atom that is left out is the atom
    have hagree := agree_pools (T := T) keep hid apart
    have halone : ∀ b ∈ members, b = a := by
      intro b hb
      obtain ⟨e, he, hsnd⟩ := mem_map.1 (connected_groups T apart _ _ ▸ hmembers)
      rw [← hsnd, ((mem_groups _ _ e).1 he).2, mem_filter, decide_eq_true_eq, ← hagree.root] at ha hb
      have hroot := hb.2.trans ha.2.symm
      rw [hagree.outside _ hgone] at hroot
      have hbgone : ¬inBoth T new pseudo keep b.atomId = true := by
        intro hstays
        have := hagree.inside _ hstays
        rw [hroot] at this
        exact hgone this
      rw [hagree.outside _ hbgone] at hroot
      exact eq_of_atomId hid ((mem_sortBy _ _ b).1 hb.1) ((mem_sortBy _ _ a).1 ha.1) hroot
    have hmembersEq : members = [a] := by
      have hnodup : members.Nodup := by
        have hflat : (connected T apart (some (newIds new)) (wholePool new pseudo)).flatten.Nodup :=
          hc.perm.nodup_iff.2 (List.Nodup.of_map _ hid)
        exact (nodup_flatten.1 hflat).1 members hmembers
      refine perm_singleton.1 ((perm_ext_iff_of_nodup hnodup (nodup_singleton a)).2 fun b => ?_)
      rw [mem_singleton]
      constructor
      · exact halone b
      · rintro rfl
        exact ha
    obtain ⟨label, hlabel, -, hspec⟩ := mintComponent_label T sha hid (hc.nonempty _ hmembers) fun a ha => hc.subset hmembers ha
    rw [hmint, halone label hlabel.mem, hmembersEq] at hspec
    unfold inBoth at hgone
    rw [decide_eq_true_eq, not_not] at hgone
    obtain ⟨p, hp, heq⟩ := mem_map.1 hgone
    obtain rfl := eq_of_atomId hid (mem_append_right _ (mem_of_mem_filter hp)) (hc.subset hmembers ha) heq
    exact ⟨p, hp, Option.some.inj hspec⟩

end pools

/-! ## Ids -/

section ids

variable {T : Text} {sha : String → String} {apart : Finset (Finset String)} {new pool pseudo : List SegmentAtom}
  {keep : List String}

def leftOutIds (T : Text) (new pseudo : List SegmentAtom) (keep : List String) : List String :=
  ((leftOut T new pseudo keep).filter fun p => isPseudo p.atomId).map fun p => storedId p.atomId

def HasNew (new : List SegmentAtom) (s : Segment) : Prop := ∃ a ∈ new, a.atomId ∈ s.atomIds

theorem minted_atomIds (hid : (pool.map SegmentAtom.atomId).Nodup) :
    (mintedOf T sha apart new pool).map (fun m => m.segment.atomIds) =
      (connected T apart (some (newIds new)) pool).map fun m => m.map SegmentAtom.atomId := by
  have hc := components_connected T apart (some (newIds new)) hid
  exact map_filterMap_mintComponent T sha hc.nonempty fun m hm a ha => hc.subset hm ha

variable (sha apart new) in
theorem minted_flatten (hid : (pool.map SegmentAtom.atomId).Nodup) :
    ((mintedOf T sha apart new pool).map fun m => m.segment.atomIds).flatten.Perm (pool.map SegmentAtom.atomId) := by
  rw [minted_atomIds hid, ← map_flatten]
  exact (components_connected T apart (some (newIds new)) hid).perm.map _

theorem minted_nodup (hid : (pool.map SegmentAtom.atomId).Nodup) :
    ((mintedOf T sha apart new pool).map fun m => m.segment.atomIds).Nodup := by
  have hflat := (minted_flatten (T := T) sha apart new hid).nodup_iff.2 hid
  have hne : ∀ l ∈ (mintedOf T sha apart new pool).map (fun m => m.segment.atomIds), l ≠ [] := by
    intro l hl
    rw [minted_atomIds hid] at hl
    obtain ⟨m, hm, rfl⟩ := mem_map.1 hl
    simpa using (components_connected T apart (some (newIds new)) hid).nonempty m hm
  refine (nodup_flatten.1 hflat).2.imp_of_mem fun {l l'} hl _ hdisj heq => ?_
  obtain ⟨x, hx⟩ := exists_mem_of_ne_nil l (hne l hl)
  exact hdisj hx (heq ▸ hx)

theorem mem_storedIds_pool (hid : (pool.map SegmentAtom.atomId).Nodup) {x : String} :
    x ∈ storedIds (mintedOf T sha apart new pool) ↔ ∃ a ∈ pool, isPseudo a.atomId = true ∧ storedId a.atomId = x := by
  have hflat := minted_flatten (T := T) sha apart new hid
  unfold storedIds
  rw [mem_flatMap]
  constructor
  · rintro ⟨m, hm, hx⟩
    obtain ⟨i, hi, rfl⟩ := mem_map.1 hx
    obtain ⟨hin, hpseudo⟩ := mem_filter.1 hi
    obtain ⟨a, ha, rfl⟩ := mem_map.1 (hflat.mem_iff.1 (mem_flatten.2 ⟨_, mem_map_of_mem hm, hin⟩))
    exact ⟨a, ha, hpseudo, rfl⟩
  · rintro ⟨a, ha, hpseudo, rfl⟩
    obtain ⟨l, hl, hin⟩ := mem_flatten.1 (hflat.mem_iff.2 (mem_map_of_mem ha))
    obtain ⟨m, hm, rfl⟩ := mem_map.1 hl
    exact ⟨m, hm, mem_map.2 ⟨a.atomId, mem_filter.2 ⟨hin, hpseudo⟩, rfl⟩⟩

theorem derived_eq (T : Text) (sha : String → String) (apart : Finset (Finset String)) (new : List SegmentAtom)
    (hid : (pool.map SegmentAtom.atomId).Nodup) :
    ∃ segments, deriveSegments T sha apart (some (newIds new)) pool = .ok segments ∧
      ∀ s, s ∈ segments ↔ ∃ m ∈ mintedOf T sha apart new pool,
        s = { m.segment with
          id := (givenId sha (storedIds (mintedOf T sha apart new pool)) (rivals (mintedOf T sha apart new pool) m) m) } := by
  refine ⟨_, deriveSegments_eq T sha apart (some (newIds new)) hid, fun s => ?_⟩
  rw [mem_sortBy]
  show s ∈ uniqueIds sha (mintedOf T sha apart new pool) ↔ _
  rw [uniqueIds_eq (minted_nodup hid), mem_map]
  constructor
  · rintro ⟨m, hm, rfl⟩
    exact ⟨m, hm, rfl⟩
  · rintro ⟨m, hm, rfl⟩
    exact ⟨m, hm, rfl⟩

variable (hid : ((wholePool new pseudo).map SegmentAtom.atomId).Nodup)
include hid

variable (keep) in
theorem mem_leftOut_pool {a : SegmentAtom} : a ∈ wholePool new pseudo ↔
    a ∈ candidatePool T new pseudo keep ∨ a ∈ leftOut T new pseudo keep := by
  rw [candidatePool_eq hid, mem_filter]
  constructor
  · intro ha
    by_cases hboth : inBoth T new pseudo keep a.atomId = true
    · exact Or.inl ⟨ha, hboth⟩
    · right
      unfold inBoth at hboth
      rw [decide_eq_true_eq, not_not] at hboth
      obtain ⟨p, hp, heq⟩ := mem_map.1 hboth
      rw [← eq_of_atomId hid (mem_append_right _ (mem_of_mem_filter hp)) ha heq]
      exact hp
  · rintro (ha | ha)
    · exact ha.1
    · exact mem_append_right _ (mem_of_mem_filter ha)

variable (keep) in
theorem mem_storedIds_whole (x : String) : x ∈ storedIds (mintedOf T sha apart new (wholePool new pseudo)) ↔
    x ∈ storedIds (mintedOf T sha apart new (candidatePool T new pseudo keep)) ∨ x ∈ leftOutIds T new pseudo keep := by
  rw [mem_storedIds_pool hid, mem_storedIds_pool (candidate_ids _ hid)]
  unfold leftOutIds
  rw [mem_map]
  constructor
  · rintro ⟨a, ha, hpseudo, rfl⟩
    rcases (mem_leftOut_pool (T := T) keep hid).1 ha with ha | ha
    · exact Or.inl ⟨a, ha, hpseudo, rfl⟩
    · exact Or.inr ⟨a, mem_filter.2 ⟨ha, hpseudo⟩, rfl⟩
  · rintro (⟨a, ha, hpseudo, rfl⟩ | ⟨a, ha, rfl⟩)
    · exact ⟨a, (mem_leftOut_pool _ hid).2 (Or.inl ha), hpseudo, rfl⟩
    · obtain ⟨ha, hpseudo⟩ := mem_filter.1 ha
      exact ⟨a, (mem_leftOut_pool (T := T) keep hid).2 (Or.inr ha), hpseudo, rfl⟩

variable (keep) in
theorem minted_both {m : Minted} (hnew : HasNew new m.segment) : m ∈ mintedOf T sha apart new (wholePool new pseudo) ↔
      m ∈ mintedOf T sha apart new (candidatePool T new pseudo keep) := by
  constructor
  · intro hm
    refine (minted_cases keep hid apart sha hm).resolve_right ?_
    rintro ⟨p, hp, rfl⟩
    obtain ⟨a, ha, hin⟩ := hnew
    exact new_ne_pseudo hid ha (mem_of_mem_filter hp) (mem_singleton.1 hin)
  · intro hm
    rw [minted_filter _ hid apart sha] at hm
    exact mem_of_mem_filter hm

theorem rivals_both {m : Minted}
    (hown : ∀ p ∈ leftOut T new pseudo keep, mint sha (p.key T) p.country ≠ m.segment.id) :
    rivals (mintedOf T sha apart new (wholePool new pseudo)) m =
      rivals (mintedOf T sha apart new (candidatePool T new pseudo keep)) m := by
  unfold rivals
  rw [minted_filter keep hid apart sha, filter_filter]
  refine filter_congr fun r hr => ?_
  by_cases hsame : r.segment.id = m.segment.id
  · rw [decide_eq_true hsame, Bool.true_and]
    rcases minted_cases keep hid apart sha hr with hboth | ⟨p, hp, rfl⟩
    · rw [minted_filter _ hid apart sha] at hboth
      exact (mem_filter.1 hboth).2.symm
    · exact absurd hsame (hown p hp)
  · rw [decide_eq_false hsame, Bool.false_and]

end ids

def SameNew (new : List SegmentAtom) (one other : List Segment) : Prop := ∀ s, HasNew new s → (s ∈ one ↔ s ∈ other)

theorem pseudoId_storedId {id : String} (h : isPseudo id = true) : pseudoId (storedId id) = id := by
  obtain ⟨t, ht⟩ := isPrefixOf_iff_prefix.1 h
  refine String.toList_inj.1 ?_
  unfold pseudoId storedId
  rw [String.toList_append, String.toList_ofList, ← ht, ← String.length_toList, drop_left]

def pwDigest : String → String :=
  tableDigest [("p|w", "4de941ee0a1a06b4"), ("p|w||w||0", "64975ca6e9fe7bcd"), ("q|w", "6a37e5a0a058b1c8")]

def atP : SegmentAtom := ⟨"n", "t", some 1, "P", "w", "", none⟩

def atQ (stored : String) : SegmentAtom := ⟨pseudoId stored, "", none, "Q", "w", "", none⟩

end CisApp.Segments
