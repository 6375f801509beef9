import CisApp.Places.Clusters

/-!
# What a plan merges

The merges of `plan_country` are stars: every merged row goes to one keeper,
and no keeper is merged.  A merged row is not manual, has an edge of its own to
its keeper, and hides no line; and the rows that end up under one keeper, with
the rows already merged into each of them, fit together pair by pair
(`planCountry_safe`).
-/

namespace CisApp.Places

open Lib List

variable (R : Rules) (I : Input)

/-! ## The statement -/

/-- The pair is neither a hard keep nor called different. -/
def Fits (p q : Row) : Prop :=
  (dec R I p q).hard = false ∧ I.verdicts (pairKey p.id q.id) ≠ some .different

/-- The rules merge the pair, or the two-model check confirmed it. -/
def OwnEdge (k m : Row) : Prop :=
  (dec R I k m).decision = .autoMerge ∨
    ((dec R I k m).decision = .llm ∧ I.rulesOnly = false ∧
      I.verdicts (pairKey k.id m.id) = some .same)

/-- `x` ends up under `k`: it is `k`, or is merged into it. -/
def Under (merges : List Merge) (k x : Row) : Prop :=
  x = k ∨ ∃ m ∈ merges, m.keeperId = k.id ∧ m.mergedId = x.id

structure SafeMerges (merges : List Merge) : Prop where
  once : (merges.map (·.mergedId)).Nodup
  star : ∀ x ∈ merges, ∀ y ∈ merges, x.mergedId ≠ y.keeperId
  /-- Both rows are rows of the input, the merged one not manual, with an edge of
  its own to the keeper and no line to hide. -/
  rows : ∀ x ∈ merges, ∃ k ∈ I.rows, ∃ m ∈ I.rows, k.id = x.keeperId ∧ m.id = x.mergedId ∧
    m.manual = false ∧ OwnEdge R I k m ∧ hidesLine k m = none
  together : ∀ k ∈ I.rows, ∀ x ∈ I.rows, ∀ y ∈ I.rows, Under merges k x → Under merges k y → x ≠ y →
    ∀ p ∈ bundle I x, ∀ q ∈ bundle I y, Fits R I p q

/-! ## Pairs -/

theorem fits_iff (p q : Row) : clash R I p q = none ↔ Fits R I p q := by
  unfold clash clashBy Fits
  by_cases hv : I.verdicts (pairKey p.id q.id) = some .different
  · simp [hv]
  · simp [hv]

theorem Fits.symm {p q : Row} (h : Fits R I p q) : Fits R I q p := by
  rw [← fits_iff] at h ⊢
  rw [clash_symm]
  exact h

variable {k : Row}

theorem ownEdge_of_edge {m : Row} {basis : String} (h : edge R I k m = some basis) : OwnEdge R I k m := by
  unfold edge edgeBy at h
  cases hd : (dec R I k m).decision with
  | autoMerge => exact .inl hd
  | llm =>
    right
    simp only [hd] at h
    split at h
    · next hc => exact ⟨hd, by simpa using hc.1, hc.2⟩
    · cases h
  | keep =>
    simp only [hd] at h
    cases h

theorem across_fits {x y : Row} (h : ∀ p ∈ across I x y, clash R I p.1 p.2 = none) :
    ∀ p ∈ bundle I x, ∀ q ∈ bundle I y, Fits R I p q := by
  intro p hp q hq
  rw [← fits_iff]
  exact h (p, q) (mem_product.2 ⟨hp, hq⟩)

theorem why_eq_none {m : Row} (h : why R I k m = none) :
    hidesLine k m = none ∧ ∀ p ∈ bundle I m, ∀ q ∈ bundle I k, Fits R I p q := by
  unfold why at h
  cases hh : hidesLine k m with
  | some hidden => simp [hh] at h
  | none =>
    simp only [hh] at h
    refine ⟨rfl, across_fits R I fun p hp => ?_⟩
    have hp' := List.findSome?_eq_none_iff.1 h p hp
    simpa using hp'

theorem bundlesClash_eq_false {x y : Row × String} (h : bundlesClash R I x y = false) :
    ∀ p ∈ bundle I x.1, ∀ q ∈ bundle I y.1, Fits R I p q := by
  refine across_fits R I fun p hp => ?_
  have hp' := any_eq_false.1 h p hp
  simpa using hp'

/-! ## One cluster -/

/-- What is known of a row merged into the keeper of a cluster. -/
structure Member (k : Row) (members : List Row) (c : Row × String) : Prop where
  mem : c.1 ∈ members
  free : c.1.manual = false
  own : OwnEdge R I k c.1
  shows : hidesLine k c.1 = none
  fits : ∀ p ∈ bundle I c.1, ∀ q ∈ bundle I k, Fits R I p q

theorem member_of_chosen {members : List Row} {c : Row × String}
    (hc : c ∈ chosen R I k members) : Member R I k members c := by
  obtain ⟨hcand, hwhy⟩ := mem_filter.1 ((chosen_subset R k members).subset hc)
  obtain ⟨hmem, hman, hedge⟩ := (mem_candidates R).1 hcand
  obtain ⟨hline, hfits⟩ := why_eq_none R I (Option.isNone_iff_eq_none.1 hwhy)
  exact ⟨hmem, hman, ownEdge_of_edge R I hedge, hline, hfits⟩

theorem candidates_sublist (k : Row) (members : List Row) : ((candidates R I k members).map (·.1)).Sublist members := by
  induction members with
  | nil => exact List.Sublist.refl _
  | cons m members ih =>
    unfold candidates at ih ⊢
    rw [filterMap_cons]
    split
    · exact ih.cons m
    · next c hc =>
      have hcm : c.1 = m := by
        split at hc
        · cases hc
        · obtain ⟨b, -, rfl⟩ := Option.map_eq_some_iff.1 hc
          rfl
      rw [map_cons, hcm]
      exact ih.cons_cons m

theorem chosen_sublist (k : Row) (members : List Row) : ((chosen R I k members).map (·.1)).Sublist members :=
  ((((chosen_subset R k members).trans filter_sublist).map _)).trans
    (candidates_sublist R I k members)

theorem chosen_fits {members : List Row} {c d : Row × String}
    (hc : c ∈ chosen R I k members) (hd : d ∈ chosen R I k members) (hne : c ≠ d) :
    ∀ p ∈ bundle I c.1, ∀ q ∈ bundle I d.1, Fits R I p q := by
  have hpair := (largestConsistent_spec (clear R I k (candidates R I k members)) _
    (bundlesClash_symm R I)).2
  have : Std.Symm fun x y => bundlesClash R I x y = false :=
    ⟨fun x y h => (bundlesClash_symm R I y x).trans h⟩
  have hclash : bundlesClash R I c d = false := hpair.forall hc hd hne
  exact bundlesClash_eq_false R I hclash

/-- The members of a sorted cluster: every row but the first. -/
def membersOf (k : Row) (rest : List Row) : List Row := (k :: rest).filter (·.id ≠ k.id)

variable {x : Merge}

theorem mem_clusterPlan {g : List Row} (hx : x ∈ (clusterPlan R I g).1) :
    ∃ k rest c, g = k :: rest ∧ c ∈ chosen R I k (membersOf k rest) ∧ x = mergeOf R I k c.1 c.2 (dec R I k c.1) := by
  cases g with
  | nil => simp [clusterPlan] at hx
  | cons k rest =>
    by_cases hrest : rest = []
    · simp [clusterPlan, hrest] at hx
    · simp only [clusterPlan, if_neg hrest] at hx
      obtain ⟨c, hc, rfl⟩ := mem_map.1 hx
      exact ⟨k, rest, c, rfl, hc, rfl⟩

theorem mem_membersOf {m : Row} {rest : List Row} (h : m ∈ membersOf k rest) : m ∈ k :: rest ∧ m.id ≠ k.id := by
  unfold membersOf at h
  rw [mem_filter, decide_eq_true_eq] at h
  exact h

theorem clusterPlan_ids (g : List Row) : ((clusterPlan R I g).1.map (·.mergedId)).Sublist (g.map (·.id)) := by
  cases g with
  | nil => exact List.Sublist.refl _
  | cons k rest =>
    by_cases hrest : rest = []
    · simp [clusterPlan, hrest]
    · simp only [clusterPlan, if_neg hrest, map_map]
      have hsub := ((chosen_sublist R I k (membersOf k rest)).trans filter_sublist).map (·.id)
      rw [map_map] at hsub
      exact hsub

/-! ## The whole plan -/

theorem mem_plan_merges : x ∈ (plan R I).merges ↔ ∃ g ∈ sortedClusters R I, x ∈ (clusterPlan R I g).1 := by
  unfold plan
  rw [mem_sortBy, mem_flatMap]

theorem plan_merge (hx : x ∈ (plan R I).merges) :
    ∃ k rest c, (k :: rest) ∈ sortedClusters R I ∧ Member R I k (membersOf k rest) c ∧
      c ∈ chosen R I k (membersOf k rest) ∧ x.keeperId = k.id ∧ x.mergedId = c.1.id := by
  obtain ⟨g, hg, hxg⟩ := (mem_plan_merges R I).1 hx
  obtain ⟨k, rest, c, rfl, hc, rfl⟩ := mem_clusterPlan R I hxg
  exact ⟨k, rest, c, hg, member_of_chosen R I hc, hc, rfl, rfl⟩

theorem merges_once : (((sortedClusters R I).flatMap fun g => (clusterPlan R I g).1).map (·.mergedId)).Nodup := by
  refine nodup_flatMap_clusters R I _ _ (fun g hg => ?_) (fun g hg x hx => ?_)
  · exact (cluster_nodup R I hg).sublist (clusterPlan_ids R I g)
  · exact (clusterPlan_ids R I g).subset (mem_map_of_mem hx)

theorem merges_star {y : Merge} (hx : x ∈ (plan R I).merges) (hy : y ∈ (plan R I).merges) : x.mergedId ≠ y.keeperId := by
  intro h
  obtain ⟨k, rest, c, hg, hm, -, hk, hid⟩ := plan_merge R I hx
  obtain ⟨k', rest', c', hg', -, -, hk', -⟩ := plan_merge R I hy
  obtain ⟨hmem, hne⟩ := mem_membersOf hm.mem
  have heq : c.1 = k' := row_eq_of_id I (mem_rows_of_mem_cluster R I hg hmem)
    (mem_rows_of_mem_cluster R I hg' mem_cons_self) (by rw [← hid, h, hk'])
  -- the two clusters share the row, so they are one, and its keeper is its first row
  have hclusters := cluster_unique R I hg hg' hmem (heq ▸ mem_cons_self)
  rw [List.cons.injEq] at hclusters
  exact hne (by rw [heq, hclusters.1])

theorem under_cases {x : Row} (hk : k ∈ I.rows) (hx : x ∈ I.rows) (h : Under (plan R I).merges k x) :
    x = k ∨ ∃ rest c, (k :: rest) ∈ sortedClusters R I ∧ c ∈ chosen R I k (membersOf k rest) ∧ c.1 = x := by
  rcases h with rfl | ⟨m, hm, hmk, hmx⟩
  · exact .inl rfl
  · obtain ⟨k', rest, c, hg, hmem, hc, hk', hid⟩ := plan_merge R I hm
    have hkk : k' = k := row_eq_of_id I (mem_rows_of_mem_cluster R I hg mem_cons_self) hk
      (by rw [← hk', hmk])
    subst hkk
    have hcx : c.1 = x := row_eq_of_id I
      (mem_rows_of_mem_cluster R I hg (mem_membersOf hmem.mem).1) hx (by rw [← hid, hmx])
    exact .inr ⟨rest, c, hg, hc, hcx⟩

theorem merges_together {x y : Row} (hk : k ∈ I.rows) (hx : x ∈ I.rows) (hy : y ∈ I.rows)
    (hux : Under (plan R I).merges k x) (huy : Under (plan R I).merges k y) (hne : x ≠ y) :
    ∀ p ∈ bundle I x, ∀ q ∈ bundle I y, Fits R I p q := by
  rcases under_cases R I hk hx hux with rfl | ⟨rest, c, hg, hc, rfl⟩
  · rcases under_cases R I hk hy huy with rfl | ⟨rest', c', hg', hc', rfl⟩
    · exact absurd rfl hne
    · intro p hp q hq
      exact ((member_of_chosen R I hc').fits q hq p hp).symm
  · rcases under_cases R I hk hy huy with rfl | ⟨rest', c', hg', hc', rfl⟩
    · exact (member_of_chosen R I hc).fits
    · have hrest := cluster_unique R I hg hg' mem_cons_self mem_cons_self
      rw [List.cons.injEq] at hrest
      rw [← hrest.2] at hc'
      exact chosen_fits R I hc hc' fun h => hne (congrArg Prod.fst h)

/-- Every plan merges safely. -/
theorem planCountry_safe : SafeMerges R I (planCountry R I).merges := by
  rw [planCountry_eq]
  refine ⟨?_, fun x hx y hy => merges_star R I hx hy, fun x hx => ?_,
    fun k hk x hx y hy hux huy hne => merges_together R I hk hx hy hux huy hne⟩
  · exact ((sortBy_perm _ _).map _).nodup_iff.2 (merges_once R I)
  · obtain ⟨k, rest, c, hg, hm, -, hk, hid⟩ := plan_merge R I hx
    exact ⟨k, mem_rows_of_mem_cluster R I hg mem_cons_self, c.1,
      mem_rows_of_mem_cluster R I hg (mem_membersOf hm.mem).1, hk.symm, hid.symm, hm.free, hm.own,
      hm.shows⟩

end CisApp.Places
