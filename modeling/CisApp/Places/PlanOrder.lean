import CisApp.Places.MergePlan

/-!
# The plan does not depend on the order of the rows

The order of the rows decides which row of a cluster is its union-find root, the
order of the clusters, and which pair the cache meets first.  None of it is left
in the plan: the clusters are the classes of the edges whatever the order, each
is sorted by `keeper_key`, and the lists of the plan are sorted by ids that no
two entries share (`planCountry_perm`).
-/

namespace CisApp.Places

open Lib List

/-- The same arguments, the rows in another order. -/
structure Reordered (I J : Input) : Prop where
  rows : I.rows.Perm J.rows
  verdicts : I.verdicts = J.verdicts
  ctx : I.ctx = J.ctx
  rulesOnly : I.rulesOnly = J.rulesOnly
  merged : I.merged = J.merged

variable (R : Rules) {I J : Input}

/-! ## Decisions -/

namespace Reordered

variable (h : Reordered I J)
include h

theorem context : I.context R = J.context R := by
  have hunion : (I.rows.map R.hardCore).foldr (· ∪ ·) ∅ = (J.rows.map R.hardCore).foldr (· ∪ ·) ∅ :=
    (h.rows.map R.hardCore).foldr_eq ∅
  unfold Input.context
  rw [h.ctx, hunion]

theorem dec : dec R I = dec R J := by
  unfold Places.dec
  rw [h.context R]

theorem edge : edge R I = edge R J := by
  funext x y
  simp only [Places.edge, edgeBy, h.dec R, h.verdicts, h.rulesOnly]

theorem clash : clash R I = clash R J := by
  funext x y
  simp only [Places.clash, h.dec R, h.verdicts]

theorem across : across I = across J := by
  funext x y
  simp only [Places.across, bundle, h.merged]

theorem bundlesClash : bundlesClash R I = bundlesClash R J := by
  funext x y
  simp only [Places.bundlesClash, h.clash R, h.across]

theorem clusterPlan : clusterPlan R I = clusterPlan R J := by
  have hmerge : mergeOf R I = mergeOf R J := by
    funext k m basis d
    simp only [mergeOf, h.merged]
  funext g
  cases g with
  | nil => rfl
  | cons k rest =>
    simp only [Places.clusterPlan, chosen, candidates, skippedOf, clear, cutByKeeper, cutByMembers,
      why, firstClash, h.edge R, h.clash R, h.across, h.dec R, h.bundlesClash R, hmerge]

end Reordered

/-! ## Pairs -/

theorem candidatePairs_eq (rows : List Row) : candidatePairs R rows =
      (sortedGroups (fun r => R.normCountry r.country) (·.id) rows).flatMap fun g =>
        (pairsOf g).filter fun p => R.near p.1 p.2 := by
  unfold candidatePairs sortedGroups
  rw [flatMap_map]

theorem candidatePairs_perm {rows rows' : List Row} (h : rows.Perm rows')
    (hd : (rows.map (·.id)).Nodup) : (candidatePairs R rows).Perm (candidatePairs R rows') := by
  rw [candidatePairs_eq, candidatePairs_eq]
  exact (sortedGroups_perm _ _ _ h hd fun _ _ _ _ => Iff.rfl).flatMap_right _

theorem pairsOf_nodup {α : Type} {l : List α} (h : l.Nodup) : (pairsOf l).Nodup := by
  induction l with
  | nil => exact nodup_nil
  | cons a l ih =>
    obtain ⟨ha, hl⟩ := nodup_cons.1 h
    refine nodup_append.2 ⟨hl.map fun x y hxy => (Prod.ext_iff.1 hxy).2, ih hl, ?_⟩
    intro p hp q hq hpq
    obtain ⟨b, -, rfl⟩ := mem_map.1 hp
    rw [← hpq] at hq
    exact ha (mem_of_mem_pairsOf hq).1

theorem pairsOf_of_pairwise {α : Type} {r : α → α → Prop} {l : List α} (h : l.Pairwise r) : ∀ p ∈ pairsOf l, r p.1 p.2 := by
  induction l with
  | nil =>
    intro p hp
    cases hp
  | cons a l ih =>
    obtain ⟨ha, hl⟩ := pairwise_cons.1 h
    intro p hp
    rcases mem_append.1 hp with hp | hp
    · obtain ⟨b, hb, rfl⟩ := mem_map.1 hp
      exact ha b hb
    · exact ih hl p hp

theorem candidatePairs_nodup {rows : List Row} (hd : (rows.map (·.id)).Nodup) : (candidatePairs R rows).Nodup := by
  rw [candidatePairs_eq, nodup_flatMap]
  constructor
  · intro g hg
    obtain ⟨a, -, rfl⟩ := (mem_sortedGroups _ _ _ _).1 hg
    refine (pairsOf_nodup ?_).sublist filter_sublist
    rw [(sortBy_perm _ _).nodup_iff]
    exact (List.Nodup.of_map _ hd).sublist filter_sublist
  · refine (sortedGroups_nodup _ _ _).imp_of_mem ?_
    intro g g' hg hg' hne p hp hp'
    have h1 := (mem_of_mem_pairsOf (mem_filter.1 hp).1).1
    have h2 := (mem_of_mem_pairsOf (mem_filter.1 hp').1).1
    exact hne (sortedGroups_unique _ _ hg hg' h1 h2)

theorem pairKey_candidate {rows : List Row} {p : Row × Row} (hp : p ∈ candidatePairs R rows) :
    pairKey p.1.id p.2.id = (p.1.id, p.2.id) := by
  rw [candidatePairs_eq] at hp
  obtain ⟨g, hg, hp⟩ := mem_flatMap.1 hp
  obtain ⟨a, -, rfl⟩ := (mem_sortedGroups _ _ _ _).1 hg
  have hle := pairsOf_of_pairwise (sortBy_pairwise _ _) p (mem_filter.1 hp).1
  exact if_pos hle

variable (I) in
theorem candidateKeys_nodup : ((candidatePairs R I.rows).map fun p => pairKey p.1.id p.2.id).Nodup := by
  refine List.Nodup.map_on ?_ (candidatePairs_nodup R I.distinct)
  intro p hp q hq hkey
  rw [pairKey_candidate R hp, pairKey_candidate R hq, Prod.ext_iff] at hkey
  obtain ⟨hp1, hp2⟩ := mem_of_mem_candidatePairs R hp
  obtain ⟨hq1, hq2⟩ := mem_of_mem_candidatePairs R hq
  exact Prod.ext (row_eq_of_id I hp1 hq1 hkey.1) (row_eq_of_id I hp2 hq2 hkey.2)

/-! ## Clusters -/

theorem Reordered.joined (h : Reordered I J) (x y : String) : Joined R I x y ↔ Joined R J x y := by
  unfold Joined edgePairs
  rw [h.edge R]
  exact (((candidatePairs_perm R h.rows I.distinct).filter _).map _).mem_iff

theorem Reordered.clusters (h : Reordered I J) : (sortedClusters R I).Perm (sortedClusters R J) := by
  obtain ⟨root, heq, hc⟩ := sortedClusters_eq R I
  obtain ⟨root', heq', hc'⟩ := sortedClusters_eq R J
  rw [heq, heq']
  refine sortedGroups_perm _ _ _ h.rows (keeperKey_nodup R I) fun a _ b _ => ?_
  have hrel : Joined R I = Joined R J := by
    funext x y
    exact propext (h.joined R x y)
  rw [hc, hc', hrel]

variable (I) in
theorem clusterPlan_cut (g : List Row) : ((clusterPlan R I g).2.1.map (·.destinationId)).Subperm (g.map (·.id)) := by
  cases g with
  | nil => exact List.Subperm.refl _
  | cons k rest =>
    by_cases hrest : rest = []
    · simp [clusterPlan, hrest]
    · -- cut by the keeper, or clear of it and left out: two parts of the candidates
      have hparts : ((candidates R I k (membersOf k rest)).filter (fun c => (why R I k c.1).isSome) ++
          leftOut (clear R I k (candidates R I k (membersOf k rest)))
            (chosen R I k (membersOf k rest))).Subperm (candidates R I k (membersOf k rest)) := by
        refine List.Subperm.trans (List.Subperm.append (List.Subperm.refl _)
          filter_sublist.subperm) (List.Perm.subperm ?_)
        have hsplit := filter_append_perm (fun c => (why R I k c.1).isSome)
          (candidates R I k (membersOf k rest))
        simpa [clear] using hsplit
      obtain ⟨l, hperm, hsub⟩ := hparts
      have hcut := hperm.map (·.1.id)
      have hids := ((candidates_sublist R I k (membersOf k rest)).trans
        filter_sublist).map (·.id)
      rw [map_map] at hids
      simp only [clusterPlan, if_neg hrest, map_map, cutByKeeper, cutByMembers, map_append] at hcut ⊢
      exact ⟨_, hcut, (hsub.map _).trans hids⟩

variable (I) in
theorem conflicts_once : (((sortedClusters R I).flatMap fun g => (clusterPlan R I g).2.1).map (·.destinationId)).Nodup := by
  refine nodup_flatMap_clusters R I _ _ (fun g hg => ?_) (fun g _ x hx => ?_)
  · obtain ⟨l, hperm, hsub⟩ := clusterPlan_cut R I g
    exact hperm.nodup_iff.1 ((cluster_nodup R I hg).sublist hsub)
  · exact (clusterPlan_cut R I g).subset (mem_map_of_mem hx)

/-! ## The plan -/

section

variable (I)

/-- The pairs the loop asks the model about, with their scores. -/
def asked (pairs : List (Row × Row)) : List (String × String × Rat) :=
  (pairs.filter fun p => (dec R I p.1 p.2).decision = .llm ∧ ¬ I.rulesOnly ∧
    I.verdicts (pairKey p.1.id p.2.id) = none).map fun p =>
      ((pairKey p.1.id p.2.id).1, (pairKey p.1.id p.2.id).2, (dec R I p.1 p.2).score)

theorem scan_llmNeeded (fuel : Nat) (pairs : List (Row × Row)) : (scan R I fuel pairs).llmNeeded = asked R I pairs := by
  have hfold : ∀ (l : List (Row × Row)) (s : Scan),
      (l.foldl (fun s p => s.note I fuel p (dec R I p.1 p.2) (edge R I p.1 p.2)) s).llmNeeded =
        s.llmNeeded ++ asked R I l := by
    intro l
    induction l with
    | nil => simp [asked]
    | cons p l ih =>
      intro s
      rw [foldl_cons, ih]
      by_cases hask : (dec R I p.1 p.2).decision = .llm ∧ ¬ I.rulesOnly ∧
          I.verdicts (pairKey p.1.id p.2.id) = none
      · simp [Scan.note, asked, hask]
      · have hnot : ¬ (((dec R I p.1 p.2).decision = .llm ∧ ¬ I.rulesOnly) ∧
            I.verdicts (pairKey p.1.id p.2.id) = none) := fun hc => hask ⟨hc.1.1, hc.1.2, hc.2⟩
        simp only [Scan.note, if_neg hnot]
        unfold asked
        rw [filter_cons_of_neg (by simpa using hask)]
  exact (hfold pairs {}).trans (nil_append _)

theorem asked_nodup : ((asked R I (candidatePairs R I.rows)).map fun x => (x.1, x.2.1)).Nodup := by
  unfold asked
  rw [map_map]
  exact (candidateKeys_nodup R I).sublist (filter_sublist.map _)

end

namespace Reordered

variable (h : Reordered I J)
include h

theorem merges : (plan R I).merges = (plan R J).merges := by
  unfold plan
  rw [h.clusterPlan R]
  have honce := merges_once R I
  rw [h.clusterPlan R] at honce
  exact sortBy_congr_of_part _ (fun key => (ofLex key).2) ((h.clusters R).flatMap_right _) honce

theorem conflicts : (plan R I).conflicts = (plan R J).conflicts := by
  unfold plan
  rw [h.clusterPlan R]
  have honce := conflicts_once R I
  rw [h.clusterPlan R] at honce
  exact sortBy_congr_of_part _ (fun key => (ofLex key).2) ((h.clusters R).flatMap_right _) honce

theorem llmNeeded : (plan R I).llmNeeded = (plan R J).llmNeeded := by
  have hasked : asked R I = asked R J := by
    funext pairs
    simp only [asked, h.dec R, h.verdicts, h.rulesOnly]
  unfold plan
  simp only [scan_llmNeeded]
  have honce := asked_nodup R I
  rw [hasked] at honce ⊢
  exact sortBy_congr_of_part _ (fun key => ofLex (ofLex key).2)
    (((candidatePairs_perm R h.rows I.distinct).filter _).map _) honce

end Reordered

/-- Whatever the order of the rows: the same merges, conflicts, pairs for the model
and fingerprint. -/
theorem planCountry_perm (h : Reordered I J) : (planCountry R I).merges = (planCountry R J).merges ∧
    (planCountry R I).conflicts = (planCountry R J).conflicts ∧
    (planCountry R I).llmNeeded = (planCountry R J).llmNeeded ∧
    (planCountry R I).fingerprint R = (planCountry R J).fingerprint R := by
  rw [planCountry_eq, planCountry_eq]
  refine ⟨h.merges R, h.conflicts R, h.llmNeeded R, ?_⟩
  unfold Plan.fingerprint
  rw [h.merges R]

/-! ### Two rows of one mountain -/

/-- The rules on bare names: the same name at the same point is one place. -/
def bareRules : Rules where
  normCountry := String.toLower
  rule := fun _ a b =>
    if a.name = b.name ∧ a.lat = b.lat ∧ a.lng = b.lng then
      { decision := .autoMerge, score := 1, reason := "exact/both_bare", km := some 0,
        basis := some "rule", named := by simp }
    else { decision := .keep, score := 0, reason := "other/both_bare", named := by simp }
  near := fun a b => a.lat = b.lat ∧ a.lng = b.lng
  featureKind := fun _ _ => none
  namesArea := fun _ => false
  polylineKm := fun _ => 0
  hardCore := fun _ => ∅
  features := fun _ _ d => d.reason
  digest := fun body => String.join (body.map fun x => x.1 ++ x.2.1 ++ x.2.2)

def langbiang (id : String) : Row :=
  { id := id, name := "Langbiang", country := "Vietnam", lat := 12, lng := 108,
    locatedBy := some .llm }

/-- The rows `x` and `y`, in this order. -/
def twoRows (x y : String) (hxy : x ≠ y) : Input where
  rows := [langbiang x, langbiang y]
  verdicts := fun _ => none
  ctx := none
  rulesOnly := false
  merged := fun _ => []
  distinct := by simp [langbiang, hxy]
  determined := by
    intro a b ha hb
    simp only [List.mem_cons, List.not_mem_nil, or_false, exists_false] at ha hb
    rcases ha with rfl | rfl <;> rcases hb with rfl | rfl <;> simp [langbiang, hxy, hxy.symm]

theorem planCountry_perm_langbiang : (twoRows "d1" "d2" (by decide)).rows ≠ (twoRows "d2" "d1" (by decide)).rows ∧
    ((planCountry bareRules (twoRows "d1" "d2" (by decide))).merges.map fun m =>
      (m.mergedId, m.keeperId)) = [("d2", "d1")] ∧ (planCountry bareRules (twoRows "d1" "d2" (by decide))).merges =
      (planCountry bareRules (twoRows "d2" "d1" (by decide))).merges ∧
    (planCountry bareRules (twoRows "d1" "d2" (by decide))).fingerprint bareRules =
      (planCountry bareRules (twoRows "d2" "d1" (by decide))).fingerprint bareRules := by
  have hplan := planCountry_perm bareRules (I := twoRows "d1" "d2" (by decide))
    (J := twoRows "d2" "d1" (by decide)) ⟨List.Perm.swap _ _ _, rfl, rfl, rfl, rfl⟩
  refine ⟨?_, by decide +kernel, hplan.1, hplan.2.2.2⟩
  intro h
  have hid := congrArg (fun l => l.map (·.id)) h
  exact absurd hid (by decide)

end CisApp.Places
