import CisApp.Places.Plan

/-!
# The clusters of a plan

The loop over the candidate pairs joins the ids of every pair with an edge, so
the clusters are the classes of the relation those edges generate, each sorted
by `keeper_key` (`sortedClusters_eq`).  Every row stands in one cluster, and the
first row of a cluster is its keeper.
-/

namespace CisApp.Places

open Lib List

variable (R : Rules) (I : Input)

/-- The ids joined by the loop: the candidate pairs with an edge. -/
def edgePairs (pairs : List (Row × Row)) : List (String × String) :=
  (pairs.filter fun p => (edge R I p.1 p.2).isSome).map fun p => pairKey p.1.id p.2.id

def Joined (x y : String) : Prop := (x, y) ∈ edgePairs R I (candidatePairs R I.rows)

theorem scan_parent (fuel : Nat) (pairs : List (Row × Row)) :
    (scan R I fuel pairs).parent = joinAll fuel id (edgePairs R I pairs) := by
  have hfold : ∀ (l : List (Row × Row)) (s : Scan),
      (l.foldl (fun s p => s.note I fuel p (dec R I p.1 p.2) (edge R I p.1 p.2)) s).parent =
        joinAll fuel s.parent (edgePairs R I l) := by
    intro l
    induction l with
    | nil => exact fun s => rfl
    | cons p l ih =>
      intro s
      rw [foldl_cons, ih]
      by_cases he : (edge R I p.1 p.2).isSome
      · simp [Scan.note, edgePairs, he, joinAll]
      · simp [Scan.note, edgePairs, he]
  exact hfold pairs {}

theorem keeperKey_id {r r' : Row} (h : keeperKey R r = keeperKey R r') : r.id = r'.id := by
  unfold keeperKey at h
  simp only [toLex_inj, Prod.mk.injEq] at h
  exact h.2.2.2.2.2.2.2.2.2.2

theorem keeperKey_nodup : (I.rows.map (keeperKey R)).Nodup := by
  refine List.Nodup.map_on ?_ (List.Nodup.of_map _ I.distinct)
  intro r hr r' hr' h
  exact I.determined r r' (.inl hr) (.inl hr') (keeperKey_id R h)

theorem sortedClusters_eq : ∃ root, sortedClusters R I = sortedGroups (fun r => root r.id) (keeperKey R) I.rows ∧
      Classes root (Joined R I) := by
  have hlen : (edgePairs R I (candidatePairs R I.rows)).length ≤ (candidatePairs R I.rows).length := by
    unfold edgePairs
    rw [length_map]
    exact length_filter_le _ _
  obtain ⟨root, hforest, hclasses⟩ := joinAll_classes (edgePairs R I (candidatePairs R I.rows)) _ hlen
  refine ⟨root, ?_, hclasses⟩
  unfold sortedClusters clusters sortedGroups
  simp only
  rw [scan_parent, hforest.findAll _ (le_refl _)]
  have hzip : ∀ l : List Row, ((l.map (·.id)).map root).zip l = l.map fun r => (root r.id, r) := by
    intro l
    induction l with
    | nil => rfl
    | cons r l ih => rw [map_cons, map_cons, zip_cons_cons, ih, map_cons]
  rw [hzip, groups_map, map_map, map_map]
  refine map_congr_left fun e _ => ?_
  show sortBy (keeperKey R) ((e.2.map fun r => (root r.id, r)).map Prod.snd) = _
  rw [map_map]
  exact congrArg _ (map_id _)

theorem mem_rows_of_mem_cluster {g : List Row} {r : Row} (hg : g ∈ sortedClusters R I) (hr : r ∈ g) : r ∈ I.rows := by
  obtain ⟨c, hc, rfl⟩ := mem_map.1 hg
  exact mem_of_mem_clusters hc ((mem_sortBy _ c r).1 hr)

theorem cluster_unique {g g' : List Row} {r : Row} (hg : g ∈ sortedClusters R I)
    (hg' : g' ∈ sortedClusters R I) (hr : r ∈ g) (hr' : r ∈ g') : g = g' := by
  obtain ⟨root, heq, -⟩ := sortedClusters_eq R I
  rw [heq] at hg hg'
  exact sortedGroups_unique _ _ hg hg' hr hr'

theorem cluster_nodup {g : List Row} (hg : g ∈ sortedClusters R I) : (g.map (·.id)).Nodup := by
  obtain ⟨root, heq, -⟩ := sortedClusters_eq R I
  rw [heq] at hg
  obtain ⟨a, -, rfl⟩ := (mem_sortedGroups _ _ _ _).1 hg
  have hperm := (sortBy_perm (keeperKey R) (I.rows.filter fun b => root b.id = root a.id)).map (·.id)
  rw [hperm.nodup_iff]
  exact I.distinct.sublist (filter_sublist.map _)

theorem sortedClusters_nodup : (sortedClusters R I).Nodup := by
  obtain ⟨root, heq, -⟩ := sortedClusters_eq R I
  rw [heq]
  exact sortedGroups_nodup _ _ _

theorem row_eq_of_id {x y : Row} (hx : x ∈ I.rows) (hy : y ∈ I.rows) (h : x.id = y.id) : x = y :=
  I.determined x y (.inl hx) (.inl hy) h

theorem nodup_flatMap_clusters {α : Type} (f : List Row → List α) (key : α → String)
    (hnodup : ∀ g ∈ sortedClusters R I, ((f g).map key).Nodup)
    (hids : ∀ g ∈ sortedClusters R I, ∀ a ∈ f g, key a ∈ g.map (·.id)) :
    (((sortedClusters R I).flatMap f).map key).Nodup := by
  rw [map_flatMap, nodup_flatMap]
  refine ⟨hnodup, (sortedClusters_nodup R I).imp_of_mem ?_⟩
  intro g g' hg hg' hne id h h'
  obtain ⟨a, ha, rfl⟩ := mem_map.1 h
  obtain ⟨b, hb, hid⟩ := mem_map.1 h'
  obtain ⟨r, hr, hra⟩ := mem_map.1 (hids g hg a ha)
  obtain ⟨r', hr', hrb⟩ := mem_map.1 (hids g' hg' b hb)
  have heq : r' = r := row_eq_of_id I (mem_rows_of_mem_cluster R I hg' hr')
    (mem_rows_of_mem_cluster R I hg hr) (by rw [hra, hrb, hid])
  exact hne (cluster_unique R I hg hg' hr (heq ▸ hr'))

end CisApp.Places
