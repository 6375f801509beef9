import Mathlib.Data.List.Sort

/-!
# Sorting by a key

`sortBy key` is a stable sort by a key into a linear order.  Where the keys of
the list are distinct the result depends on the elements only, not on the order
they came in.
-/

namespace CisApp.Lib

open List

variable {α β : Type} [LinearOrder β]

/-- `sorted(l, key=key)`: elements with equal keys keep their order. -/
def sortBy (key : α → β) (l : List α) : List α :=
  l.insertionSort fun a b => key a ≤ key b

variable (key : α → β)

theorem sortBy_perm (l : List α) : (sortBy key l).Perm l :=
  perm_insertionSort _ l

@[simp] theorem mem_sortBy (l : List α) (a : α) : a ∈ sortBy key l ↔ a ∈ l :=
  (sortBy_perm key l).mem_iff

theorem sortBy_pairwise (l : List α) : (sortBy key l).Pairwise fun a b => key a ≤ key b := by
  exact pairwise_insertionSort _ l

variable {l : List α}

theorem head?_sortBy {key : α → β} {a : α} (h : (sortBy key l).head? = some a) : a ∈ l ∧ ∀ b ∈ l, key a ≤ key b := by
  have hp := sortBy_pairwise key l
  obtain ⟨t, ht⟩ := List.head?_eq_some_iff.1 h
  rw [ht, pairwise_cons] at hp
  refine ⟨(mem_sortBy key l a).1 (by rw [ht]; exact mem_cons_self), fun b hb => ?_⟩
  rw [← mem_sortBy key, ht, mem_cons] at hb
  rcases hb with rfl | hb
  · exact le_refl _
  · exact hp.1 b hb

theorem head?_sortBy_isSome (h : l ≠ []) : ∃ a, (sortBy key l).head? = some a := by
  cases hs : sortBy key l with
  | nil => exact absurd (hs ▸ (sortBy_perm key l)).symm.eq_nil h
  | cons a t => exact ⟨a, rfl⟩

theorem head?_sortBy_cons {key : α → β} {a : α} (h : ∀ b ∈ l, key a ≤ key b) : (sortBy key (a :: l)).head? = some a := by
  show (List.orderedInsert _ a (sortBy key l)).head? = some a
  cases hs : sortBy key l with
  | nil => rfl
  | cons b t =>
    have hb : b ∈ l := (mem_sortBy key l b).1 (by rw [hs]; exact mem_cons_self)
    rw [List.orderedInsert, if_pos (h b hb)]
    rfl

theorem sortBy_congr {m : List α} (h : l.Perm m) (hl : (l.map key).Nodup) : sortBy key l = sortBy key m := by
  refine List.Perm.eq_of_pairwise ?_ (sortBy_pairwise key l) (sortBy_pairwise key m)
    ((sortBy_perm key l).trans (h.trans (sortBy_perm key m).symm))
  intro a b ha hb hab hba
  rw [mem_sortBy] at ha hb
  exact inj_on_of_nodup_map hl ha (h.mem_iff.2 hb) (le_antisymm hab hba)

theorem sortBy_id_congr {l m : List β} (h : l.Perm m) : sortBy id l = sortBy id m := by
  refine List.Perm.eq_of_pairwise ?_ (sortBy_pairwise id l) (sortBy_pairwise id m)
    ((sortBy_perm id l).trans (h.trans (sortBy_perm id m).symm))
  intro a b _ _ hab hba
  exact le_antisymm hab hba

theorem sortBy_congr_of_part {γ : Type} (part : β → γ) {m : List α} (h : l.Perm m)
    (hl : (l.map fun a => part (key a)).Nodup) : sortBy key l = sortBy key m := by
  refine sortBy_congr key h (List.Nodup.of_map part ?_)
  rw [map_map]
  exact hl

theorem sortBy_filter (p : α → Bool) (hl : (l.map key).Nodup) : sortBy key (l.filter p) = (sortBy key l).filter p := by
  refine List.Perm.eq_of_pairwise ?_ (sortBy_pairwise key _) ((sortBy_pairwise key l).filter p)
    ((sortBy_perm key _).trans ((sortBy_perm key l).symm.filter p))
  intro a b ha hb hab hba
  have ha' : a ∈ l := (mem_filter.1 ((mem_sortBy key _ a).1 ha)).1
  have hb' : b ∈ l := (mem_sortBy key l b).1 (mem_filter.1 hb).1
  exact inj_on_of_nodup_map hl ha' hb' (le_antisymm hab hba)

theorem map_sortBy {γ : Type} (f : γ → α) (key : α → β) (l : List γ) :
    (sortBy (fun c => key (f c)) l).map f = sortBy key (l.map f) :=
  map_insertionSort _ _ f l fun _ _ _ _ => Iff.rfl

theorem sortBy_strict (hl : (l.map key).Nodup) : (sortBy key l).Pairwise fun a b => key a < key b := by
  have hnodup : ((sortBy key l).map key).Nodup := ((sortBy_perm key l).map key).nodup_iff.2 hl
  have hne : (sortBy key l).Pairwise fun a b => key a ≠ key b := pairwise_map.1 hnodup
  exact (sortBy_pairwise key l).imp₂ (fun a b hle hne => lt_of_le_of_ne hle hne) hne

theorem pair_sublist_iff {r : α → α → Prop} (hasymm : ∀ a b, r a b → ¬r b a) (hl : l.Pairwise r) {a b : α} :
    [a, b].Sublist l ↔ a ∈ l ∧ b ∈ l ∧ r a b := by
  constructor
  · intro h
    refine ⟨h.subset (by simp), h.subset (by simp), ?_⟩
    have hpair := hl.sublist h
    rw [pairwise_cons] at hpair
    exact hpair.1 b (by simp)
  · rintro ⟨ha, hb, hab⟩
    induction l with
    | nil => cases ha
    | cons c l ih =>
      rw [pairwise_cons] at hl
      rcases mem_cons.1 ha with rfl | hal
      · rcases mem_cons.1 hb with rfl | hbl
        · exact absurd hab (hasymm _ _ hab)
        · exact List.Sublist.cons_cons _ (singleton_sublist.2 hbl)
      · rcases mem_cons.1 hb with rfl | hbl
        · exact absurd (hl.1 a hal) (hasymm _ _ hab)
        · exact (ih hl.2 hal hbl).cons c

end CisApp.Lib
