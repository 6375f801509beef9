import Mathlib

/-! `GROUP BY` with sums.  Summed over the groups, a grouped sum is the sum over the rows (`sum_groupSum`). -/

namespace CisApp.Lib.GroupBy

open List

variable {ρ κ : Type} [DecidableEq κ]

/-- `coalesce(sum(x), 0)`: the nulls are left out. -/
def coalesceSum (xs : List (Option Int)) : Int := (xs.filterMap id).sum

def groups (key : ρ → κ) (rows : List ρ) : List κ := (rows.map key).dedup

/-- `coalesce(sum(x), 0)` of one group. -/
def groupSum (key : ρ → κ) (x : ρ → Option Int) (rows : List ρ) (k : κ) : Int :=
  coalesceSum ((rows.filter fun r => key r = k).map x)

theorem coalesceSum_cons (x : Option Int) (xs : List (Option Int)) : coalesceSum (x :: xs) = x.getD 0 + coalesceSum xs := by
  unfold coalesceSum
  cases x with
  | none => simp
  | some n => simp

theorem coalesceSum_append (xs ys : List (Option Int)) : coalesceSum (xs ++ ys) = coalesceSum xs + coalesceSum ys := by
  unfold coalesceSum
  rw [filterMap_append, sum_append]

theorem coalesceSum_perm {xs ys : List (Option Int)} (h : xs.Perm ys) : coalesceSum xs = coalesceSum ys :=
  (h.filterMap id).sum_eq

theorem groupSum_cons (key : ρ → κ) (x : ρ → Option Int) (r : ρ) (rows : List ρ) (k : κ) :
    groupSum key x (r :: rows) k = (if key r = k then (x r).getD 0 else 0) + groupSum key x rows k := by
  unfold groupSum
  by_cases hk : key r = k
  · rw [filter_cons_of_pos (by simpa using hk), if_pos hk, map_cons, coalesceSum_cons]
  · rw [filter_cons_of_neg (by simpa using hk), if_neg hk, Int.zero_add]

theorem sum_ite_of_nodup {ks : List κ} (hnd : ks.Nodup) {k : κ} (hk : k ∈ ks) (n : Int) :
    (ks.map fun k' => if k = k' then n else 0).sum = n := by
  induction ks with
  | nil => cases hk
  | cons k' ks ih =>
    obtain ⟨hnot, hnd⟩ := nodup_cons.1 hnd
    rw [map_cons, sum_cons]
    by_cases heq : k = k'
    · have hrest : (ks.map fun k'' => if k = k'' then n else 0).sum = 0 := by
        refine sum_eq_zero fun y hy => ?_
        obtain ⟨k'', hk'', rfl⟩ := mem_map.1 hy
        rw [if_neg]
        rintro rfl
        exact hnot (heq ▸ hk'')
      rw [if_pos heq, hrest, Int.add_zero]
    · rw [if_neg heq, Int.zero_add]
      exact ih hnd ((mem_cons.1 hk).resolve_left heq)

theorem sum_groupSum (key : ρ → κ) (x : ρ → Option Int) (rows : List ρ) {ks : List κ} (hnd : ks.Nodup)
    (hall : ∀ r ∈ rows, key r ∈ ks) : (ks.map (groupSum key x rows)).sum = coalesceSum (rows.map x) := by
  induction rows with
  | nil =>
    refine sum_eq_zero fun y hy => ?_
    obtain ⟨k, -, rfl⟩ := mem_map.1 hy
    rfl
  | cons r rows ih =>
    have hsplit : groupSum key x (r :: rows) =
        fun k => (if key r = k then (x r).getD 0 else 0) + groupSum key x rows k :=
      funext fun k => groupSum_cons key x r rows k
    rw [hsplit, sum_map_add, sum_ite_of_nodup hnd (hall r mem_cons_self),
      ih fun r' hr' => hall r' (mem_cons_of_mem _ hr'), map_cons, coalesceSum_cons]

/-- The groups that satisfy `P`, each with a number made of its rows, summed up. -/
def groupTotal (key : ρ → κ) (P : κ → Bool) (f : List ρ → Nat) (rows : List ρ) : Nat :=
  (((groups key rows).filter P).map fun k => f (rows.filter fun r => key r = k)).sum

theorem groupTotal_mono (key : ρ → κ) (P : κ → Bool) {f : List ρ → Nat}
    (hf : ∀ {l m : List ρ}, l.Subperm m → f l ≤ f m) {rows more : List ρ}
    (h : ∀ k, P k = true → (rows.filter fun r => key r = k).Subperm (more.filter fun r => key r = k)) :
    groupTotal key P f rows ≤ groupTotal key P f more := by
  have hsum : ∀ l : List ρ, groupTotal key P f l =
      ∑ k ∈ ((groups key l).filter P).toFinset, f (l.filter fun r => key r = k) := fun l =>
    (sum_toFinset _ ((nodup_dedup _).filter P)).symm
  rw [hsum, hsum]
  refine le_trans (Finset.sum_le_sum fun k hk => ?_) (Finset.sum_le_sum_of_subset fun k hk => ?_)
  · exact hf (h k (mem_filter.1 (mem_toFinset.1 hk)).2)
  · obtain ⟨hkey, hP⟩ := mem_filter.1 (mem_toFinset.1 hk)
    obtain ⟨r, hr, hrk⟩ := mem_map.1 (mem_dedup.1 hkey)
    have hmem := (h k hP).subset (mem_filter.2 ⟨hr, decide_eq_true hrk⟩)
    exact mem_toFinset.2 (mem_filter.2
      ⟨mem_dedup.2 (mem_map.2 ⟨r, (mem_filter.1 hmem).1, hrk⟩), hP⟩)

end CisApp.Lib.GroupBy
