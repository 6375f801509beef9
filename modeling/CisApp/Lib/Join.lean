import CisApp.Lib.Table

/-!
# Outer joins

`leftJoin l r on`: every row of `l` with each row of `r` that it meets, or with none (NULLs) if it meets no row.
Where a row meets at most one, as on a key, the join only adds a column (`leftJoin_of_unique`).
-/

namespace CisApp.Lib

open List

variable {α β κ ρ : Type}

def leftJoin (l : List α) (r : List β) (on : α → β → Bool) : List (α × Option β) :=
  l.flatMap fun a =>
    match r.filter (on a) with
    | [] => [(a, none)]
    | found => found.map fun b => (a, some b)

theorem leftJoin_of_unique {l : List α} {r : List β} {on : α → β → Bool} (h : ∀ a ∈ l, (r.filter (on a)).length ≤ 1) :
    leftJoin l r on = l.map fun a => (a, (r.filter (on a)).head?) := by
  unfold leftJoin
  induction l with
  | nil => rfl
  | cons a l ih =>
    have hrest := ih fun b hb => h b (mem_cons_of_mem a hb)
    have hone := h a mem_cons_self
    rw [flatMap_cons, map_cons, hrest]
    cases hf : r.filter (on a) with
    | nil => rfl
    | cons b found =>
      rw [hf, length_cons] at hone
      obtain rfl : found = [] := length_eq_zero_iff.1 (by omega)
      rfl

theorem filter_key [DecidableEq κ] (t : Table κ ρ) (k : κ) (p : ρ → Bool) :
    t.rows.filter (fun x => decide (x.1 = k) && p x.2) = ((t.get? k).filter p).toList.map fun r => (k, r) := by
  have hrows : ∀ l : List (κ × ρ), (l.map Prod.fst).Nodup →
      l.filter (fun x => decide (x.1 = k) && p x.2) = ((l.lookup k).filter p).toList.map fun r => (k, r) := by
    intro l
    induction l with
    | nil => exact fun _ => rfl
    | cons x l ih =>
      intro hl
      obtain ⟨hx, hl⟩ := nodup_cons.1 hl
      by_cases hk : k = x.1
      · have hrest : l.filter (fun x => decide (x.1 = k) && p x.2) = [] := by
          rw [filter_eq_nil_iff]
          intro y hy hyk
          rw [Bool.and_eq_true, decide_eq_true_eq] at hyk
          exact hx (mem_map.2 ⟨y, hy, hyk.1.trans hk⟩)
        rw [filter_cons, hrest, hk, lookup_cons, beq_self_eq_true]
        cases hp : p x.2 with
        | true => simp [Option.filter, hp]
        | false => simp [Option.filter, hp]
      · have hne : (k == x.1) = false := by simpa using hk
        rw [filter_cons, lookup_cons, hne, if_neg (by simp [Ne.symm hk])]
        exact ih hl
  exact hrows t.rows t.nodup

end CisApp.Lib
