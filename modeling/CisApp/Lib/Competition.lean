import Mathlib.Data.List.Sort
import CisApp.Lib.Dict
import CisApp.Lib.Sorted

/-!
# Competition ranking

Best first: 1, 2, 2, 4.  One pass over the sorted list keeps the last value and its
place; a new value takes the position it stands at.  In the end the place of an
element is one more than the number of those that are better (`get?_competition`),
whatever order the list came in.
-/

namespace CisApp.Lib

open List

variable {α κ : Type} [DecidableEq κ]

structure Placing (κ : Type) where
  previous : Option Int
  place : Nat
  ranks : Table κ Nat

section pass

variable (key : α → κ) (value : α → Int)

def Placing.next (st : Placing κ) (e : α × Nat) : Placing κ :=
  let place := if some (value e.1) ≠ st.previous then e.2 else st.place
  ⟨some (value e.1), place, st.ranks.upsert (key e.1) place⟩

def places (ordered : List α) : Placing κ := (ordered.zipIdx 1).foldl (Placing.next key value) ⟨none, 0, Table.empty⟩

/-- The places under their keys, from the best value to the least. -/
def competition (l : List α) : Table κ Nat := (places key value (sortBy (fun a => -value a) l)).ranks

/-- One more than the number of elements that are better. -/
def standing (l : List α) (v : Int) : Nat := 1 + l.countP fun b => decide (v < value b)

end pass

variable {key : α → κ} {value : α → Int}

theorem places_concat (l : List α) (a : α) :
    places key value (l ++ [a]) = (places key value l).next key value (a, l.length + 1) := by
  unfold places
  rw [zipIdx_append, foldl_append, Nat.add_comm]
  rfl

theorem standing_concat (l : List α) {a : α} {v : Int} (h : ¬v < value a) :
    standing value (l ++ [a]) v = standing value l v := by
  unfold standing
  rw [countP_append, countP_singleton, if_neg (by simpa using h), Nat.add_zero]

theorem standing_perm {l m : List α} (h : l.Perm m) (v : Int) : standing value l v = standing value m v := by
  unfold standing
  rw [h.countP_eq]

variable (value) in
theorem standing_le (l : List α) {v w : Int} (h : v ≤ w) : standing value l w ≤ standing value l v := by
  refine Nat.add_le_add_left (countP_mono_left fun b _ hb => ?_) 1
  exact decide_eq_true (lt_of_le_of_lt h (of_decide_eq_true hb))

variable (value) in
theorem standing_lt {l : List α} {a : α} (ha : a ∈ l) {v : Int} (h : v < value a) :
    standing value l (value a) < standing value l v := by
  obtain ⟨s, t, rfl⟩ := append_of_mem ha
  have hs := standing_le value s (le_of_lt h)
  have ht := standing_le value t (le_of_lt h)
  unfold standing at hs ht ⊢
  rw [countP_append, countP_append, countP_cons, countP_cons, if_neg (by simp), if_pos (decide_eq_true h)]
  omega

/-- What the pass knows of the elements it has seen. -/
structure Placed (key : α → κ) (value : α → Int) (l : List α) (st : Placing κ) : Prop where
  previous : st.previous = l.getLast?.map value
  place : ∀ a, l.getLast? = some a → st.place = standing value l (value a)
  keys : ∀ k, (st.ranks.get? k).isSome = true ↔ k ∈ l.map key
  ranks : ∀ a ∈ l, st.ranks.get? (key a) = some (standing value l (value a))

theorem placed_places {l : List α} (hsorted : l.Pairwise fun a b => value b ≤ value a) (hkeys : (l.map key).Nodup) :
    Placed key value l (places key value l) := by
  induction l using List.reverseRecOn with
  | nil =>
    refine ⟨rfl, fun a ha => ?_, fun k => ?_, fun a ha => ?_⟩
    · cases ha
    · constructor <;> intro h <;> cases h
    · cases ha
  | append_singleton l a ih =>
    rw [pairwise_append] at hsorted
    rw [map_append, nodup_append] at hkeys
    have hle : ∀ b ∈ l, value a ≤ value b := fun b hb => hsorted.2.2 b hb a mem_cons_self
    obtain ⟨hprevious, hplace, hdom, hranks⟩ := ih hsorted.1 hkeys.1
    have hsame : ∀ b ∈ l, standing value (l ++ [a]) (value b) = standing value l (value b) := fun b hb =>
      standing_concat l (not_lt.2 (hle b hb))
    have hself : standing value (l ++ [a]) (value a) = standing value l (value a) := standing_concat l (lt_irrefl _)
    -- a new value comes after all others, an old one shares the place of the last
    have hnew : (if some (value a) ≠ (places key value l).previous then l.length + 1 else (places key value l).place) =
        standing value l (value a) := by
      split
      · next hne =>
        have hbetter : ∀ b ∈ l, decide (value a < value b) = true := by
          intro b hb
          obtain ⟨last, hlast⟩ := Option.isSome_iff_exists.1 (List.getLast?_isSome.2 (ne_nil_of_mem hb))
          obtain ⟨s, rfl⟩ := List.getLast?_eq_some_iff.1 hlast
          have hlt : value a < value last := by
            refine lt_of_le_of_ne (hle last (mem_append_right _ mem_cons_self)) fun heq => hne ?_
            rw [hprevious, hlast, Option.map_some, heq]
          refine decide_eq_true (lt_of_lt_of_le hlt ?_)
          rcases mem_append.1 hb with hb | hb
          · exact (pairwise_append.1 hsorted.1).2.2 b hb last mem_cons_self
          · rw [mem_singleton.1 hb]
        unfold standing
        rw [countP_eq_length.2 hbetter, Nat.add_comm]
      · next heq =>
        rw [not_not, hprevious] at heq
        obtain ⟨last, hlast, hvalue⟩ := Option.map_eq_some_iff.1 heq.symm
        rw [hplace last hlast, hvalue]
    rw [places_concat]
    refine ⟨?_, fun b hb => ?_, fun k => ?_, fun b hb => ?_⟩
    · rw [List.getLast?_concat]
      rfl
    · rw [List.getLast?_concat] at hb
      rw [← Option.some.inj hb, hself, ← hnew]
      rfl
    · show ((((places key value l).ranks.upsert (key a) _).get? k).isSome = true) ↔ _
      rw [Table.get?_upsert, map_append, mem_append, map_singleton, mem_singleton, ← hdom]
      split
      · next heq => simp [heq]
      · next hne => rw [or_iff_left hne]
    · show ((places key value l).ranks.upsert (key a) _).get? (key b) = _
      rw [Table.get?_upsert]
      rcases mem_append.1 hb with hb | hb
      · rw [if_neg fun heq => hkeys.2.2 _ (mem_map_of_mem hb) _ mem_cons_self heq, hsame b hb, hranks b hb]
      · rw [mem_singleton.1 hb, if_pos rfl, hself, ← hnew]

section competition

variable {l : List α} (hl : (l.map key).Nodup)
include hl

variable (value) in
theorem placed_sorted : Placed key value (sortBy (fun a => -value a) l) (places key value (sortBy (fun a => -value a) l)) := by
  refine placed_places ((sortBy_pairwise (fun a => -value a) l).imp fun h => ?_) ?_
  · exact neg_le_neg_iff.1 h
  · exact ((sortBy_perm _ l).map key).nodup_iff.2 hl

variable (value) in
theorem get?_competition {a : α} (ha : a ∈ l) :
    (competition key value l).get? (key a) = some (standing value l (value a)) := by
  have hplaced := placed_sorted value hl
  rw [← standing_perm (sortBy_perm (fun a => -value a) l)]
  exact hplaced.ranks a ((mem_sortBy _ l a).2 ha)

variable (value) in
theorem competition_isSome (k : κ) : ((competition key value l).get? k).isSome = true ↔ k ∈ l.map key := by
  have hplaced := placed_sorted value hl
  rw [competition, hplaced.keys, ((sortBy_perm _ l).map key).mem_iff]

theorem mem_competition {k : κ} {n : Nat} :
    (competition key value l).get? k = some n ↔ ∃ a ∈ l, key a = k ∧ n = standing value l (value a) := by
  constructor
  · intro h
    obtain ⟨a, ha, rfl⟩ := mem_map.1 ((competition_isSome value hl k).1 (h ▸ rfl))
    rw [get?_competition value hl ha] at h
    exact ⟨a, ha, rfl, (Option.some.inj h).symm⟩
  · rintro ⟨a, ha, rfl, rfl⟩
    exact get?_competition value hl ha

end competition

end CisApp.Lib
