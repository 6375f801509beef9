import CisApp.Lib.Decimal
import CisApp.Lib.Rounding
import CisApp.Lib.Table

/-! The shares of the destinations in a quarter plan.

`_cap_thin_trip_shares` of `services/acp_planning/quarter.py` over exact numbers: a destination with few atoms is cut to
`THIN_TRIP_MAX_SHARE`, and what is freed goes to the others in proportion to their shares.  Where the others have no share there
is nobody to take it, and the plan loses it (`cap_thin_trip_shares_conserves`). -/

namespace CisApp.Planning

open Lib List

/-! ## The source -/

def thinTripAtomMin : Nat := 5

def thinTripMaxShare : ℚ := 15 / 100

def isThin (atomCounts : Table String Nat) (dest : String) : Bool :=
  decide ((atomCounts.get? dest).getD 0 < thinTripAtomMin)

/-- `f"{share:.2f}"` of a share that is not negative. -/
def twoDecimals (share : ℚ) : String :=
  let hundredths := (roundHalfEven (share * 100)).toNat
  toString (hundredths / 100) ++ "." ++ String.ofList (zeroPad 2 (hundredths % 100))

def newShare (share : ℚ) : ℚ := min share thinTripMaxShare

def capNote (atomCounts : Table String Nat) (r : String × ℚ) : String :=
  "'" ++ r.1 ++ "' is thin (" ++ toString ((atomCounts.get? r.1).getD 0) ++ " atoms < " ++ toString thinTripAtomMin ++
    ") — share capped " ++ twoDecimals r.2 ++ " -> " ++ twoDecimals (newShare r.2)

/-- `sum(…) or 1.0`. -/
def orOne (total : ℚ) : ℚ := if total = 0 then 1 else total

/-- What the thin destinations lose. -/
def freedShare (thin : List (String × ℚ)) : ℚ :=
  ((thin.filter fun r => newShare r.2 < r.2).map fun r => r.2 - newShare r.2).sum

/-- The thin destinations of the shares, and the others. -/
def splitThin (shares : Table String ℚ) (atomCounts : Table String Nat) : List (String × ℚ) × List (String × ℚ) :=
  (shares.rows.filter fun r => isThin atomCounts r.1, shares.rows.filter fun r => !isThin atomCounts r.1)

def cappedRows (thin normal : List (String × ℚ)) : List (String × ℚ) :=
  thin.map (fun r => (r.1, newShare r.2)) ++
    normal.map fun r => (r.1, r.2 + freedShare thin * (r.2 / orOne (normal.map Prod.snd).sum))

theorem nodup_cappedRows (shares : Table String ℚ) (atomCounts : Table String Nat) :
    ((cappedRows (splitThin shares atomCounts).1 (splitThin shares atomCounts).2).map Prod.fst).Nodup := by
  have hkeys : (cappedRows (splitThin shares atomCounts).1 (splitThin shares atomCounts).2).map Prod.fst =
      ((splitThin shares atomCounts).1 ++ (splitThin shares atomCounts).2).map Prod.fst := by
    unfold cappedRows
    rw [map_append, map_append, map_map, map_map]
    rfl
  rw [hkeys]
  exact ((filter_append_perm (fun r => isThin atomCounts r.1) shares.rows).map Prod.fst).nodup_iff.2 shares.nodup

/-- `_cap_thin_trip_shares`: the shares and the notes. -/
def capThinTripShares (shares : Table String ℚ) (atomCounts : Table String Nat) : Table String ℚ × List String :=
  (⟨cappedRows (splitThin shares atomCounts).1 (splitThin shares atomCounts).2, nodup_cappedRows shares atomCounts⟩,
    ((splitThin shares atomCounts).1.filter fun r => newShare r.2 < r.2).map (capNote atomCounts))

/-! ## What the capping keeps -/

def total (shares : Table String ℚ) : ℚ := (shares.rows.map Prod.snd).sum

structure Conserved (shares : Table String ℚ) (atomCounts : Table String Nat) : Prop where
  destinations : ∀ d, ((capThinTripShares shares atomCounts).1.get? d).isSome = (shares.get? d).isSome
  sum : total (capThinTripShares shares atomCounts).1 = 1
  capped : ∀ d s, (capThinTripShares shares atomCounts).1.get? d = some s → isThin atomCounts d = true → s ≤ thinTripMaxShare
  noLess : ∀ d s s', shares.get? d = some s → isThin atomCounts d = false →
    (capThinTripShares shares atomCounts).1.get? d = some s' → s ≤ s'
  order : ∀ d e s t s' t', shares.get? d = some s → shares.get? e = some t → isThin atomCounts d = false →
    isThin atomCounts e = false → (capThinTripShares shares atomCounts).1.get? d = some s' →
    (capThinTripShares shares atomCounts).1.get? e = some t' → (s < t ↔ s' < t')

variable {shares : Table String ℚ} {atomCounts : Table String Nat}

theorem get?_capped (d : String) : (capThinTripShares shares atomCounts).1.get? d = (shares.get? d).map fun s =>
      if isThin atomCounts d then newShare s
      else s + freedShare (splitThin shares atomCounts).1 * (s / orOne ((splitThin shares atomCounts).2.map Prod.snd).sum) := by
  apply Option.ext
  intro s'
  rw [Table.get?_eq_some_iff, Option.map_eq_some_iff]
  change (d, s') ∈ cappedRows _ _ ↔ _
  unfold cappedRows splitThin
  simp only [mem_append, mem_map, mem_filter, Prod.mk.injEq, Bool.not_eq_true']
  constructor
  · rintro (⟨⟨k, s⟩, ⟨hmem, hthin⟩, rfl, rfl⟩ | ⟨⟨k, s⟩, ⟨hmem, hthin⟩, rfl, rfl⟩)
    · exact ⟨s, (Table.get?_eq_some_iff _ _ _).2 hmem, if_pos hthin⟩
    · exact ⟨s, (Table.get?_eq_some_iff _ _ _).2 hmem, by rw [hthin, if_neg Bool.false_ne_true]⟩
  · rintro ⟨s, hs, rfl⟩
    have hmem := (Table.get?_eq_some_iff _ _ _).1 hs
    cases hthin : isThin atomCounts d with
    | true => exact Or.inl ⟨(d, s), ⟨hmem, hthin⟩, rfl, by rw [if_pos rfl]⟩
    | false => exact Or.inr ⟨(d, s), ⟨hmem, hthin⟩, rfl, by rw [if_neg Bool.false_ne_true]⟩

/-! ## Sums -/

theorem newShare_add (s : ℚ) : newShare s + (if newShare s < s then s - newShare s else 0) = s := by
  have hle : newShare s ≤ s := min_le_left _ _
  split
  · ring
  · next hlt => rw [add_zero, le_antisymm hle (not_lt.1 hlt)]

variable (thin : List (String × ℚ))

theorem sum_thin : (thin.map fun r => newShare r.2).sum + freedShare thin = (thin.map Prod.snd).sum := by
  unfold freedShare
  induction thin with
  | nil => simp
  | cons r thin ih =>
    have hr := newShare_add r.2
    rw [map_cons, sum_cons, map_cons, sum_cons, ← ih, filter_cons]
    split
    · next hlt =>
      rw [map_cons, sum_cons]
      linarith
    · next hlt =>
      rw [if_neg fun h => hlt (decide_eq_true h)] at hr
      linarith

theorem sum_normal (normal : List (String × ℚ)) (freed n : ℚ) :
    (normal.map fun r => r.2 + freed * (r.2 / n)).sum = (normal.map Prod.snd).sum + freed * ((normal.map Prod.snd).sum / n) := by
  induction normal with
  | nil => simp
  | cons r normal ih =>
    rw [map_cons, sum_cons, map_cons, sum_cons, ih]
    ring

theorem total_split : total shares =
    ((splitThin shares atomCounts).1.map Prod.snd).sum + ((splitThin shares atomCounts).2.map Prod.snd).sum := by
  have hperm := (filter_append_perm (fun r => isThin atomCounts r.1) shares.rows).map Prod.snd
  unfold total splitThin
  rw [← hperm.sum_eq, map_append, sum_append]

theorem total_capped : total (capThinTripShares shares atomCounts).1 =
    total shares - freedShare (splitThin shares atomCounts).1 + freedShare (splitThin shares atomCounts).1 *
      (((splitThin shares atomCounts).2.map Prod.snd).sum / orOne ((splitThin shares atomCounts).2.map Prod.snd).sum) := by
  have hthin := sum_thin (splitThin shares atomCounts).1
  have hnormal := sum_normal (splitThin shares atomCounts).2 (freedShare (splitThin shares atomCounts).1)
    (orOne ((splitThin shares atomCounts).2.map Prod.snd).sum)
  have htotal := @total_split shares atomCounts
  have hcapped : total (capThinTripShares shares atomCounts).1 = ((splitThin shares atomCounts).1.map fun r => newShare r.2).sum +
      ((splitThin shares atomCounts).2.map fun r => r.2 + freedShare (splitThin shares atomCounts).1 *
        (r.2 / orOne ((splitThin shares atomCounts).2.map Prod.snd).sum)).sum := by
    change ((cappedRows _ _).map Prod.snd).sum = _
    unfold cappedRows
    rw [map_append, sum_append, map_map, map_map]
    rfl
  linarith

theorem freedShare_nonneg : 0 ≤ freedShare thin := by
  refine sum_nonneg fun x hx => ?_
  obtain ⟨r, -, rfl⟩ := List.mem_map.1 hx
  exact sub_nonneg.2 (min_le_left _ _)

theorem freedShare_eq_zero_iff : freedShare thin = 0 ↔ ∀ r ∈ thin, r.2 ≤ thinTripMaxShare := by
  constructor
  · intro h r hr
    by_contra hlt
    have hnew : newShare r.2 < r.2 := lt_of_le_of_lt (min_le_right _ _) (not_le.1 hlt)
    have hpos : r.2 - newShare r.2 ≤ freedShare thin := by
      refine single_le_sum (fun x hx => ?_) _ (List.mem_map.2 ⟨r, List.mem_filter.2 ⟨hr, decide_eq_true hnew⟩, rfl⟩)
      obtain ⟨r', -, rfl⟩ := List.mem_map.1 hx
      exact sub_nonneg.2 (min_le_left _ _)
    linarith
  · intro h
    unfold freedShare
    have hnil : (thin.filter fun r => decide (newShare r.2 < r.2)) = [] := by
      rw [filter_eq_nil_iff]
      intro r hr hlt
      have heq : newShare r.2 = r.2 := min_eq_left (h r hr)
      rw [heq] at hlt
      exact lt_irrefl _ (of_decide_eq_true hlt)
    rw [hnil]
    rfl

section
variable (hnonneg : ∀ d s, shares.get? d = some s → 0 ≤ s)
include hnonneg

theorem normal_total_pos_iff : 0 < ((splitThin shares atomCounts).2.map Prod.snd).sum ↔
    ∃ d s, shares.get? d = some s ∧ isThin atomCounts d = false ∧ 0 < s := by
  have hmem : ∀ {r}, r ∈ (splitThin shares atomCounts).2 ↔ shares.get? r.1 = some r.2 ∧ isThin atomCounts r.1 = false := by
    intro r
    unfold splitThin
    rw [mem_filter, Table.get?_eq_some_iff, Bool.not_eq_true']
  have hall : ∀ x ∈ (splitThin shares atomCounts).2.map Prod.snd, 0 ≤ x := by
    intro x hx
    obtain ⟨r, hr, rfl⟩ := List.mem_map.1 hx
    exact hnonneg _ _ (hmem.1 hr).1
  constructor
  · intro hpos
    by_contra hno
    have hzero : ((splitThin shares atomCounts).2.map Prod.snd).sum = 0 := by
      refine sum_eq_zero fun x hx => le_antisymm ?_ (hall x hx)
      obtain ⟨r, hr, rfl⟩ := List.mem_map.1 hx
      by_contra hlt
      exact hno ⟨r.1, r.2, (hmem.1 hr).1, (hmem.1 hr).2, not_le.1 hlt⟩
    linarith
  · rintro ⟨d, s, hs, hthin, hpos⟩
    have hd : (d, s) ∈ (splitThin shares atomCounts).2 := hmem.2 ⟨hs, hthin⟩
    have hle : s ≤ ((splitThin shares atomCounts).2.map Prod.snd).sum :=
      single_le_sum hall _ (List.mem_map.2 ⟨_, hd, rfl⟩)
    linarith

theorem normal_total_nonneg : 0 ≤ ((splitThin shares atomCounts).2.map Prod.snd).sum := by
  refine sum_nonneg fun x hx => ?_
  obtain ⟨r, hr, rfl⟩ := List.mem_map.1 hx
  exact hnonneg _ _ ((Table.get?_eq_some_iff _ _ _).2 (List.mem_filter.1 hr).1)

end

/-- The factor by which the share of a destination that is not thin grows. -/
def growth (shares : Table String ℚ) (atomCounts : Table String Nat) : ℚ :=
  1 + freedShare (splitThin shares atomCounts).1 / orOne ((splitThin shares atomCounts).2.map Prod.snd).sum

theorem one_le_growth (hnonneg : ∀ d s, shares.get? d = some s → 0 ≤ s) : 1 ≤ growth shares atomCounts := by
  have hfreed := freedShare_nonneg (splitThin shares atomCounts).1
  have htotal := @normal_total_nonneg _ atomCounts hnonneg
  have hor : 0 ≤ orOne ((splitThin shares atomCounts).2.map Prod.snd).sum := by
    unfold orOne
    split
    · exact zero_le_one
    · exact htotal
  have := div_nonneg hfreed hor
  unfold growth
  linarith

theorem get?_normal {d : String} {s s' : ℚ} (hs : shares.get? d = some s) (hthin : isThin atomCounts d = false)
    (hs' : (capThinTripShares shares atomCounts).1.get? d = some s') : s' = s * growth shares atomCounts := by
  rw [get?_capped, hs, Option.map_some, hthin, if_neg Bool.false_ne_true] at hs'
  rw [← Option.some.inj hs']
  unfold growth
  ring

theorem total_capped_iff (hnonneg : ∀ d s, shares.get? d = some s → 0 ≤ s) (hsum : total shares = 1) :
    total (capThinTripShares shares atomCounts).1 = 1 ↔
      (∃ d s, shares.get? d = some s ∧ isThin atomCounts d = false ∧ 0 < s) ∨
        ∀ d s, shares.get? d = some s → isThin atomCounts d = true → s ≤ thinTripMaxShare := by
  have hthin : freedShare (splitThin shares atomCounts).1 = 0 ↔
      ∀ d s, shares.get? d = some s → isThin atomCounts d = true → s ≤ thinTripMaxShare := by
    rw [freedShare_eq_zero_iff]
    constructor
    · exact fun h d s hs ht => h (d, s) (List.mem_filter.2 ⟨(Table.get?_eq_some_iff _ _ _).1 hs, ht⟩)
    · rintro h r hr
      obtain ⟨hmem, ht⟩ := List.mem_filter.1 hr
      exact h r.1 r.2 ((Table.get?_eq_some_iff _ _ _).2 hmem) ht
  rw [← normal_total_pos_iff hnonneg, ← hthin, total_capped, hsum]
  have htotal := @normal_total_nonneg _ atomCounts hnonneg
  by_cases hzero : ((splitThin shares atomCounts).2.map Prod.snd).sum = 0
  · -- nobody takes what is freed
    rw [hzero, zero_div, mul_zero, add_zero]
    constructor
    · intro h
      exact Or.inr (by linarith)
    · rintro (h | h)
      · exact absurd h (lt_irrefl 0)
      · rw [h, sub_zero]
  · have hone : ((splitThin shares atomCounts).2.map Prod.snd).sum / orOne ((splitThin shares atomCounts).2.map Prod.snd).sum = 1 := by
      unfold orOne
      rw [if_neg hzero, div_self hzero]
    rw [hone, mul_one, sub_add_cancel]
    exact ⟨fun _ => Or.inl (lt_of_le_of_ne htotal (Ne.symm hzero)), fun _ => rfl⟩

/-- The shares are conserved exactly where a destination that is not thin has a share, or no thin one is above the cap. -/
theorem cap_thin_trip_shares_conserves (shares : Table String ℚ) (atomCounts : Table String Nat)
    (hnonneg : ∀ d s, shares.get? d = some s → 0 ≤ s) (hsum : total shares = 1) : Conserved shares atomCounts ↔
      (∃ d s, shares.get? d = some s ∧ isThin atomCounts d = false ∧ 0 < s) ∨
        ∀ d s, shares.get? d = some s → isThin atomCounts d = true → s ≤ thinTripMaxShare := by
  rw [← total_capped_iff hnonneg hsum]
  constructor
  · exact fun h => h.sum
  · intro h
    have hgrowth := @one_le_growth _ atomCounts hnonneg
    refine ⟨fun d => ?_, h, fun d s hs ht => ?_, fun d s s' hs ht hs' => ?_, fun d e s t s' t' hs ht hds het hs' ht' => ?_⟩
    · rw [get?_capped, Option.isSome_map]
    · rw [get?_capped] at hs
      obtain ⟨r, -, rfl⟩ := Option.map_eq_some_iff.1 hs
      rw [if_pos ht]
      exact min_le_right _ _
    · rw [get?_normal hs ht hs']
      exact le_mul_of_one_le_right (hnonneg d s hs) hgrowth
    · rw [get?_normal hs hds hs', get?_normal ht het ht']
      exact (mul_lt_mul_iff_left₀ (lt_of_lt_of_le zero_lt_one hgrowth)).symm

def twoShares (a b : ℚ) : Table String ℚ := ⟨[("Hue", a), ("Sapa", b)], by simp⟩

def twoCounts (a b : Nat) : Table String Nat := ⟨[("Hue", a), ("Sapa", b)], by simp⟩

theorem twoShares_nonneg {a b : ℚ} (ha : 0 ≤ a) (hb : 0 ≤ b) : ∀ d s, (twoShares a b).get? d = some s → 0 ≤ s := by
  intro d s hs
  rw [Table.get?_eq_some_iff] at hs
  change (d, s) ∈ [("Hue", a), ("Sapa", b)] at hs
  simp only [mem_cons, Prod.mk.injEq, not_mem_nil, or_false] at hs
  rcases hs with ⟨-, rfl⟩ | ⟨-, rfl⟩
  · exact ha
  · exact hb

theorem cap_thin_trip_shares_conserves_half :
    total (twoShares (1 / 2) (1 / 2)) = 1 ∧ Conserved (twoShares (1 / 2) (1 / 2)) (twoCounts 2 9) := by
  have hsum : total (twoShares (1 / 2) (1 / 2)) = 1 := by norm_num [total, twoShares]
  refine ⟨hsum, (cap_thin_trip_shares_conserves _ (twoCounts 2 9) (twoShares_nonneg (by norm_num) (by norm_num)) hsum).2 ?_⟩
  exact Or.inl ⟨"Sapa", 1 / 2, rfl, by decide, by norm_num⟩

/-- Two thin destinations: each is cut, and what is cut off goes nowhere. -/
theorem thin_shares_lost :
    (∀ d s, (twoShares (1 / 2) (1 / 2)).get? d = some s → 0 ≤ s) ∧ total (twoShares (1 / 2) (1 / 2)) = 1 ∧
      total (capThinTripShares (twoShares (1 / 2) (1 / 2)) (twoCounts 2 3)).1 = 3 / 10 ∧
      ¬Conserved (twoShares (1 / 2) (1 / 2)) (twoCounts 2 3) := by
  have hlost : total (capThinTripShares (twoShares (1 / 2) (1 / 2)) (twoCounts 2 3)).1 = 3 / 10 := by decide +kernel
  refine ⟨twoShares_nonneg (by norm_num) (by norm_num), by norm_num [total, twoShares], hlost, fun h => ?_⟩
  have := h.sum
  rw [hlost] at this
  norm_num at this

end CisApp.Planning
