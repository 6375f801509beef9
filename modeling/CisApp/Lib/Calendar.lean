import Mathlib

/-! Days and months of the Gregorian calendar, counted from 1 January 2000 (the epoch of PostgreSQL's
timestamps).  `monthOf d` is the month that holds the day `d`; `monthOf_spec` says between which first days. -/

namespace CisApp.Lib.Calendar

def isLeap (year : Nat) : Bool := year % 4 = 0 && (year % 100 ≠ 0 || year % 400 = 0)

/-- The days of the month `m`, January 2000 being month 0. -/
def daysIn (m : Nat) : Nat :=
  match m % 12 with
  | 1 => if isLeap (2000 + m / 12) then 29 else 28
  | 3 | 5 | 8 | 10 => 30
  | _ => 31

/-- The first day of the month `m`. -/
def monthStart : Nat → Nat
  | 0 => 0
  | m + 1 => monthStart m + daysIn m

/-- The month of the day `d` counted from the first day of the month `m`. -/
def monthFrom : Nat → Nat → Nat → Nat
  | 0, m, _ => m
  | fuel + 1, m, d => if d < daysIn m then m else monthFrom fuel (m + 1) (d - daysIn m)

def monthOf (d : Nat) : Nat := monthFrom d 0 d

theorem daysIn_bounds (m : Nat) : 28 ≤ daysIn m ∧ daysIn m ≤ 31 := by
  unfold daysIn
  split
  · split <;> omega
  all_goals omega

theorem monthFrom_spec (fuel m d : Nat) (h : d ≤ fuel) : monthStart (monthFrom fuel m d) ≤ monthStart m + d ∧
      monthStart m + d < monthStart (monthFrom fuel m d + 1) := by
  induction fuel generalizing m d with
  | zero =>
    have hpos := (daysIn_bounds m).1
    show monthStart m ≤ monthStart m + d ∧ monthStart m + d < monthStart m + daysIn m
    omega
  | succ fuel ih =>
    have hpos := (daysIn_bounds m).1
    unfold monthFrom
    split
    · next hlt =>
      show monthStart m ≤ monthStart m + d ∧ monthStart m + d < monthStart m + daysIn m
      omega
    · next hge =>
      have hrec := ih (m + 1) (d - daysIn m) (by omega)
      have hday : monthStart (m + 1) + (d - daysIn m) = monthStart m + d := by
        show monthStart m + daysIn m + (d - daysIn m) = monthStart m + d
        omega
      rw [hday] at hrec
      exact hrec

theorem monthOf_spec (d : Nat) : monthStart (monthOf d) ≤ d ∧ d < monthStart (monthOf d + 1) := by
  have h := monthFrom_spec d 0 d (le_refl d)
  rwa [show monthStart 0 + d = d from Nat.zero_add d] at h

theorem monthStart_mono {m n : Nat} (h : m ≤ n) : monthStart m ≤ monthStart n :=
  monotone_nat_of_le_succ (fun m => Nat.le_add_right (monthStart m) (daysIn m)) h

theorem monthOf_mono {d e : Nat} (h : d ≤ e) : monthOf d ≤ monthOf e := by
  by_contra hlt
  have hnext : monthStart (monthOf e + 1) ≤ monthStart (monthOf d) := monthStart_mono (by omega)
  have hd := (monthOf_spec d).1
  have he := (monthOf_spec e).2
  omega

theorem lt_monthStart_iff (d m : Nat) : d < monthStart m ↔ monthOf d < m := by
  constructor
  · intro hlt
    by_contra hge
    have := monthStart_mono (Nat.le_of_not_lt hge)
    have := (monthOf_spec d).1
    omega
  · intro hlt
    exact lt_of_lt_of_le (monthOf_spec d).2 (monthStart_mono hlt)

theorem monthEnd_le (d : Nat) : monthStart (monthOf d + 1) ≤ d + 31 := by
  have hstart := (monthOf_spec d).1
  have hdays := (daysIn_bounds (monthOf d)).2
  show monthStart (monthOf d) + daysIn (monthOf d) ≤ d + 31
  omega

end CisApp.Lib.Calendar
