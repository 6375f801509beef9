import CisApp.Lib.Run

/-! The spend budget of one run (`shared/cost_guard.py`).

`loadRunBudget` merges the job's row and the global row of `shared.spend_budget` into one budget: the per-run cap of
one of them with that row's `hard_stop`, and one daily cap, the smaller of the two, which is hard as soon as one of
the rows that set a daily cap is.  So the amount of the daily cap and its severity may come from different rows
(`daily_stop_iff`): next to a hard row, the smaller cap of an alert-only row stops the run
(`alert_only_cap_stops`).

Amounts are exact. -/

namespace CisApp.Gateway

open List

/-- A row of `shared.spend_budget`. -/
structure SpendRow where
  perRunUsd : Option Rat
  perDayUsd : Option Rat
  hardStop : Bool
  alertPct : Nat
deriving Repr, DecidableEq

structure SpendRows where
  job : Option SpendRow
  glob : Option SpendRow
deriving Repr, DecidableEq

def SpendRows.list (rows : SpendRows) : List SpendRow := rows.job.toList ++ rows.glob.toList

inductive DayScope where
  | provider
  | kind
deriving Repr, DecidableEq

/-- The limit a `BudgetExceeded` names. -/
inductive BudgetAxis where
  | perRun
  | perDay
  | perDayGlobal
deriving Repr, DecidableEq

structure RunBudget where
  provider : String
  scope : String
  perRunUsd : Option Rat
  perDayUsd : Option Rat
  hardStop : Bool := true
  alertPct : Nat := 80
  daySpentAtStart : Rat := 0
  runSpent : Rat := 0
  hardStopDay : Option Bool := none
  globalDayUsd : Option Rat := none
  globalDaySpentAtStart : Rat := 0
  globalDayHard : Bool := true
deriving Repr, DecidableEq

def RunBudget.dayIsHard (b : RunBudget) : Bool := b.hardStopDay.getD b.hardStop
def RunBudget.daySpent (b : RunBudget) : Rat := b.daySpentAtStart + b.runSpent
def RunBudget.globalDaySpent (b : RunBudget) : Rat := b.globalDaySpentAtStart + b.runSpent

/-- Spending `spent` breaks the cap. -/
def exceeds (cap : Option Rat) (spent : Rat) : Bool := cap.any (· < spent)

/-- The axis that refuses a call of about `estimate`, or none. -/
def RunBudget.check (b : RunBudget) (estimate : Rat) : Except BudgetAxis Unit :=
  if b.hardStop && exceeds b.perRunUsd (b.runSpent + estimate) then .error .perRun
  else if b.dayIsHard && exceeds b.perDayUsd (b.daySpent + estimate) then .error .perDay
  else if b.globalDayHard && exceeds b.globalDayUsd (b.globalDaySpent + estimate) then .error .perDayGlobal
  else .ok ()

def RunBudget.charge (b : RunBudget) (usd : Option Rat) : RunBudget := { b with runSpent := b.runSpent + usd.getD 0 }

def minCap (values : List (Option Rat)) : Option Rat := (values.filterMap id).min?

/-- The row that sets the per-run cap: the job's if it has one, else the global row. -/
def SpendRows.runRow (rows : SpendRows) : Option SpendRow :=
  if (rows.job.bind (·.perRunUsd)).isSome then rows.job else rows.glob

def SpendRows.dayRows (rows : SpendRows) : List SpendRow := rows.list.filter fun r => r.perDayUsd.isSome

/-- `job.get("alert_pct") or glob.get("alert_pct") or 80`. -/
def SpendRows.alertPct (rows : SpendRows) : Nat := ((rows.list.map (·.alertPct)).find? (· ≠ 0)).getD 80

/-- The part of `load_run_budget` that both scopes share. -/
def mergedBudget (provider jobKind : String) (rows : SpendRows) (spent : Rat) : RunBudget :=
  { provider
    scope := "job:" ++ jobKind
    perRunUsd := minCap [rows.runRow.bind (·.perRunUsd)]
    perDayUsd := minCap [rows.job.bind (·.perDayUsd), rows.glob.bind (·.perDayUsd)]
    hardStop := (rows.runRow.map (·.hardStop)).getD true
    hardStopDay := some (if rows.dayRows.isEmpty then true else rows.dayRows.any (·.hardStop))
    alertPct := rows.alertPct
    daySpentAtStart := spent }

/-- `spent` is the day's spend of the scope, `providerSpent` that of the provider. -/
def loadRunBudget (provider jobKind : String) (scope : DayScope) (rows : SpendRows) (spent providerSpent : Rat) :
    RunBudget :=
  match scope with
  | .provider => mergedBudget provider jobKind rows spent
  | .kind =>
    let b := mergedBudget provider jobKind { rows with glob := none } spent
    match rows.glob with
    | none => b
    | some g =>
      if g.perDayUsd.isSome then
        { b with globalDayUsd := g.perDayUsd, globalDaySpentAtStart := providerSpent, globalDayHard := g.hardStop }
      else b

/-! ## The axes of a merged budget -/

theorem exceeds_min {caps : List (Option Rat)} {spent : Rat} :
    exceeds (minCap caps) spent = true ↔ ∃ c, some c ∈ caps ∧ c < spent := by
  unfold exceeds minCap
  rw [Option.any_eq_true]
  constructor
  · rintro ⟨c, hmin, hlt⟩
    obtain ⟨hmem, -⟩ := List.min?_eq_some_iff.1 hmin
    obtain ⟨o, ho, rfl⟩ := mem_filterMap.1 hmem
    exact ⟨c, ho, of_decide_eq_true hlt⟩
  · rintro ⟨c, hc, hlt⟩
    have hmem : c ∈ caps.filterMap id := mem_filterMap.2 ⟨some c, hc, rfl⟩
    cases hmin : (caps.filterMap id).min? with
    | none =>
      rw [List.min?_eq_none_iff.1 hmin] at hmem
      cases hmem
    | some m =>
      have hle := (List.min?_eq_some_iff.1 hmin).2 c hmem
      exact ⟨m, rfl, decide_eq_true (lt_of_le_of_lt hle hlt)⟩

theorem run_charge (b : RunBudget) (charges : List (Option Rat)) :
    run RunBudget.charge b charges = { b with runSpent := b.runSpent + (charges.map (·.getD 0)).sum } := by
  induction charges generalizing b with
  | nil => simp [run]
  | cons usd charges ih =>
    show run RunBudget.charge (b.charge usd) charges = _
    rw [ih, map_cons, sum_cons, ← add_assoc]
    rfl

theorem mem_dayCaps {rows : SpendRows} {c : Rat} :
    some c ∈ [rows.job.bind (·.perDayUsd), rows.glob.bind (·.perDayUsd)] ↔ ∃ r ∈ rows.list, r.perDayUsd = some c := by
  unfold SpendRows.list
  cases rows.job <;> cases rows.glob <;> simp [eq_comm]

theorem dayIsHard_merged {provider jobKind : String} {rows : SpendRows} {spent : Rat}
    (h : ∃ r ∈ rows.list, r.perDayUsd.isSome) : (mergedBudget provider jobKind rows spent).dayIsHard = true ↔
      ∃ r ∈ rows.list, r.hardStop = true ∧ r.perDayUsd.isSome := by
  have hne : rows.dayRows ≠ [] := by
    obtain ⟨r, hr, hsome⟩ := h
    exact ne_nil_of_mem (mem_filter.2 ⟨hr, hsome⟩)
  show (if rows.dayRows.isEmpty then true else rows.dayRows.any (·.hardStop)) = true ↔ _
  rw [if_neg (by simpa using hne), any_eq_true]
  constructor
  · rintro ⟨r, hr, hhard⟩
    obtain ⟨hr, hsome⟩ := mem_filter.1 hr
    exact ⟨r, hr, hhard, hsome⟩
  · rintro ⟨r, hr, hhard, hsome⟩
    exact ⟨r, mem_filter.2 ⟨hr, hsome⟩, hhard⟩

theorem check_perDay_iff (b : RunBudget) (estimate : Rat) : b.check estimate = .error .perDay ↔
      ¬ (b.hardStop && exceeds b.perRunUsd (b.runSpent + estimate)) = true ∧
        b.dayIsHard = true ∧ exceeds b.perDayUsd (b.daySpent + estimate) = true := by
  rw [← Bool.and_eq_true]
  unfold RunBudget.check
  split
  · next h => simp [h]
  · next h =>
    split
    · next hday => simp [h, hday]
    · next hday => split <;> simp [hday]

/-! ## The daily axis -/

/-- The per-run axis refuses: its row is hard, and the run would pass its cap. -/
def PerRunStops (rows : SpendRows) (runSpent estimate : Rat) : Prop :=
  ∃ r, rows.runRow = some r ∧ r.hardStop = true ∧ ∃ c, r.perRunUsd = some c ∧ c < runSpent + estimate

theorem perRunStops_iff (rows : SpendRows) (runSpent estimate : Rat) : ((rows.runRow.map (·.hardStop)).getD true &&
      exceeds (minCap [rows.runRow.bind (·.perRunUsd)]) (runSpent + estimate)) = true ↔
      PerRunStops rows runSpent estimate := by
  rw [Bool.and_eq_true, exceeds_min]
  unfold PerRunStops
  cases rows.runRow with
  | none => simp
  | some r =>
    constructor
    · rintro ⟨hhard, c, hc, hlt⟩
      exact ⟨r, rfl, hhard, c, (mem_singleton.1 hc).symm, hlt⟩
    · rintro ⟨r', hr', hhard, c, hc, hlt⟩
      obtain rfl := Option.some.inj hr'
      exact ⟨hhard, c, mem_singleton.2 hc.symm, hlt⟩

theorem exceeds_daily_iff (rows : SpendRows) (spent : Rat) :
    exceeds (minCap [rows.job.bind (·.perDayUsd), rows.glob.bind (·.perDayUsd)]) spent = true ↔
      ∃ r ∈ rows.list, ∃ c, r.perDayUsd = some c ∧ c < spent := by
  rw [exceeds_min]
  constructor
  · rintro ⟨c, hc, hlt⟩
    obtain ⟨r, hr, hcap⟩ := mem_dayCaps.1 hc
    exact ⟨r, hr, c, hcap, hlt⟩
  · rintro ⟨r, hr, c, hcap, hlt⟩
    exact ⟨c, mem_dayCaps.2 ⟨r, hr, hcap⟩, hlt⟩

/-- **The daily cap.**  Whatever was charged before, the daily axis refuses a call exactly when one of the rows that set
a daily cap is hard, one of those caps (so the smaller one) is passed, and the per-run axis does not refuse first. -/
theorem daily_stop_iff (provider jobKind : String) (rows : SpendRows) (spent providerSpent : Rat)
    (charges : List (Option Rat)) (estimate : Rat) :
    (run RunBudget.charge (loadRunBudget provider jobKind .provider rows spent providerSpent) charges).check estimate =
        .error .perDay ↔ (∃ r ∈ rows.list, r.hardStop = true ∧ r.perDayUsd.isSome) ∧
        (∃ r ∈ rows.list, ∃ c, r.perDayUsd = some c ∧ c < spent + (charges.map (·.getD 0)).sum + estimate) ∧
        ¬ PerRunStops rows (charges.map (·.getD 0)).sum estimate := by
  have hspent : (mergedBudget provider jobKind rows spent).runSpent + (charges.map (·.getD 0)).sum =
      (charges.map (·.getD 0)).sum := zero_add _
  rw [run_charge, check_perDay_iff]
  show ¬ ((rows.runRow.map (·.hardStop)).getD true &&
      exceeds (minCap [rows.runRow.bind (·.perRunUsd)])
        ((mergedBudget provider jobKind rows spent).runSpent + (charges.map (·.getD 0)).sum + estimate)) = true ∧
    (mergedBudget provider jobKind rows spent).dayIsHard = true ∧
      exceeds (minCap [rows.job.bind (·.perDayUsd), rows.glob.bind (·.perDayUsd)])
        (spent + ((mergedBudget provider jobKind rows spent).runSpent + (charges.map (·.getD 0)).sum) + estimate) = true ↔ _
  rw [hspent, perRunStops_iff, exceeds_daily_iff]
  constructor
  · rintro ⟨hfirst, hhard, hpass⟩
    obtain ⟨r, hr, c, hcap, -⟩ := id hpass
    have hset : ∃ r ∈ rows.list, r.perDayUsd.isSome := ⟨r, hr, by rw [hcap]; rfl⟩
    exact ⟨(dayIsHard_merged hset).1 hhard, hpass, hfirst⟩
  · rintro ⟨hhard, hpass, hfirst⟩
    obtain ⟨r, hr, -, hsome⟩ := id hhard
    exact ⟨hfirst, (dayIsHard_merged ⟨r, hr, hsome⟩).2 hhard, hpass⟩

/-- The job's daily cap of 1 USD only alerts, the global one of 10 USD is hard, and a first call of 2 USD is refused. -/
theorem alert_only_cap_stops :
    let rows : SpendRows := ⟨some ⟨none, some 1, false, 80⟩, some ⟨none, some 10, true, 80⟩⟩
    (run RunBudget.charge (loadRunBudget "dfs" "segment_research" .provider rows 0 0) []).check 2 = .error .perDay ∧
      ¬ ∃ r ∈ rows.list, r.hardStop = true ∧ ∃ c, r.perDayUsd = some c ∧ c < 0 + 2 := by
  dsimp only
  constructor
  · decide +kernel
  · rintro ⟨r, hr, hhard, c, hcap, hlt⟩
    simp only [SpendRows.list, Option.toList_some, cons_append, nil_append, mem_cons, not_mem_nil, or_false] at hr
    rcases hr with rfl | rfl
    · cases hhard
    · obtain rfl := Option.some.inj hcap
      norm_num at hlt

end CisApp.Gateway
