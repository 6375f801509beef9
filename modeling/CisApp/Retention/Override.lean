import CisApp.Retention.Complete

/-! An accepted override, up to the guard after its rollup (`override_cutoff` against `_MONTH_END`).

`override_cutoff` takes a cutoff of `retention_tenant_api_usage` up to the first day of the running month.  That day is
itself in the running month, whose end is not past: the rollup statement writes nothing, while `pending` counts what was
called since.  Any earlier cutoff is of a month that has ended.

The calendar repeats every 400 years, so the days may as well be counted from 1 January of the year 0, with every date
of Python among them. -/

namespace CisApp.Retention

open Lib Lib.Calendar List

section Guard

variable {ρ γ μ ν : Type} [DecidableEq γ] {spec : Spec ρ γ μ ν}

/-- `run_spec` up to its guard; the rollup is written `d` after the start. -/
def toGuard (env : String) (payload : Payload) (outside : Outside ρ) (d : Nat) (version : ν) : List (Act ρ ν) :=
  [.start env payload, .count outside, .tick d, .beginWrite, .write version, .check]

/-- The run goes on to delete, and the periods of the raw rows that `pending` counts are rolled up. -/
structure PastGuard (spec : Spec ρ γ μ ν) (raw : List ρ) (day : Nat) (s : State ρ γ μ) : Prop where
  goesOn : ∃ job, s.run = some (.deleting job) ∧ job.cut = day
  written : ∀ r ∈ raw, spec.ts r < spec.readsTo day → rolled s.rollup (spec.period (spec.ts r)) = true

theorem pending_eq_zero {rollup : List (RollupRow γ μ)} {raw : List ρ} {c : Nat} :
    spec.pending rollup raw c = 0 ↔ spec.unrolled rollup raw c = [] := by
  unfold Spec.pending GroupBy.groups
  rw [length_eq_zero_iff, dedup_eq_nil, map_eq_nil_iff]

theorem unrolled_eq_nil {rollup : List (RollupRow γ μ)} {raw : List ρ} {c : Nat} : spec.unrolled rollup raw c = [] ↔
      ∀ r ∈ raw, spec.ts r < spec.readsTo c → rolled rollup (spec.period (spec.ts r)) = true := by
  rw [eq_nil_iff_forall_not_mem]
  simp only [mem_unrolled]
  constructor
  · intro h r hr hlt
    by_contra hroll
    exact h r ⟨hr, hlt, Bool.eq_false_of_not_eq_true hroll⟩
  · rintro h r ⟨hr, hlt, hroll⟩
    rw [h r hr hlt] at hroll
    cases hroll

theorem unrolled_write_iff (version : ν) (rollup : List (RollupRow γ μ)) (raw : List ρ) (c now : Nat) :
    spec.unrolled (spec.write version rollup raw c now) raw c = [] ↔
      spec.closed c now = true ∨ spec.unrolled rollup raw c = [] := by
  by_cases hclosed : spec.closed c now = true
  · refine ⟨fun _ => Or.inl hclosed, fun _ => unrolled_eq_nil.2 fun r hr hlt => ?_⟩
    rw [write_eq _ _ _ _ _ _ hclosed, rolled_append, Bool.or_eq_true, rolled_grouped]
    by_cases hroll : rolled rollup (spec.period (spec.ts r)) = true
    · exact Or.inl hroll
    · exact Or.inr ⟨r, mem_unrolled.2 ⟨hr, hlt, Bool.eq_false_of_not_eq_true hroll⟩, rfl⟩
  · have hsame : spec.write version rollup raw c now = rollup := by
      unfold Spec.write
      rw [if_neg hclosed]
    rw [hsame]
    exact ⟨Or.inr, fun h => h.resolve_left hclosed⟩

variable {s : State ρ γ μ} {env : String} {payload : Payload} {day : Nat} {n : Int}

theorem pastGuard_iff (hidle : s.run = none)
    (hcut : overrideCutoff spec.closedMonth payload (dayOf s.now) env = .ok (some day))
    (hlive : payload.live = true) (hrows : payload.maxRows = .int n) (hn : 1 ≤ n ∧ n ≤ overrideMaxRows)
    (outside : Outside ρ) (d : Nat) (version : ν) :
    PastGuard spec s.raw day (run (step spec) s (toGuard env payload outside d version)) ↔
      spec.closed day (s.now + d) = true ∨ spec.unrolled s.rollup s.raw day = [] := by
  have hmode : ∀ k, decideMode payload spec.windowDays k outside.prevLive = .ok (.live, n) := by
    intro k
    simp [decideMode, (overrideCutoff_some hcut).1, hlive, hrows, hn]
  have hrun : run (step spec) s [.start env payload, .count outside, .tick d, .beginWrite, .write version] =
      { s with
        now := s.now + d
        rollup := spec.write version s.rollup s.raw day (s.now + d)
        run := some (.checking ⟨payload, true, day, rowsLeft payload.trigger n outside.already, outside.cursor⟩) } := by
    simp [run, step, hidle, hcut, hmode]
  have hall : toGuard env payload outside d version =
      [.start env payload, .count outside, .tick d, .beginWrite, .write version] ++ [.check] := rfl
  rw [hall, run_append, hrun, ← unrolled_write_iff version]
  simp only [run, foldl_cons, foldl_nil, step]
  by_cases hleft : spec.unrolled (spec.write version s.rollup s.raw day (s.now + d)) s.raw day = []
  · rw [if_pos (pending_eq_zero.2 hleft)]
    exact ⟨fun _ => hleft, fun _ => ⟨⟨_, rfl, rfl⟩, unrolled_eq_nil.1 hleft⟩⟩
  · rw [if_neg (fun h => hleft (pending_eq_zero.1 h))]
    refine ⟨fun h => ?_, fun h => absurd h hleft⟩
    obtain ⟨job, hjob, -⟩ := h.goesOn
    cases hjob

end Guard

theorem closed_iff {day now at₀ : Nat} (hday : dayOf at₀ = dayOf now) (hle : day ≤ monthStart (monthOf (dayOf now))) :
    tenantApiUsage.closed day at₀ = true ↔ day ≠ monthStart (monthOf (dayOf now)) := by
  have hclosed : tenantApiUsage.closed day at₀ = true ↔ midnight (monthStart (monthOf day + 1)) ≤ at₀ := by
    unfold Spec.closed
    rw [show tenantApiUsage.closedMonth = true from rfl, Bool.not_true, Bool.false_or, decide_eq_true_eq]
    rfl
  rw [hclosed, ← not_lt, lt_midnight_iff, hday, not_lt]
  constructor
  · rintro hend rfl
    -- the first day of a month is in it
    have hin : dayOf now < monthStart (monthOf (monthStart (monthOf (dayOf now))) + 1) := by
      rw [lt_monthStart_iff]
      have hmonth : monthOf (dayOf now) ≤ monthOf (monthStart (monthOf (dayOf now))) := by
        by_contra hlt
        exact absurd ((lt_monthStart_iff _ _).2 (not_le.1 hlt)) (lt_irrefl _)
      omega
    omega
  · intro hne
    have hlt : monthOf day < monthOf (dayOf now) := (lt_monthStart_iff _ _).1 (lt_of_le_of_ne hle hne)
    exact (monthStart_mono hlt).trans (monthOf_spec _).1

/-- **An accepted override.**  With any tables, at any time of the day, a live override of the call log gets past
the guard; one of the tenants' usage does exactly when its cutoff is not the first day of the running month, or
nothing called before the end of that month is unrolled. -/
theorem override_past_guard_iff (env : String) (payload : Payload) (day d : Nat) (n : Int) (hlive : payload.live = true)
    (hrows : payload.maxRows = .int n) (hn : 1 ≤ n ∧ n ≤ overrideMaxRows) :
    (∀ (s : State LlmCall LlmGroup LlmColumn) (outside : Outside LlmCall) (version : LlmVersion), s.run = none →
      overrideCutoff llmCallLog.closedMonth payload (dayOf s.now) env = .ok (some day) →
      PastGuard llmCallLog s.raw day (run (step llmCallLog) s (toGuard env payload outside d version))) ∧
    ∀ (s : State ApiCall (Option Nat × String) UsageColumn) (outside : Outside ApiCall), s.run = none →
      dayOf (s.now + d) = dayOf s.now →
      overrideCutoff tenantApiUsage.closedMonth payload (dayOf s.now) env = .ok (some day) →
      (PastGuard tenantApiUsage s.raw day (run (step tenantApiUsage) s (toGuard env payload outside d ())) ↔
        day ≠ monthStart (monthOf (dayOf s.now)) ∨ tenantApiUsage.unrolled s.rollup s.raw day = []) := by
  constructor
  · intro s outside version hidle hcut
    exact (pastGuard_iff hidle hcut hlive hrows hn outside d version).2 (Or.inl rfl)
  · intro s outside hidle hday hcut
    rw [pastGuard_iff hidle hcut hlive hrows hn outside d (), closed_iff hday ((overrideCutoff_some hcut).2.2 rfl)]

def june : State ApiCall (Option Nat × String) UsageColumn :=
  { init with now := midnight 9669, raw := [⟨0, midnight 9650, some 1, "tenant", 200, some 5⟩] }

/-- The end of May is a cutoff that the rollup can close. -/
theorem last_of_may_past_guard : PastGuard tenantApiUsage june.raw 9647
      (run (step tenantApiUsage) june (toGuard "dev" (override 9647) ⟨fun _ => true, none, 0, none⟩ 0 ())) :=
  ((override_past_guard_iff "dev" (override 9647) 9647 0 10 rfl rfl (by decide)).2 june _ rfl rfl
    (by decide +kernel)).2 (Or.inl (by decide +kernel))

/-- The 1st of June is accepted as well, and the run stops with `RollupIncomplete`. -/
theorem first_of_june_stops :
    overrideCutoff tenantApiUsage.closedMonth (override 9648) (dayOf june.now) "dev" = .ok (some 9648) ∧
    ¬PastGuard tenantApiUsage june.raw 9648
      (run (step tenantApiUsage) june (toGuard "dev" (override 9648) ⟨fun _ => true, none, 0, none⟩ 0 ())) := by
  refine ⟨by decide +kernel, fun h => ?_⟩
  obtain ⟨job, hjob, -⟩ := h.goesOn
  have hstop : (run (step tenantApiUsage) june
      (toGuard "dev" (override 9648) ⟨fun _ => true, none, 0, none⟩ 0 ())).run.isNone = true := by
    decide +kernel
  rw [hjob] at hstop
  cases hstop

end CisApp.Retention
