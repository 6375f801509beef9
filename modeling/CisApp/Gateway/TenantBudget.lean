import CisApp.Lib.Run
import CisApp.Gateway.Health

/-!
# The tenant AI budget on the gateway's call path

`shared/llm_client/tenant_budget.py`: before any attempt of a call, `check`
reads the budget of the tenant bound to it, through three caches of the process:
the set of budgeted tenants, the last state read of each tenant, and the time of
its last failed read.

* `budgeted`, `budgetOf`, `counterUnreadable` and `check` are the functions of
  the module; the loaders are what the call is given (a value or an exception).
* `BudgetState` holds the caches and, as a history variable, every read of a
  tenant's state with its outcome.
* `checks_fail_closed`: over every run, a tenant-spend call that returns used a
  state read less than a minute ago that needs no approval, or read nothing
  because the state is unreadable and the last one read stops nobody.

The clock moves in the loaders only.  `time.monotonic` is positive, and `0` is
the module's "never".
-/

namespace CisApp.Gateway

/-! ## Budgets -/

/-- `shared/cost_guard.py`, the fields the rules read. -/
structure TenantAIBudget where
  tenantId : String
  monthlyUsd : Rat
  monthSpentUsd : Rat
  alertPct : Nat := 100
  approvalPct : Nat := 150
  hardStop : Bool := false
deriving Repr, DecidableEq

/-- A 0 USD budget is past every threshold. -/
def TenantAIBudget.usedPct (b : TenantAIBudget) : Rat :=
  if b.monthlyUsd ≤ 0 then 1000 else 100 * b.monthSpentUsd / b.monthlyUsd

def TenantAIBudget.stops (b : TenantAIBudget) : Bool := b.hardStop || b.monthlyUsd ≤ 0

def TenantAIBudget.needsApproval (b : TenantAIBudget) : Bool :=
  b.stops && (b.approvalPct : Rat) ≤ b.usedPct

def tenantsTtl : Int := secs 60
def cacheTtl : Int := secs 60
def failureTtl : Int := secs 60
def unreadableRecheck : Int := secs 15
def missingTableTtl : Int := secs 300

/-- `T_STAGE`, the pattern `^t\d+_`. -/
def isTStage (stage : String) : Bool :=
  match stage.toList with
  | 't' :: rest => (rest.takeWhile (·.isDigit)).length ≠ 0 && (rest.dropWhile (·.isDigit)).head? = some '_'
  | _ => false

def isTenantSpendStage : Option String → Bool
  | none => false
  | some stage => isTStage stage || "adhoc_".toList.isPrefixOf stage.toList

/-! ## The caches -/

/-- A read of a tenant's state: `none` for one that failed. -/
structure StateRead where
  tenant : String
  readAt : Int
  outcome : Option (Option TenantAIBudget)
deriving Repr, DecidableEq

/-- The module's globals.  `reads` is the history of `loader_state`, newest first. -/
structure BudgetState where
  tenants : Option (List String) := none
  tenantsAt : Int := 0
  tenantsFailedAt : Int := 0
  state : String → Option (Option TenantAIBudget × Int) := fun _ => none
  failedAt : String → Option Int := fun _ => none
  reads : List StateRead := []

/-- One call of `check`: the switch, the tenant bound to the call, its stage, the
time it starts, and what each loader does if it is called. -/
structure BudgetCall where
  enabled : Bool
  tenant : Option String
  stage : Option String
  start : Int
  started : 0 < start
  loaderTenants : Except String (Option (List String))
  tenantsTook : Nat
  loaderState : Except String (Option TenantAIBudget)
  stateTook : Nat

/-- The set is fresh, or reading it failed lately: it is not read again. -/
def tenantsCached (now : Int) (s : BudgetState) : Bool :=
  let ttl := if s.tenants.isSome then tenantsTtl else missingTableTtl
  (s.tenantsAt ≠ 0 && now - s.tenantsAt < ttl) ||
    (s.tenantsFailedAt ≠ 0 && now - s.tenantsFailedAt < failureTtl)

/-- `loader_tenants`, its outcome cached. -/
def loadTenants (c : BudgetCall) (now : Int) (s : BudgetState) : Int × BudgetState :=
  let now := now + c.tenantsTook
  match c.loaderTenants with
  | .ok tenants => (now, { s with tenants, tenantsAt := now, tenantsFailedAt := 0 })
  | .error _ => (now, { s with tenantsFailedAt := now })

/-- Whether `tenant` is in the cached set, with the time after it. -/
def budgeted (c : BudgetCall) (tenant : String) (now : Int) (s : BudgetState) :
    Bool × Int × BudgetState :=
  let read := if tenantsCached now s then (now, s) else loadTenants c now s
  ((read.2.tenants.getD []).contains tenant, read)

/-- `loader_state`, its outcome cached. -/
def loadState (c : BudgetCall) (tenant : String) (now : Int) (s : BudgetState) :
    Option TenantAIBudget × Int × BudgetState :=
  let now := now + c.stateTook
  match c.loaderState with
  | .ok budget =>
    (budget, now, { s with
      state := Function.update s.state tenant (some (budget, now))
      failedAt := Function.update s.failedAt tenant none
      reads := ⟨tenant, now, some budget⟩ :: s.reads })
  | .error _ =>
    (none, now, { s with
      failedAt := Function.update s.failedAt tenant (some now)
      reads := ⟨tenant, now, none⟩ :: s.reads })

/-- A failed read is not retried for `recheckAfter`. -/
def retryState (c : BudgetCall) (tenant : String) (recheckAfter now : Int) (s : BudgetState) :
    Option TenantAIBudget × Int × BudgetState :=
  match s.failedAt tenant with
  | some failed =>
    if failed ≠ 0 ∧ now - failed < min recheckAfter failureTtl then (none, now, s)
    else loadState c tenant now s
  | none => loadState c tenant now s

/-- The cached budget state of a tenant. -/
def budgetOf (c : BudgetCall) (tenant : String) (recheckAfter now : Int) (s : BudgetState) :
    Option TenantAIBudget × Int × BudgetState :=
  if ¬ c.enabled then (none, now, s)
  else
    let (known, now, s) := budgeted c tenant now s
    if ¬ known then (none, now, s)
    else
      match s.state tenant with
      | some (budget, readAt) =>
        if now - readAt < cacheTtl then (budget, now, s)
        else retryState c tenant recheckAfter now s
      | none => retryState c tenant recheckAfter now s

/-- The tenant has a budget and its last state read failed lately, unless the
last state read before said that its hard stop is off or that it has none. -/
def counterUnreadable (c : BudgetCall) (tenant : String) (now : Int) (s : BudgetState) : Bool :=
  if ¬ c.enabled ∨ ¬ (s.tenants.getD []).contains tenant then false
  else
    match s.failedAt tenant with
    | none => false
    | some failed =>
      if failed = 0 ∨ failureTtl ≤ now - failed then false
      else
        match s.state tenant with
        | some (none, _) => false
        | some (some last, _) => last.stops
        | none => true

inductive BudgetRefusal where
  | approvalRequired (budget : TenantAIBudget)
  | unavailable (tenantId : String)
deriving Repr, DecidableEq

/-- `check`, with the time it ends. -/
def check (c : BudgetCall) (s : BudgetState) :
    Except BudgetRefusal (Option TenantAIBudget) × Int × BudgetState :=
  match c.tenant with
  | none => (.ok none, c.start, s)
  | some tenant =>
    let spend := isTenantSpendStage c.stage
    let recheckAfter := if spend then unreadableRecheck else failureTtl
    let (budget, now, s) := budgetOf c tenant recheckAfter c.start s
    let unreadable := budget.isNone && counterUnreadable c tenant now s
    if unreadable && spend then (.error (.unavailable tenant), now, s)
    else
      match budget with
      | some b =>
        if b.needsApproval && spend then (.error (.approvalRequired b), now, s)
        else (.ok budget, now, s)
      | none => (.ok none, now, s)

def checkStep (s : BudgetState) (c : BudgetCall) : BudgetState := (check c s).2.2

/-! ## The history -/

/-- The last state ever read of a tenant, and when. -/
def lastState (reads : List StateRead) (tenant : String) : Option (Option TenantAIBudget × Int) :=
  reads.findSome? fun r => if r.tenant = tenant then r.outcome.map (·, r.readAt) else none

/-- When the last read of a tenant's state failed, if it did. -/
def lastFailure (reads : List StateRead) (tenant : String) : Option Int :=
  match reads.find? (·.tenant = tenant) with
  | some r => if r.outcome.isNone then some r.readAt else none
  | none => none

/-- What allows a tenant-spend call at `now`: a state read less than a minute ago
that needs no approval; or no state is readable (the last read failed, in this
call or less than 15 s ago) and the last one ever read stops nobody. -/
def MayPass (reads : List StateRead) (tenant : String) (now : Int) : Prop :=
  (∃ b readAt, lastState reads tenant = some (b, readAt) ∧ now - readAt < cacheTtl ∧
    ∀ budget, b = some budget → budget.needsApproval = false) ∨
  ∃ failed, lastFailure reads tenant = some failed ∧ now - failed < unreadableRecheck ∧
    ∃ b readAt, lastState reads tenant = some (b, readAt) ∧
      ∀ budget, b = some budget → budget.stops = false

/-- A tenant-spend call of a tenant in the set last read returns only if it may. -/
def FailsClosed (s : BudgetState) (c : BudgetCall) : Prop :=
  ∀ tenant b, c.tenant = some tenant → isTenantSpendStage c.stage = true →
    (check c s).1 = .ok b → tenant ∈ (check c s).2.2.tenants.getD [] →
    MayPass (check c s).2.2.reads tenant (check c s).2.1

/-- The caches are what the history says. -/
structure Recorded (s : BudgetState) : Prop where
  state : ∀ t, s.state t = lastState s.reads t
  failed : ∀ t, s.failedAt t = lastFailure s.reads t
  positive : ∀ t f, s.failedAt t = some f → 0 < f

theorem recorded_init : Recorded {} where
  state := fun _ => rfl
  failed := fun _ => rfl
  positive := nofun

theorem lastState_cons (r : StateRead) (reads : List StateRead) (t : String) : lastState (r :: reads) t =
      if r.tenant = t ∧ r.outcome.isSome then r.outcome.map (·, r.readAt) else lastState reads t := by
  unfold lastState
  rw [List.findSome?_cons]
  by_cases ht : r.tenant = t
  · cases ho : r.outcome with
    | none => simp [ht]
    | some b => simp [ht]
  · simp [ht]

theorem lastFailure_cons (r : StateRead) (reads : List StateRead) (t : String) : lastFailure (r :: reads) t =
      if r.tenant = t then (if r.outcome.isNone then some r.readAt else none) else lastFailure reads t := by
  unfold lastFailure
  by_cases ht : r.tenant = t
  · simp [ht]
  · simp [ht]

variable (c : BudgetCall)

theorem budgeted_spec (tenant : String) (now : Int) (s : BudgetState) :
    now ≤ (budgeted c tenant now s).2.1 ∧ (budgeted c tenant now s).2.2.state = s.state ∧
      (budgeted c tenant now s).2.2.failedAt = s.failedAt ∧ (budgeted c tenant now s).2.2.reads = s.reads ∧
      ((budgeted c tenant now s).1 = true ↔ tenant ∈ (budgeted c tenant now s).2.2.tenants.getD []) := by
  have hmem : ∀ (r : Int × BudgetState), (r.2.tenants.getD []).contains tenant = true ↔
      tenant ∈ r.2.tenants.getD [] := by simp
  unfold budgeted
  by_cases hc : tenantsCached now s
  · rw [if_pos hc]
    exact ⟨le_refl _, rfl, rfl, rfl, hmem _⟩
  · rw [if_neg hc]
    refine ⟨?_, ?_, ?_, ?_, hmem _⟩
    all_goals
      unfold loadTenants
      cases c.loaderTenants with
      | ok tenants => simp
      | error e => simp

variable {s : BudgetState}

theorem Recorded.congr {s' : BudgetState} (h : Recorded s) (h1 : s'.state = s.state)
    (h2 : s'.failedAt = s.failedAt) (h3 : s'.reads = s.reads) : Recorded s' where
  state := by
    rw [h1, h3]
    exact h.state
  failed := by
    rw [h2, h3]
    exact h.failed
  positive := by
    rw [h2]
    exact h.positive

theorem Recorded.budgeted (h : Recorded s) (c : BudgetCall) (tenant : String)
    (now : Int) : Recorded (budgeted c tenant now s).2.2 := by
  obtain ⟨-, h1, h2, h3, -⟩ := budgeted_spec c tenant now s
  exact h.congr h1 h2 h3

theorem Recorded.loadState (h : Recorded s) (c : BudgetCall) (tenant : String)
    (now : Int) (hn : 0 < now) : Recorded (loadState c tenant now s).2.2 := by
  unfold Gateway.loadState
  cases c.loaderState with
  | ok budget =>
    refine ⟨fun t => ?_, fun t => ?_, fun t f hf => ?_⟩
    · simp only [lastState_cons]
      by_cases ht : tenant = t
      · simp [ht]
      · simp [ht, Function.update_of_ne (Ne.symm ht), h.state]
    · simp only [lastFailure_cons]
      by_cases ht : tenant = t
      · simp [ht]
      · simp [ht, Function.update_of_ne (Ne.symm ht), h.failed]
    · by_cases ht : t = tenant
      · simp [ht] at hf
      · simp only [Function.update_of_ne ht] at hf
        exact h.positive t f hf
  | error e =>
    refine ⟨fun t => ?_, fun t => ?_, fun t f hf => ?_⟩
    · simp [lastState_cons, h.state]
    · simp only [lastFailure_cons]
      by_cases ht : tenant = t
      · simp [ht]
      · simp [ht, Function.update_of_ne (Ne.symm ht), h.failed]
    · by_cases ht : t = tenant
      · simp only [ht, Function.update_self, Option.some.injEq] at hf
        omega
      · simp only [Function.update_of_ne ht] at hf
        exact h.positive t f hf

/-! ## What a call goes by -/

/-- What `budget_of` answers: the cached state, read lately, or nothing because
the last read failed lately. -/
def GoesBy (tenant : String) (recheckAfter : Int)
    (r : Option TenantAIBudget × Int × BudgetState) : Prop :=
  (∃ readAt, r.2.2.state tenant = some (r.1, readAt) ∧ r.2.1 - readAt < cacheTtl) ∨
  r.1 = none ∧ ∃ failed, r.2.2.failedAt tenant = some failed ∧ r.2.1 - failed < recheckAfter

theorem loadState_goesBy (tenant : String) (recheckAfter now : Int) (s : BudgetState)
    (hr : 0 < recheckAfter) : GoesBy tenant recheckAfter (loadState c tenant now s) := by
  unfold loadState
  cases c.loaderState with
  | ok budget =>
    left
    refine ⟨now + c.stateTook, by simp, ?_⟩
    simp [cacheTtl, secs]
  | error e =>
    right
    refine ⟨rfl, now + c.stateTook, by simp, ?_⟩
    simpa using hr

theorem retryState_spec (h : Recorded s) (c : BudgetCall) (tenant : String)
    (recheckAfter now : Int) (hr : 0 < recheckAfter) (hn : 0 < now) :
    Recorded (retryState c tenant recheckAfter now s).2.2 ∧
      GoesBy tenant recheckAfter (retryState c tenant recheckAfter now s) := by
  have hload : Recorded (loadState c tenant now s).2.2 ∧
      GoesBy tenant recheckAfter (loadState c tenant now s) :=
    ⟨h.loadState c tenant now hn, loadState_goesBy c tenant recheckAfter now s hr⟩
  unfold retryState
  cases hf : s.failedAt tenant with
  | none => exact hload
  | some failed =>
    simp only
    by_cases hc : failed ≠ 0 ∧ now - failed < min recheckAfter failureTtl
    · rw [if_pos hc]
      exact ⟨h, .inr ⟨rfl, failed, hf, lt_of_lt_of_le hc.2 (min_le_left _ _)⟩⟩
    · rw [if_neg hc]
      exact hload

theorem budgetOf_spec (h : Recorded s) (c : BudgetCall) (tenant : String)
    (recheckAfter now : Int) (hr : 0 < recheckAfter) (hn : 0 < now) :
    Recorded (budgetOf c tenant recheckAfter now s).2.2 ∧ (c.enabled = true →
        tenant ∈ (budgetOf c tenant recheckAfter now s).2.2.tenants.getD [] →
        GoesBy tenant recheckAfter (budgetOf c tenant recheckAfter now s)) := by
  obtain ⟨hle, -, -, -, hmem⟩ := budgeted_spec c tenant now s
  have hb := h.budgeted c tenant now
  unfold budgetOf
  by_cases he : c.enabled
  · rw [if_neg (not_not.2 he)]
    revert hle hmem hb
    generalize budgeted c tenant now s = r
    obtain ⟨known, now', s'⟩ := r
    intro hle hmem hb
    simp only at hle hmem hb ⊢
    by_cases hk : known = true
    · rw [if_neg (not_not.2 hk)]
      have hretry := retryState_spec hb c tenant recheckAfter now' hr (by omega)
      cases hs : s'.state tenant with
      | none => exact ⟨hretry.1, fun _ _ => hretry.2⟩
      | some p =>
        simp only
        by_cases hf : now' - p.2 < cacheTtl
        · rw [if_pos hf]
          exact ⟨hb, fun _ _ => .inl ⟨p.2, hs, hf⟩⟩
        · rw [if_neg hf]
          exact ⟨hretry.1, fun _ _ => hretry.2⟩
    · rw [if_pos hk]
      exact ⟨hb, fun _ hm => absurd (hmem.2 hm) hk⟩
  · rw [if_pos he]
    exact ⟨h, fun h' => absurd h' he⟩

theorem counterUnreadable_false (h : Recorded s) (c : BudgetCall) (tenant : String)
    (now failed : Int) (he : c.enabled = true) (hm : tenant ∈ s.tenants.getD [])
    (hf : s.failedAt tenant = some failed) (hlt : now - failed < unreadableRecheck)
    (hu : counterUnreadable c tenant now s = false) : ∃ b readAt, s.state tenant = some (b, readAt) ∧
      ∀ budget, b = some budget → budget.stops = false := by
  have hpos := h.positive tenant failed hf
  have hnew : ¬ (failed = 0 ∨ failureTtl ≤ now - failed) := by
    simp only [unreadableRecheck, secs] at hlt
    simp only [failureTtl, secs]
    omega
  have hguard : ¬ (¬ c.enabled = true ∨ ¬ (s.tenants.getD []).contains tenant = true) := by
    simp [he, hm]
  unfold counterUnreadable at hu
  rw [if_neg hguard] at hu
  simp only [hf, if_neg hnew] at hu
  cases hs : s.state tenant with
  | none => simp [hs] at hu
  | some p =>
    obtain ⟨b, readAt⟩ := p
    refine ⟨b, readAt, rfl, ?_⟩
    rintro budget rfl
    simpa [hs] using hu

def recheckOf (c : BudgetCall) : Int :=
  if isTenantSpendStage c.stage then unreadableRecheck else failureTtl

theorem recheckOf_pos : 0 < recheckOf c := by
  unfold recheckOf
  split <;> simp [unreadableRecheck, failureTtl, secs]

theorem check_snd (s : BudgetState) (tenant : String) (ht : c.tenant = some tenant) :
    (check c s).2 = (budgetOf c tenant (recheckOf c) c.start s).2 := by
  unfold check recheckOf
  simp only [ht]
  generalize budgetOf c tenant _ c.start s = r
  obtain ⟨budget, now, s'⟩ := r
  split
  · rfl
  · cases budget with
    | none => rfl
    | some b =>
      simp only
      split <;> rfl

theorem check_ok (s : BudgetState) (tenant : String) (b : Option TenantAIBudget)
    (ht : c.tenant = some tenant) (hs : isTenantSpendStage c.stage = true)
    (hok : (check c s).1 = .ok b) :
    let r := budgetOf c tenant (recheckOf c) c.start s
    (∀ budget, r.1 = some budget → budget.needsApproval = false) ∧
      (r.1 = none → counterUnreadable c tenant r.2.1 r.2.2 = false) := by
  unfold check at hok
  unfold recheckOf
  simp only [ht, hs, Bool.and_true] at hok ⊢
  revert hok
  generalize budgetOf c tenant _ c.start s = r
  obtain ⟨budget, now, s'⟩ := r
  intro hok
  cases budget with
  | none =>
    refine ⟨by simp, fun _ => ?_⟩
    by_contra hu
    simp only [Bool.not_eq_false] at hu
    simp [hu] at hok
  | some b' =>
    refine ⟨?_, by simp⟩
    rintro budget ⟨rfl⟩
    by_contra hn
    simp only [Bool.not_eq_false] at hn
    simp [hn] at hok

theorem Recorded.step (h : Recorded s) (c : BudgetCall) : Recorded (checkStep s c) := by
  unfold checkStep
  cases ht : c.tenant with
  | none =>
    have : (check c s).2.2 = s := by simp [check, ht]
    rw [this]
    exact h
  | some tenant =>
    rw [check_snd c s tenant ht]
    exact (budgetOf_spec h c tenant _ c.start (recheckOf_pos c) c.started).1

theorem Recorded.failsClosed (h : Recorded s) (c : BudgetCall) (he : c.enabled = true) : FailsClosed s c := by
  intro tenant b ht hs hok hm
  obtain ⟨hneeds, hread⟩ := check_ok c s tenant b ht hs hok
  have hspec := budgetOf_spec h c tenant (recheckOf c) c.start (recheckOf_pos c) c.started
  rw [check_snd c s tenant ht] at hm ⊢
  revert hm hneeds hread hspec
  generalize budgetOf c tenant (recheckOf c) c.start s = r
  obtain ⟨budget, now, s'⟩ := r
  rintro hm hneeds hread ⟨hrec, hgo⟩
  rcases hgo he hm with ⟨readAt, hst, hfresh⟩ | ⟨hnone, failed, hf, hlt⟩
  · left
    refine ⟨budget, readAt, ?_, hfresh, hneeds⟩
    rw [← hrec.state]
    exact hst
  · right
    simp only [recheckOf, hs, if_true] at hlt
    obtain ⟨last, readAt, hst, hstop⟩ :=
      counterUnreadable_false hrec c tenant now failed he hm hf hlt (hread hnone)
    refine ⟨failed, ?_, hlt, last, readAt, ?_, hstop⟩
    · rw [← hrec.failed]
      exact hf
    · rw [← hrec.state]
      exact hst

/-- In every run of calls, every call made with the check switched on fails
closed. -/
theorem checks_fail_closed (calls : List BudgetCall) :
    Along checkStep (fun s c => c.enabled = true → FailsClosed s c) {} calls := by
  have hstep : ∀ s c, Recorded s → Recorded (checkStep s c) := fun s c h => h.step c
  have hrec : Always checkStep Recorded {} calls := always_of_step hstep calls recorded_init
  have hall : Along checkStep (fun _ _ => True) {} calls := along_of_forall fun _ _ => trivial
  exact Along.imp_of_always (fun s c h _ he => h.failsClosed c he) hrec hall

/-! ### The switch -/

def overBudget : TenantAIBudget where
  tenantId := "7a3e1c52-0f4b-4d2e-9c11-5b6a7d8e9f01"
  monthlyUsd := 10
  monthSpentUsd := 20
  hardStop := true

/-- A T-stage call of a tenant past its approval threshold. -/
def heldCall (enabled : Bool) (start : Int) (h : 0 < start) : BudgetCall where
  enabled := enabled
  tenant := some overBudget.tenantId
  stage := some "t2_generate"
  start := start
  started := h
  loaderTenants := .ok (some [overBudget.tenantId])
  tenantsTook := 0
  loaderState := .ok (some overBudget)
  stateTook := 0

theorem overBudget_needsApproval : overBudget.needsApproval = true := by
  simp only [TenantAIBudget.needsApproval, TenantAIBudget.stops, TenantAIBudget.usedPct, overBudget]
  norm_num

/-- With `LLM_TENANT_BUDGETS=off` a call of a tenant waiting for approval passes. -/
theorem switchedOff_passes : ¬ Along checkStep FailsClosed {}
      [heldCall true (secs 1) (by decide), heldCall false (secs 2) (by decide)] := by
  rintro ⟨-, h, -⟩
  have hfirst : (checkStep {} (heldCall true (secs 1) (by decide))).reads =
      [⟨overBudget.tenantId, secs 1, some (some overBudget)⟩] ∧
      (checkStep {} (heldCall true (secs 1) (by decide))).tenants = some [overBudget.tenantId] := by
    rw [checkStep, check_snd _ _ _ rfl]
    exact ⟨rfl, rfl⟩
  revert h hfirst
  generalize checkStep {} (heldCall true (secs 1) (by decide)) = s
  rintro h ⟨hreads, hset⟩
  have hmem : overBudget.tenantId ∈ s.tenants.getD [] := by simp [hset]
  rcases h overBudget.tenantId none rfl rfl rfl hmem with ⟨b, readAt, hb, -, hneeds⟩ | ⟨failed, hf, -⟩
  · have hlast : lastState s.reads overBudget.tenantId = some (b, readAt) := hb
    simp only [hreads, lastState_cons, Option.isSome_some, and_self, if_true, Option.map_some,
      Option.some.injEq, Prod.mk.injEq] at hlast
    have hno := hneeds overBudget hlast.1.symm
    rw [overBudget_needsApproval] at hno
    cases hno
  · have hfail : lastFailure s.reads overBudget.tenantId = some failed := hf
    simp [hreads, lastFailure_cons] at hfail

end CisApp.Gateway
