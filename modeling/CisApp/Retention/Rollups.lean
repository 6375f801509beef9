import CisApp.Lib.Calendar
import CisApp.Lib.GroupBy
import CisApp.Lib.Run
import CisApp.Lib.Table

/-! The retention of the two rolled-up tables (`services/retention/rollups.py`, `services/retention/runner.py`,
`services/jobs/retention_job.py`).

A raw row carries the time at which its transaction began and is seen once that commits.  A run takes a
cutoff, rolls up the days (months) before it that have no rollup row yet, checks that none is left and then
deletes raw rows in batches.  The two kinds differ in the data of a `Spec`: what a period is, how far the
rollup statement reads, the groups and the columns.

Times are microseconds and days are UTC days, both from 1 January 2000. -/

namespace CisApp.Retention

open Lib Lib.Calendar

def hour : Nat := 3600000000
def dayLength : Nat := 24 * hour

/-- `(t AT TIME ZONE 'UTC')::date`. -/
def dayOf (t : Nat) : Nat := t / dayLength

def midnight (d : Nat) : Nat := d * dayLength

/-! ## Starting a run -/

def batchSizeMax : Nat := 5000

inductive Trigger where
  | schedule
  | manual
  | manualOverride
  | other (name : String)
deriving Repr, DecidableEq

/-- `payload["older_than"]`: a date, or something that `date.fromisoformat` does not take. -/
inductive OlderThan where
  | date (day : Nat)
  | malformed
deriving Repr, DecidableEq

/-- `payload["max_rows"]`; Python counts a `bool` as an `int`. -/
inductive MaxRows where
  | int (n : Int)
  | bool (b : Bool)
  | other
deriving Repr, DecidableEq

structure Payload where
  trigger : Trigger
  /-- `dry_run` is there and `false`. -/
  live : Bool
  maxRows : MaxRows
  batchSize : Int
  olderThan : Option OlderThan
deriving Repr, DecidableEq

/-- `max(1, min(int(batch_size or BATCH_SIZE_MAX), BATCH_SIZE_MAX))`. -/
def Payload.batch (payload : Payload) : Int :=
  max 1 (min (if payload.batchSize = 0 then batchSizeMax else payload.batchSize) batchSizeMax)

inductive NonRetryable where
  | olderThanNeedsOverride
  | refusedEnvironment (env : String)
  | needsOlderThan
  | tooRecent (latest : Int)
  | currentMonth (first : Nat)
  | needsMaxRows
  | rollupIncomplete (left : Nat)
deriving Repr, DecidableEq

def overrideMinAgeDays : Nat := 21
def overrideMaxRows : Int := 1000
def overrideEnvironments : List String := ["dev", "test"]
def runMaxRows : Int := 200000
def growthFactor : Nat := 2
def growthFloorRows : Nat := batchSizeMax

/-- `override_cutoff`; `closedMonth` says that the kind is `retention_tenant_api_usage`. -/
def overrideCutoff (closedMonth : Bool) (payload : Payload) (today : Nat) (env : String) :
    Except NonRetryable (Option Nat) :=
  if payload.trigger ≠ .manualOverride then
    if payload.olderThan.isSome then .error .olderThanNeedsOverride else .ok none
  else if env ∉ overrideEnvironments then .error (.refusedEnvironment env)
  else
    match payload.olderThan with
    | some (.date day) =>
      if today < day + overrideMinAgeDays then .error (.tooRecent (today - overrideMinAgeDays))
      else if closedMonth && monthStart (monthOf today) < day then
        .error (.currentMonth (monthStart (monthOf today)))
      else .ok (some day)
    | _ => .error .needsOlderThan

inductive Mode where
  | dryRun
  | live
  | held
deriving Repr, DecidableEq

structure LiveResult where
  windowDays : Option Nat
  deletedTotal : Nat
deriving Repr, DecidableEq

def MaxRows.toInt? : MaxRows → Option Int
  | .int n => some n
  | .bool b => some b.toNat
  | .other => none

/-- `decide_mode`: the mode and `limit_rows`. -/
def decideMode (payload : Payload) (windowDays candidates : Nat) (prevLive : Option LiveResult) :
    Except NonRetryable (Mode × Int) :=
  match payload.trigger with
  | .manualOverride =>
    if !payload.live then .ok (.dryRun, 0)
    else
      match payload.maxRows with
      | .int n => if 1 ≤ n && n ≤ overrideMaxRows then .ok (.live, n) else .error .needsMaxRows
      | _ => .error .needsMaxRows
  | .schedule =>
    match prevLive with
    | none => .ok (.dryRun, 0)
    | some prev =>
      if prev.windowDays ≠ some windowDays then .ok (.dryRun, 0)
      else if max (growthFactor * prev.deletedTotal) growthFloorRows < candidates then .ok (.held, 0)
      else .ok (.live, min candidates runMaxRows)
  | _ =>
    if !payload.live then .ok (.dryRun, 0)
    else
      match payload.maxRows.toInt? with
      | some n => if 1 ≤ n then .ok (.live, min n runMaxRows) else .error .needsMaxRows
      | none => .error .needsMaxRows

def rowsLeft (trigger : Trigger) (limitRows already : Int) : Int :=
  if trigger = .schedule then max (min limitRows (runMaxRows - already)) 0 else max (limitRows - already) 0

/-! ## The tables -/

variable {ρ γ μ ν : Type}

/-- A rolled-up kind: `ρ` are its raw rows, `γ` the groups and `μ` the columns of its rollup, `ν` the
versions of its rollup statement. -/
structure Spec (ρ γ μ ν : Type) where
  windowDays : Nat
  /-- The kind is `retention_tenant_api_usage`. -/
  closedMonth : Bool
  rowId : ρ → Nat
  ts : ρ → Nat
  period : Nat → Nat
  readsTo : Nat → Nat
  group : ν → ρ → γ
  column : ν → μ → ρ → Option Int

structure RollupRow (γ μ : Type) where
  period : Nat
  group : γ
  value : μ → Int

structure Writer (ρ : Type) where
  start : Nat
  rows : List ρ

/-- A live run. -/
structure Job where
  payload : Payload
  /-- `older_than` gave the cutoff. -/
  forced : Bool
  cut : Nat
  remaining : Int
  cursor : Option (Nat × Nat)

/-- Where a run stands. -/
inductive Phase where
  | counting (payload : Payload) (forced : Option Nat)
  | rollup (job : Job)
  /-- In the transaction of `rollups.write`, whose `now()` is `at₀`. -/
  | inserting (job : Job) (at₀ : Nat)
  | checking (job : Job)
  | deleting (job : Job)

structure State (ρ γ μ : Type) where
  now : Nat
  writers : Table Nat (Writer ρ)
  raw : List ρ
  inserted : List ρ
  deleted : List ρ
  rollup : List (RollupRow γ μ)
  run : Option Phase

def init : State ρ γ μ := ⟨midnight 8766, Table.empty, [], [], [], [], none⟩

/-- What a run reads of the rest: the rows that its predicate does not keep (`NOT_PILOT`, no reference to
them), the last live run and what an earlier attempt of the same job has done. -/
structure Outside (ρ : Type) where
  eligible : ρ → Bool
  prevLive : Option LiveResult
  already : Int
  cursor : Option (Nat × Nat)

inductive Act (ρ ν : Type) where
  | tick (d : Nat)
  | beginTx (i : Nat)
  | insert (i : Nat) (row : ρ)
  | commit (i : Nat)
  | abort (i : Nat)
  | start (env : String) (payload : Payload)
  | count (outside : Outside ρ)
  | beginWrite
  | write (version : ν)
  | check
  | deleteBatch (eligible : ρ → Bool)
  | stop

/-! ## The statements -/

section Statements

variable [DecidableEq γ] (spec : Spec ρ γ μ ν)

def rolled (rollup : List (RollupRow γ μ)) (p : Nat) : Bool := rollup.any fun x => x.period = p

/-- The rows that the rollup statement reads: before `readsTo`, of periods with no rollup row. -/
def Spec.unrolled (rollup : List (RollupRow γ μ)) (raw : List ρ) (c : Nat) : List ρ :=
  raw.filter fun r => spec.ts r < spec.readsTo c && !rolled rollup (spec.period (spec.ts r))

def Spec.pending (rollup : List (RollupRow γ μ)) (raw : List ρ) (c : Nat) : Nat :=
  (GroupBy.groups (fun r => spec.period (spec.ts r)) (spec.unrolled rollup raw c)).length

/-- `_MONTH_END <= now()`; the daily statement has no such condition. -/
def Spec.closed (c now : Nat) : Bool := !spec.closedMonth || spec.readsTo c ≤ now

def Spec.key (version : ν) (r : ρ) : Nat × γ := (spec.period (spec.ts r), spec.group version r)

/-- The `SELECT … GROUP BY` of the rollup statement. -/
def Spec.grouped (version : ν) (rows : List ρ) : List (RollupRow γ μ) :=
  (GroupBy.groups (spec.key version) rows).map fun k =>
    ⟨k.1, k.2, fun m => GroupBy.groupSum (spec.key version) (spec.column version m) rows k⟩

/-- `ON CONFLICT … DO NOTHING`. -/
def insertRollup (rollup : List (RollupRow γ μ)) (row : RollupRow γ μ) : List (RollupRow γ μ) :=
  if rollup.any fun x => (x.period, x.group) = (row.period, row.group) then rollup else rollup ++ [row]

def Spec.write (version : ν) (rollup : List (RollupRow γ μ)) (raw : List ρ) (c now : Nat) :
    List (RollupRow γ μ) :=
  if spec.closed c now then (spec.grouped version (spec.unrolled rollup raw c)).foldl insertRollup rollup
  else rollup

/-- The candidates of `predicate`. -/
def Spec.candidates (eligible : ρ → Bool) (raw : List ρ) (c : Nat) : List ρ :=
  raw.filter fun r => spec.ts r < midnight c && eligible r

/-- `batch_sql`: the next rows after the cursor, oldest first. -/
def Spec.batch (eligible : ρ → Bool) (raw : List ρ) (c n : Nat) (cursor : Option (Nat × Nat)) : List ρ :=
  (((spec.candidates eligible raw c).filter fun r =>
      cursor.all fun k => k.1 < spec.ts r || k.1 = spec.ts r && k.2 < spec.rowId r).mergeSort
    fun a b => spec.ts a < spec.ts b || spec.ts a = spec.ts b && spec.rowId a ≤ spec.rowId b).take n

def Spec.sameMonthPrefix (rows : List ρ) : List ρ :=
  match rows with
  | [] => []
  | r :: _ => rows.takeWhile fun x => monthOf (dayOf (spec.ts x)) = monthOf (dayOf (spec.ts r))

/-- `delete_sql`: the rows with the id of one of `rows`. -/
def Spec.among (rows : List ρ) (r : ρ) : Bool := rows.any fun x => spec.rowId x = spec.rowId r

/-- The cutoff of the policy: midnight of the day `windowDays` days ago. -/
def Spec.policyCutoff (now : Nat) : Nat := dayOf now - spec.windowDays

def step (s : State ρ γ μ) : Act ρ ν → State ρ γ μ
  | .tick d => { s with now := s.now + d }
  | .beginTx i =>
    if (s.writers.get? i).isSome then s else { s with writers := s.writers.upsert i ⟨s.now, []⟩ }
  | .insert i row =>
    match s.writers.get? i with
    | none => s
    | some w =>
      if spec.ts row = w.start then { s with writers := s.writers.upsert i ⟨w.start, w.rows ++ [row]⟩ } else s
  | .commit i =>
    match s.writers.get? i with
    | none => s
    | some w =>
      -- a transaction commits at most an hour after its start
      if s.now ≤ w.start + hour then
        { s with
          writers := s.writers.delete fun j _ => j = i
          raw := s.raw ++ w.rows
          inserted := s.inserted ++ w.rows }
      else s
  | .abort i => { s with writers := s.writers.delete fun j _ => j = i }
  | .start env payload =>
    match s.run with
    | some _ => s
    | none =>
      match overrideCutoff spec.closedMonth payload (dayOf s.now) env with
      | .error _ => s
      | .ok forced => { s with run := some (.counting payload forced) }
  | .count outside =>
    match s.run with
    | some (.counting payload forced) =>
      let cut := forced.getD (spec.policyCutoff s.now)
      let candidates := (spec.candidates outside.eligible s.raw cut).length
      match decideMode payload spec.windowDays candidates outside.prevLive with
      | .ok (.live, limitRows) =>
        { s with
          run := some (.rollup ⟨payload, forced.isSome, cut,
            rowsLeft payload.trigger limitRows outside.already, outside.cursor⟩) }
      | _ => { s with run := none }
    | _ => s
  | .beginWrite =>
    match s.run with
    | some (.rollup job) => { s with run := some (.inserting job s.now) }
    | _ => s
  | .write version =>
    match s.run with
    | some (.inserting job at₀) =>
      { s with
        rollup := spec.write version s.rollup s.raw job.cut at₀
        run := some (.checking job) }
    | _ => s
  | .check =>
    match s.run with
    | some (.checking job) =>
      if spec.pending s.rollup s.raw job.cut = 0 then { s with run := some (.deleting job) }
      else { s with run := none }
    | _ => s
  | .deleteBatch eligible =>
    match s.run with
    | some (.deleting job) =>
      if 0 < job.remaining then
        let n := (min job.payload.batch job.remaining).toNat
        let rows := spec.sameMonthPrefix (spec.batch eligible s.raw job.cut n job.cursor)
        match rows.getLast? with
        | none => { s with run := none }
        | some last =>
          if (s.raw.filter (spec.among rows)).length = rows.length then
            { s with
              raw := s.raw.filter fun r => !spec.among rows r
              deleted := s.deleted ++ s.raw.filter (spec.among rows)
              run := some (.deleting { job with
                remaining := job.remaining - rows.length
                cursor := some (spec.ts last, spec.rowId last) }) }
          else { s with run := none }
      else { s with run := none }
    | _ => s
  | .stop => { s with run := none }

end Statements

/-! ## The two kinds -/

/-- A row of `shared.llm_call_log`; `costUsd` counts millionths. -/
structure LlmCall where
  id : Nat
  createdAt : Nat
  app : Option String
  signalApp : Option String
  tenantId : Option Nat
  stage : String
  role : String
  model : String
  provider : Option String
  account : Option String
  isShadow : Option Bool
  signalShadow : Bool
  fallbackUsed : Option Bool
  tokensIn : Option Int
  tokensOut : Option Int
  costUsd : Option Int
  cacheReadTokens : Option Int
  cacheWriteTokens : Option Int
  pricingMode : Option String
  status : Option String
  latencyMs : Option Int
deriving Repr, DecidableEq

structure LlmGroup where
  app : String
  tenantId : Option Nat
  stage : String
  role : String
  model : String
  provider : Option String
  account : Option String
  isShadow : Bool
deriving Repr, DecidableEq

inductive LlmColumn where
  | calls
  | fallbackCalls
  | tokensIn
  | tokensOut
  | costUsd
  | cacheReadTokens
  | cacheWriteTokens
  | estimateCalls
  | refusedCalls
  | errorCalls
  | latencyMsSum
  | latencyMsCount
deriving Repr, DecidableEq

/-- `LLM_DAILY_INSERT_SQL`, `LLM_DAILY_INSERT_S6_SQL`, `LLM_DAILY_INSERT_V2_SQL`. -/
inductive LlmVersion where
  | base
  | s6
  | v2
deriving Repr, DecidableEq

def llmGroup (version : LlmVersion) (l : LlmCall) : LlmGroup where
  app := (if version = .v2 then l.app.or l.signalApp else l.signalApp).getD "cis"
  tenantId := l.tenantId
  stage := l.stage
  role := l.role
  model := l.model
  provider := l.provider
  account := l.account
  isShadow := if version = .v2 then l.isShadow.getD l.signalShadow else l.signalShadow

/-- `count(*) FILTER (WHERE …)`. -/
def filtered (b : Bool) : Option Int := if b then some 1 else none

/-- A column that the version does not write keeps its default 0. -/
def llmColumn (version : LlmVersion) (column : LlmColumn) (l : LlmCall) : Option Int :=
  match column with
  | .calls => some 1
  | .fallbackCalls => filtered (l.fallbackUsed = some true)
  | .tokensIn => l.tokensIn
  | .tokensOut => l.tokensOut
  | .costUsd => l.costUsd
  | .cacheReadTokens => if version = .base then none else l.cacheReadTokens
  | .cacheWriteTokens => if version = .base then none else l.cacheWriteTokens
  | .estimateCalls =>
    if version = .base then none else filtered (l.pricingMode.any fun m => m.startsWith "estimate")
  | .refusedCalls => if version = .v2 then filtered (l.status = some "refused") else none
  | .errorCalls => if version = .v2 then filtered (l.status = some "error") else none
  | .latencyMsSum => if version = .v2 then l.latencyMs else none
  | .latencyMsCount => if version = .v2 then filtered l.latencyMs.isSome else none

/-- `retention_llm_call_log`: 180 days, rolled up by day. -/
def llmCallLog : Spec LlmCall LlmGroup LlmColumn LlmVersion where
  windowDays := 180
  closedMonth := false
  rowId := LlmCall.id
  ts := LlmCall.createdAt
  period := dayOf
  readsTo := midnight
  group := llmGroup
  column := llmColumn

/-- A row of `shared.tenant_api_usage`. -/
structure ApiCall where
  id : Nat
  calledAt : Nat
  tenantId : Option Nat
  actorType : String
  statusCode : Int
  responseMs : Option Int
deriving Repr, DecidableEq

inductive UsageColumn where
  | calls
  | okCalls
  | rateLimitedCalls
  | serverErrorCalls
  | responseMsSum
  | responseMsCount
deriving Repr, DecidableEq

def usageColumn (column : UsageColumn) (u : ApiCall) : Option Int :=
  match column with
  | .calls => some 1
  | .okCalls => filtered (u.statusCode < 400)
  | .rateLimitedCalls => filtered (u.statusCode = 429)
  | .serverErrorCalls => filtered (500 ≤ u.statusCode)
  | .responseMsSum => u.responseMs
  | .responseMsCount => filtered u.responseMs.isSome

/-- `_MONTH_END`: the end of the month of the day `c`. -/
def monthEnd (c : Nat) : Nat := midnight (monthStart (monthOf c + 1))

/-- `retention_tenant_api_usage`: 90 days, rolled up by month. -/
def tenantApiUsage : Spec ApiCall (Option Nat × String) UsageColumn Unit where
  windowDays := 90
  closedMonth := true
  rowId := ApiCall.id
  ts := ApiCall.calledAt
  period := fun t => monthOf (dayOf t)
  readsTo := monthEnd
  group := fun _ u => (u.tenantId, u.actorType)
  column := fun _ => usageColumn

end CisApp.Retention
