import CisApp.Jobs.Row
import CisApp.Lib.Run

/-!
# The writers of `shared.job` (`shared/jobs/queue.py`)

Each function is one guarded statement over the whole table, applied at once;
its `now` is the statement's own `now()`.  The row a statement writes is a
function of its own (`claimRow`, `finishRow`, …) under the name of the
operation, so that the table functions below say only which rows match.  Every
`UPDATE` also sets `updated_at` (the trigger of migration 242).

The results are the Python functions' own: `''` of `fail` and `release` is
`none`, a statement that raises is the outer `none` of `enqueue` and `release`.
-/

namespace CisApp.Jobs

/-- The guard of every statement of a worker: `status = 'running' AND
locked_by = $worker`. -/
def JobRow.ownedBy (r : JobRow) (worker : String) : Bool :=
  r.status == .running && r.lockedBy == some worker

def guardOwned (job : JobId) (worker : String) (k : JobId) (r : JobRow) : Bool :=
  k == job && r.ownedBy worker

/-- The row of `job` matches the guard. -/
def owns (t : JobTable) (job : JobId) (worker : String) : Bool :=
  match t.get? job with
  | some r => r.ownedBy worker
  | none => false

/-! ## enqueue -/

/-- The new row of an `INSERT`; the columns it does not name have their defaults. -/
def newRow (now : Int) (kind : String) (payload : JObj) (idempotencyKey : Option String)
    (maxAttempts : Int) (hmax : 1 ≤ maxAttempts) (parentJobId : Option JobId)
    (createdBy : Option String) (runAfter : Option Int) : JobRow where
  kind := kind
  payload := payload
  status := .queued
  attempt := 0
  maxAttempts := maxAttempts
  runAfter := runAfter.getD now
  lockedBy := none
  lockedUntil := none
  cancelRequested := false
  idempotencyKey := idempotencyKey
  progress := []
  result := none
  costUsd := 0
  error := none
  parentJobId := parentJobId
  createdBy := createdBy
  createdAt := now
  updatedAt := now
  startedAt := none
  finishedAt := none
  attemptsChk := ⟨le_refl _, hmax⟩
  leaseChk := by simp

/-- The row an idempotency key already belongs to. -/
def keyed (t : JobTable) (idempotencyKey : Option String) : Option JobId :=
  match idempotencyKey with
  | none => none
  | some key => (t.matching fun _ r => r.idempotencyKey == some key).head?

/-- The job's id and whether it was created; `id` is the drawn `gen_random_uuid()`.
The checks are tested before the conflict on the key, the foreign key only for
a row that is inserted. -/
def enqueue (t : JobTable) (now : Int) (id : JobId) (kind : String) (payload : JObj)
    (idempotencyKey : Option String) (maxAttempts : Int) (parentJobId : Option JobId)
    (createdBy : Option String) (runAfter : Option Int) : JobTable × Option (JobId × Bool) :=
  if h : kindChk kind = true ∧ 1 ≤ maxAttempts then
    match keyed t idempotencyKey with
    | some existing => (t, some (existing, false))
    | none =>
      if parentJobId.all (fun p => (t.get? p).isSome || p == id) && (t.get? id).isNone then
        (t.insert id (newRow now kind payload idempotencyKey maxAttempts h.2 parentJobId
          createdBy runAfter), some (id, true))
      else (t, none)
  else (t, none)

/-! ## claim -/

def isRunningOf (kind : String) (_ : JobId) (r : JobRow) : Bool :=
  r.kind == kind && r.status == .running

def runningCount (t : JobTable) (kind : String) : Nat := t.count (isRunningOf kind)

/-- The rows a claim may take: queued, due, not cancelled, of a kind in `caps`
whose running count is below its cap. -/
def eligible (t : JobTable) (now : Int) (caps : List (String × Int)) (_ : JobId) (j : JobRow) :
    Bool :=
  j.status == .queued && decide (j.runAfter ≤ now) && !j.cancelRequested &&
    match caps.lookup j.kind with
    | none => false
    | some cap => decide ((runningCount t j.kind : Int) < cap)

/-- The order `run_after, created_at`. -/
def dueBefore (a b : JobRow) : Bool :=
  decide (a.runAfter < b.runAfter) || (a.runAfter == b.runAfter && decide (a.createdAt ≤ b.createdAt))

def timeJson (t : Int) : Json := .str (toString t)

def claimRow (now : Int) (worker : String) (leaseSeconds : Int) (r : JobRow) : JobRow where
  __ := r
  status := .running
  attempt := r.attempt + 1
  lockedBy := some worker
  lockedUntil := some (now + secs leaseSeconds)
  startedAt := some (r.startedAt.getD now)
  updatedAt := now
  progress := r.progress.merge [("attempt_started_at", timeJson now)]
  attemptsChk := ⟨by have := r.attemptsChk; omega, r.attemptsChk.2⟩
  leaseChk := by simp

/-- The row the subquery of `claim` selects; `locked` are the rows other
transactions hold (`FOR UPDATE SKIP LOCKED`). -/
def claimable (t : JobTable) (now : Int) (caps : List (String × Int)) (locked : List JobId) :
    Option (JobId × JobRow) :=
  t.first? dueBefore fun k r => eligible t now caps k r && !locked.contains k

def claim (t : JobTable) (now : Int) (worker : String) (caps : List (String × Int))
    (leaseSeconds : Int) (locked : List JobId) : JobTable × Option Job :=
  match claimable t now caps locked with
  | none => (t, none)
  | some (id, r) =>
    (t.update (fun k _ => k == id) (fun _ r => claimRow now worker leaseSeconds r),
      some (toJob id (claimRow now worker leaseSeconds r)))

/-! ## The calls of a running worker -/

def heartbeatRow (now : Int) (leaseSeconds : Int) (r : JobRow) : JobRow where
  __ := r
  lockedUntil := some (now + secs leaseSeconds)
  updatedAt := now
  attemptsChk := r.attemptsChk
  leaseChk := fun h => ⟨(r.leaseChk h).1, by simp⟩

/-- Extends the lease: whether the job is still owned, and `cancel_requested`. -/
def heartbeat (t : JobTable) (now : Int) (job : JobId) (worker : String) (leaseSeconds : Int) :
    JobTable × (Bool × Bool) :=
  (t.update (guardOwned job worker) (fun _ r => heartbeatRow now leaseSeconds r),
    match t.get? job with
    | some r => (r.ownedBy worker, r.ownedBy worker && r.cancelRequested)
    | none => (false, false))

def setProgressRow (now : Int) (fields : JObj) (cost : Option ℚ) (r : JobRow) : JobRow where
  __ := r
  progress := r.progress.merge fields
  costUsd := r.newCost cost
  updatedAt := now
  attemptsChk := r.attemptsChk
  leaseChk := r.leaseChk

def setProgress (t : JobTable) (now : Int) (job : JobId) (fields : JObj) (cost : Option ℚ) :
    JobTable :=
  t.update (fun k _ => k == job) (fun _ r => setProgressRow now fields cost r)

/-- The statuses `_finish` is called with. -/
inductive Finish where
  | succeeded
  | failed
  | stoppedBudget
  | cancelled
deriving Repr, DecidableEq

def Finish.status : Finish → Status
  | .succeeded => .succeeded
  | .failed => .failed
  | .stoppedBudget => .stoppedBudget
  | .cancelled => .cancelled

@[simp] theorem Finish.status_ne_running (f : Finish) : f.status ≠ .running := by
  cases f <;> simp [Finish.status]

def finishRow (now : Int) (status : Finish) (result : Option Json) (error : Option String)
    (cost : Option ℚ) (r : JobRow) : JobRow where
  __ := r
  status := status.status
  result := result
  error := error
  costUsd := r.newCost cost
  lockedBy := none
  lockedUntil := none
  finishedAt := some now
  updatedAt := now
  attemptsChk := r.attemptsChk
  leaseChk := fun h => absurd h status.status_ne_running

/-- Ends the job (`_finish`); whether the row was still the worker's. -/
def finish (t : JobTable) (now : Int) (job : JobId) (worker : String) (status : Finish)
    (result : Option Json) (error : Option String) (cost : Option ℚ) : JobTable × Bool :=
  (t.update (guardOwned job worker) (fun _ r => finishRow now status result error cost r),
    owns t job worker)

def complete (t : JobTable) (now : Int) (job : JobId) (worker : String) (result : Option Json)
    (cost : Option ℚ) : JobTable × Bool := finish t now job worker .succeeded result none cost

def stopBudget (t : JobTable) (now : Int) (job : JobId) (worker : String) (error : String)
    (result : Option Json) (cost : Option ℚ) : JobTable × Bool :=
  finish t now job worker .stoppedBudget result (some error) cost

def markCancelled (t : JobTable) (now : Int) (job : JobId) (worker : String) (cost : Option ℚ) :
    JobTable × Bool := finish t now job worker .cancelled none (some "cancelled by admin") cost

def requeueRow (now : Int) (error : String) (delay : Int) (cost : Option ℚ) (r : JobRow) :
    JobRow where
  __ := r
  status := .queued
  error := some error
  costUsd := r.newCost cost
  runAfter := now + secs delay
  lockedBy := none
  lockedUntil := none
  updatedAt := now
  attemptsChk := r.attemptsChk
  leaseChk := by simp

/-- The branch of `fail` that re-queues: decided on the caller's snapshot. -/
def Job.retries (job : Job) (retryable : Bool) : Bool :=
  retryable && decide (job.attempt < job.maxAttempts)

/-- Re-queues with backoff while attempts remain, else fails.  The new status,
`none` when the job was no longer the worker's. -/
def fail (t : JobTable) (now : Int) (job : Job) (worker : String) (error : String)
    (retryable : Bool) (cost : Option ℚ) (result : Option Json) (rand : ℚ) :
    JobTable × Option Status :=
  if job.retries retryable then
    (t.update (guardOwned job.id worker)
        (fun _ r => requeueRow now error (backoffSeconds job.attempt rand) cost r),
      if owns t job.id worker then some .queued else none)
  else
    let (t', ok) := finish t now job.id worker .failed result (some error) cost
    (t', if ok then some .failed else none)

/-! ## release -/

def maxReleases : Int := 3
def releaseLogKeep : Nat := 20

/-- The array under `release_log`, empty when the value is no array. -/
def releaseLog (progress : JObj) : List Json :=
  match progress.at? "release_log" with
  | some (.arr l) => l
  | _ => []

/-- The last `RELEASE_LOG_KEEP` entries. -/
def keepNewest (log : List Json) : List Json := log.drop (log.length - releaseLogKeep)

def releaseEntry (now : Int) (worker : String) (counted : Bool) : Json :=
  .obj [("at", timeJson now), ("counted", .bool counted), ("worker", .str worker)]

/-- The status a release gives the row. -/
def releaseStatus (cancelRequested counted : Bool) (releases : Int) : Status :=
  if cancelRequested then .cancelled
  else if counted && decide (maxReleases ≤ releases) then .failed
  else .queued

theorem releaseStatus_ne_running (c counted : Bool) (n : Int) : releaseStatus c counted n ≠ .running := by
  unfold releaseStatus
  split
  · simp
  · split <;> simp

/-- The released row; `releases` and `shutdown` are the two counters read from
`progress` as the statement computes them. -/
def releaseRow (now : Int) (worker : String) (cost : Option ℚ) (counted : Bool) (delay : Int)
    (releases shutdown : Int) (r : JobRow) : JobRow where
  __ := r
  status := releaseStatus r.cancelRequested counted releases
  attempt := max (r.attempt - 1) 0
  error :=
    if r.cancelRequested then some "cancelled by admin"
    else if counted && decide (maxReleases ≤ releases) then
      some ("stopped mid-run " ++ toString releases ++
        " times (the worker process keeps stopping while this job runs)")
    else r.error
  finishedAt :=
    if r.cancelRequested || (counted && decide (maxReleases ≤ releases)) then some now
    else r.finishedAt
  costUsd := r.newCost cost
  runAfter := now + secs delay
  lockedBy := none
  lockedUntil := none
  updatedAt := now
  progress := r.progress.merge
    [("released", .bool true), ("releases", .num releases 0), ("last_released_at", timeJson now),
      ("shutdown_releases", .num (shutdown + 1) 0),
      ("release_log", .arr (keepNewest (releaseLog r.progress ++ [releaseEntry now worker counted])))]
  attemptsChk := ⟨le_max_right _ _, r.attemptsChk.2⟩
  leaseChk := fun h => absurd h (releaseStatus_ne_running _ _ _)

/-- The counters of `progress` a release reads; `none` when a cast raises. -/
def releaseCounters (counted : Bool) (progress : JObj) : Option (Int × Int) :=
  match progress.intAt "releases" 0, progress.intAt "shutdown_releases" 0 with
  | some n, some m => some (n + (if counted then 1 else 0), m)
  | _, _ => none

/-- Graceful shutdown: the row goes back to the queue and the interrupted
attempt is not counted.  The new status; the inner `none` is a row no longer
the worker's, the outer one a counter that is no integer. -/
def release (t : JobTable) (now : Int) (job : JobId) (worker : String) (cost : Option ℚ)
    (countRelease : Bool) (delaySeconds : Int) : JobTable × Option (Option Status) :=
  match t.get? job with
  | none => (t, some none)
  | some r =>
    if r.ownedBy worker then
      match releaseCounters countRelease r.progress with
      | none => (t, none)
      | some (releases, shutdown) =>
        (t.update (fun k _ => k == job) (fun _ r =>
            releaseRow now worker cost countRelease (max delaySeconds 0) releases shutdown r),
          some (some (releaseStatus r.cancelRequested countRelease releases)))
    else (t, some none)

/-! ## reap -/

/-- The row's lease ended before `now`. -/
def JobRow.expired (r : JobRow) (now : Int) : Bool :=
  r.status == .running && match r.lockedUntil with
    | some u => decide (u < now)
    | none => false

/-- The rows of the first statement of `reap`. -/
def reapRequeues (now : Int) (_ : JobId) (r : JobRow) : Bool :=
  r.expired now && decide (r.attempt < r.maxAttempts) && !r.cancelRequested

def reapRequeueRow (now : Int) (r : JobRow) : JobRow where
  __ := r
  status := .queued
  runAfter := now
  lockedBy := none
  lockedUntil := none
  updatedAt := now
  error := some "lease expired (worker stopped); re-queued"
  attemptsChk := r.attemptsChk
  leaseChk := by simp

/-- The first statement of `reap`. -/
def reapRequeue (t : JobTable) (now : Int) : JobTable × List JobId :=
  (t.update (reapRequeues now) (fun _ r => reapRequeueRow now r), t.matching (reapRequeues now))

/-- The rows of the second statement of `reap`. -/
def reapFails (now : Int) (_ : JobId) (r : JobRow) : Bool := r.expired now

def reapFailStatus (cancelRequested : Bool) : Status := if cancelRequested then .cancelled else .failed

def reapFailRow (now : Int) (r : JobRow) : JobRow where
  __ := r
  status := reapFailStatus r.cancelRequested
  error := some (if r.cancelRequested then "cancelled by admin"
    else "lease expired (worker stopped); no attempts left")
  lockedBy := none
  lockedUntil := none
  finishedAt := some now
  updatedAt := now
  attemptsChk := r.attemptsChk
  leaseChk := by unfold reapFailStatus; split <;> simp

/-- The second statement of `reap`. -/
def reapFail (t : JobTable) (now : Int) : JobTable × List JobId :=
  (t.update (reapFails now) (fun _ r => reapFailRow now r), t.matching (reapFails now))

/-! ## The admin's calls -/

/-- The statuses `request_cancel` ends at once. -/
def Status.cancelsAtOnce : Status → Bool
  | .queued => true
  | .stoppedBudget => true
  | _ => false

def requestCancelRow (now : Int) (r : JobRow) : JobRow where
  __ := r
  status := if r.status.cancelsAtOnce then .cancelled else r.status
  finishedAt := if r.status = .queued then some now else r.finishedAt
  error := if r.status.cancelsAtOnce then some "cancelled by admin" else r.error
  cancelRequested := true
  updatedAt := now
  attemptsChk := r.attemptsChk
  leaseChk := by
    intro h
    split at h
    · cases h
    · exact r.leaseChk h

def cancellable (job k : JobId) (r : JobRow) : Bool :=
  k == job && (r.status == .queued || r.status == .running || r.status == .stoppedBudget)

/-- The status after the call, `none` when the row was in none of the three. -/
def requestCancel (t : JobTable) (now : Int) (job : JobId) : JobTable × Option Status :=
  (t.update (cancellable job) (fun _ r => requestCancelRow now r),
    match t.get? job with
    | some r => if cancellable job job r then some (requestCancelRow now r).status else none
    | none => none)

def retiredRow (now : Int) (why : String) (r : JobRow) : JobRow where
  __ := r
  status := .cancelled
  error := some ("kind removed (" ++ why ++ ")")
  lockedBy := none
  lockedUntil := none
  finishedAt := some now
  updatedAt := now
  attemptsChk := r.attemptsChk
  leaseChk := by simp

def retires (retired : List (String × String)) (_ : JobId) (r : JobRow) : Bool :=
  (retired.lookup r.kind).isSome && (r.status == .queued || r.status == .running)

/-- Cancels every queued and running row of the retired kinds; how many. -/
def cancelRetiredKinds (t : JobTable) (now : Int) (retired : List (String × String)) :
    JobTable × Nat :=
  (t.update (retires retired)
      (fun _ r => retiredRow now ((retired.lookup r.kind).getD "") r),
    t.count (retires retired))

def retryRow (now : Int) (delay : Int) (r : JobRow) : JobRow where
  __ := r
  status := .queued
  attempt := 0
  runAfter := now + secs delay
  error := none
  cancelRequested := false
  finishedAt := none
  result := none
  updatedAt := now
  attemptsChk := ⟨le_refl _, r.attemptsChk.2⟩
  leaseChk := by simp

def retriable (job k : JobId) (r : JobRow) : Bool := k == job && r.status.unsuccessful

/-- A finished-unsuccessfully job gets a fresh set of attempts. -/
def retry (t : JobTable) (now : Int) (job : JobId) : JobTable × Bool :=
  (t.update (retriable job) (fun _ r => retryRow now 0 r),
    match t.get? job with
    | some r => retriable job job r
    | none => false)

/-- The guard of `_RETRY_ONE_SQL`. -/
def retriableOne (job : JobId) (status : Status) (k : JobId) (r : JobRow) : Bool :=
  k == job && r.status == status

/-- The statement of the bulk re-queue (`_RETRY_ONE_SQL`); `retry_by_reason`
calls it with `stopped_budget` or `failed`. -/
def retryOne (t : JobTable) (now : Int) (job : JobId) (delay : Int) (stopped : Bool) :
    JobTable × Bool :=
  let status := if stopped then Status.stoppedBudget else Status.failed
  (t.update (retriableOne job status) (fun _ r => retryRow now delay r),
    match t.get? job with
    | some r => retriableOne job status job r
    | none => false)

end CisApp.Jobs
