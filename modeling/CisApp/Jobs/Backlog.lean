import CisApp.Jobs.Cap
import CisApp.Lib.GroupBy

/-!
# The backlog metric (`shared/jobs/backlog.py`)

`backlogSample` decides from samples of the queue, of the running rows and of `shared.job_worker` which due kinds
are starved.  Its rule for a kind that a live worker should have taken is written in Python, next to the worker's
own loop and the SQL of `claim`.  `starved_iff_would_claim` says that the two agree: as long as every live
worker runs what the table says it runs, the sample calls a kind claimable exactly when some worker that does not yield
has a free slot and its next claim finds an eligible row of that kind.

The functions of the source come first, then what the worker's side reads (`WouldClaim`).
-/

namespace CisApp.Jobs

open Lib List

/-! ## Workers -/

def workerAliveSeconds : Int := 60
def newerWorkerSeconds : Int := 45

/-- A row of `shared.job_worker`. -/
structure WorkerRow where
  startedAt : Int
  lastSeenAt : Int
  stoppedAt : Option Int
  maxParallel : Int
  caps : List (String × Int)
  taskRevision : Option Int
deriving Repr, DecidableEq

def WorkerRow.seenWithin (w : WorkerRow) (now seconds : Int) : Bool :=
  w.stoppedAt.isNone && decide (now - secs seconds < w.lastSeenAt)

/-- `task_revision > $1`; an unknown revision is not. -/
def newerThan (revision : Option Int) (rev : Int) : Bool := revision.any (rev < ·)

/-- A live worker of a newer task revision runs; an unknown revision never yields. -/
def newerWorkerAlive (workers : Table String WorkerRow) (now : Int) (taskRevision : Option Int) : Bool :=
  match taskRevision with
  | none => false
  | some rev => workers.rows.any fun o =>
      o.2.seenWithin now newerWorkerSeconds && newerThan o.2.taskRevision rev

structure KindInfo where
  background : Bool
  expectedSeconds : Option Int
deriving Repr, DecidableEq

/-- The registry (`kinds()`). -/
abbrev Kinds := Table String KindInfo

def backgroundKinds (kinds : Kinds) : List String := kinds.matching fun _ k => k.background

/-! ## The samples -/

/-- A row of `QUEUED_DUE_SQL`. -/
structure QueuedKind where
  kind : String
  n : Nat
  oldestRunAfter : Option Int
deriving Repr, DecidableEq

/-- A row of `RUNNING_SQL`. -/
structure RunningJob where
  id : JobId
  kind : String
  lockedBy : Option String
  startedAt : Option Int
  attemptStartedAt : Option Json

/-- A row of `WORKERS_SQL`. -/
structure WorkerSample where
  workerId : String
  row : WorkerRow
  alive : Bool
  fresh : Bool
deriving Repr, DecidableEq

def isDue (now : Int) (r : JobRow) : Bool :=
  r.status == .queued && decide (r.runAfter ≤ now) && !r.cancelRequested

def dueRows (t : JobTable) (now : Int) : List JobRow := (t.rows.map Prod.snd).filter (isDue now)

def queuedDue (t : JobTable) (now : Int) : List QueuedKind :=
  (GroupBy.groups (·.kind) (dueRows t now)).map fun kind =>
    let rows := (dueRows t now).filter fun r => r.kind = kind
    ⟨kind, rows.length, (rows.map (·.runAfter)).min?⟩

def runningJobs (t : JobTable) : List RunningJob :=
  (t.rows.filter fun x => x.2.status == .running).map fun x =>
    ⟨x.1, x.2.kind, x.2.lockedBy, x.2.startedAt, x.2.progress.at? "attempt_started_at"⟩

def workerSamples (workers : Table String WorkerRow) (now : Int) : List WorkerSample :=
  workers.rows.map fun w =>
    ⟨w.1, w.2, w.2.seenWithin now workerAliveSeconds, w.2.seenWithin now newerWorkerSeconds⟩

/-- `greatest(max(finished_at), max(updated_at) of the re-queued rows)`. -/
def lastFreedAt (t : JobTable) : Option Int :=
  (t.rows.filterMap (fun x => x.2.finishedAt) ++
    (t.rows.filter fun x => x.2.status == .queued && decide (0 < x.2.attempt)).map fun x => x.2.updatedAt).max?

/-! ## backlog_sample -/

def defaultExpectedSeconds : Int := 600
def overdueFactor : Int := 2

/-- Microseconds since `since`, never negative. -/
def age (now : Int) (since : Option Int) : Int :=
  match since with
  | none => 0
  | some t => max 0 (now - t)

def roundSeconds (micros : Int) : Int := roundHalfEven (micros / 1000000 : ℚ)

def latest (ts : List (Option Int)) : Option Int := (ts.filterMap id).max?

/-- The date that `claim` merged into `progress`. -/
def timeOf : Option Json → Option Int
  | some (.str s) => s.toInt?
  | _ => none

def attemptStarted (r : RunningJob) : Option Int := (timeOf r.attemptStartedAt).or r.startedAt

def expectedSeconds (kinds : Kinds) (kind : String) : Int :=
  (((kinds.get? kind).bind (·.expectedSeconds)).filter (· ≠ 0)).getD defaultExpectedSeconds

structure Overdue where
  id : JobId
  kind : String
  ageS : Int
  expectedS : Int
deriving Repr, DecidableEq

def overdueOf (kinds : Kinds) (now : Int) (r : RunningJob) : Option Overdue :=
  let a := age now (attemptStarted r)
  if overdueFactor * secs (expectedSeconds kinds r.kind) < a then
    some ⟨r.id, r.kind, roundSeconds a, expectedSeconds kinds r.kind⟩
  else none

def yielding (w : WorkerSample) (workers : List WorkerSample) : Bool :=
  match w.row.taskRevision with
  | none => false
  | some rev => workers.any fun o => o.fresh && newerThan o.row.taskRevision rev

inductive StarvedReason where
  | noLiveWorker
  | unregistered
  | claimable
deriving Repr, DecidableEq

structure Starved where
  reason : StarvedReason
  ready : Nat
  ageS : Int
deriving Repr, DecidableEq

/-- The caps a worker would pass to `claim` now, and when its capacity last freed; none without a free slot. -/
def claimerOf (running : List RunningJob) (workers : List WorkerSample) (background : List String)
    (lastFreed : Option Int) (w : WorkerSample) : Option (List (String × Int) × Option Int) :=
  if yielding w workers then none
  else
    let mine := running.filter fun r => r.lockedBy = some w.workerId
    let free := w.row.maxParallel - mine.length
    if free ≤ 0 then none
    else
      let runningBg := mine.countP fun r => background.contains r.kind
      some (claimCapsFor w.row.maxParallel w.row.caps free runningBg background,
        latest [lastFreed, some w.row.startedAt])

def runningOfKind (running : List RunningJob) (kind : String) : Int := running.countP fun r => r.kind = kind

/-- When each worker that would take the kind last had its capacity freed. -/
def freesOf (running : List RunningJob) (claimers : List (List (String × Int) × Option Int)) (kind : String) :
    List (Option Int) :=
  (claimers.filter fun c => (c.1.lookup kind).any fun cap => runningOfKind running kind < cap).map Prod.snd

/-- `min(frees, key=...)`: unknown is the earliest. -/
def earliest (frees : List (Option Int)) : Option Int :=
  if frees.contains none then none else (frees.filterMap id).min?

structure Sampled where
  queued : List QueuedKind
  running : List RunningJob
  workers : List WorkerSample
  kinds : Kinds
  now : Int
  lastFreed : Option Int
  held : List String

def Sampled.live (s : Sampled) : List WorkerSample := s.workers.filter (·.alive)

def Sampled.claimers (s : Sampled) : List (List (String × Int) × Option Int) :=
  s.live.filterMap (claimerOf s.running s.workers (backgroundKinds s.kinds) s.lastFreed)

/-- The entry of one queued kind. -/
def starvedOf (s : Sampled) (q : QueuedKind) : Option Starved :=
  let entry := fun reason since => some ⟨reason, q.n, roundSeconds (age s.now since)⟩
  if s.live.isEmpty then
    entry .noLiveWorker (latest [q.oldestRunAfter, latest (s.workers.map fun w => some w.row.lastSeenAt)])
  else if !(s.live.any fun w => (w.row.caps.lookup q.kind).isSome) then entry .unregistered q.oldestRunAfter
  else if s.held.contains q.kind then none
  else
    let frees := freesOf s.running s.claimers q.kind
    if frees.isEmpty then none else entry .claimable (latest [q.oldestRunAfter, earliest frees])

structure Sample where
  oldestQueuedAgeSeconds : Int
  overdueRunningJobs : Nat
  starved : List (String × Starved)
  overdue : List Overdue
  queuedDue : Nat
  running : Nat
  liveWorkers : Nat
  held : List String

def backlogSample (s : Sampled) : Sample :=
  let starved := s.queued.filterMap fun q => (starvedOf s q).map fun x => (q.kind, x)
  let overdue := s.running.filterMap (overdueOf s.kinds s.now)
  { oldestQueuedAgeSeconds := ((starved.map fun x => x.2.ageS).max?).getD 0
    overdueRunningJobs := overdue.length
    starved
    overdue := overdue.take 10
    queuedDue := (s.queued.map (·.n)).sum
    running := s.running.length
    liveWorkers := s.live.length
    held := ((s.held.filter fun k => s.queued.any fun q => q.kind = k).dedup).insertionSort (· ≤ ·) }

/-- `sample`: the four queries over one state of the tables. -/
def sampled (t : JobTable) (workers : Table String WorkerRow) (kinds : Kinds) (held : List String) (now : Int) :
    Sampled where
  queued := queuedDue t now
  running := runningJobs t
  workers := workerSamples workers now
  kinds := kinds
  now := now
  lastFreed := lastFreedAt t
  held := held

/-! ## The worker's side -/

/-- `Worker._running_kinds`: the jobs a worker process runs, with their kinds. -/
abbrev InProcess := Table JobId String

/-- The process runs exactly the running rows that are locked by it. -/
def InStep (t : JobTable) (worker : String) (running : InProcess) : Prop :=
  ∀ id kind, running.get? id = some kind ↔
    ∃ r, t.get? id = some r ∧ r.status = .running ∧ r.lockedBy = some worker ∧ r.kind = kind

/-- `Worker.claim_caps` in `_fill_slots`. -/
def workerClaimCaps (w : WorkerRow) (running : InProcess) (kinds : Kinds) : List (String × Int) :=
  claimCapsFor w.maxParallel w.caps (w.maxParallel - running.rows.length)
    (running.rows.countP fun x => (backgroundKinds kinds).contains x.2) (backgroundKinds kinds)

/-- A live worker that does not yield has a free slot, and its claim finds an eligible row of the kind. -/
def WouldClaim (t : JobTable) (workers : Table String WorkerRow) (process : String → InProcess) (kinds : Kinds)
    (now : Int) (kind : String) : Prop :=
  ∃ id w, workers.get? id = some w ∧ w.seenWithin now workerAliveSeconds = true ∧
    newerWorkerAlive workers now w.taskRevision = false ∧
    ((process id).rows.length : Int) < w.maxParallel ∧
    ∃ k r, t.get? k = some r ∧ r.kind = kind ∧
      eligible t now (workerClaimCaps w (process id) kinds) k r = true

/-! ## What the samples say of the tables -/

theorem runningOfKind_eq (t : JobTable) (kind : String) : runningOfKind (runningJobs t) kind = runningCount t kind := by
  unfold runningOfKind runningJobs runningCount Table.count isRunningOf
  rw [countP_map, countP_filter]
  rfl

/-- The running rows locked by a worker, with their kinds. -/
def lockedJobs (t : JobTable) (worker : String) : List (JobId × String) :=
  ((runningJobs t).filter fun r => r.lockedBy = some worker).map fun r => (r.id, r.kind)

variable {t : JobTable}

theorem mem_lockedJobs {worker : String} {x : JobId × String} : x ∈ lockedJobs t worker ↔
      ∃ r, t.get? x.1 = some r ∧ r.status = .running ∧ r.lockedBy = some worker ∧ r.kind = x.2 := by
  unfold lockedJobs runningJobs
  simp only [mem_map, mem_filter]
  constructor
  · rintro ⟨_, ⟨⟨⟨k, r⟩, ⟨hmem, hrun⟩, rfl⟩, hlock⟩, rfl⟩
    exact ⟨r, (Table.get?_eq_some_iff _ _ _).2 hmem, by simpa using hrun, of_decide_eq_true hlock, rfl⟩
  · rintro ⟨r, hr, hrun, hlock, hkind⟩
    refine ⟨_, ⟨⟨(x.1, r), ⟨(Table.get?_eq_some_iff _ _ _).1 hr, by simpa using hrun⟩, rfl⟩, decide_eq_true hlock⟩, ?_⟩
    exact Prod.ext rfl hkind

theorem nodup_lockedJobs (t : JobTable) (worker : String) : (lockedJobs t worker).Nodup := by
  refine List.Nodup.of_map Prod.fst ?_
  unfold lockedJobs runningJobs
  rw [map_map, filter_map, map_map]
  exact (t.nodup.sublist ((filter_sublist.trans filter_sublist).map Prod.fst))

theorem InStep.perm {worker : String} {running : InProcess} (h : InStep t worker running) :
    running.rows.Perm (lockedJobs t worker) := by
  rw [perm_ext_iff_of_nodup (List.Nodup.of_map Prod.fst running.nodup) (nodup_lockedJobs t worker)]
  intro x
  rw [mem_lockedJobs, ← h x.1 x.2, Table.get?_eq_some_iff]

theorem claimerOf_eq {workers : Table String WorkerRow} {kinds : Kinds} {now : Int} {id : String}
    {w : WorkerRow} {alive fresh : Bool} {running : InProcess} (h : InStep t id running) :
    claimerOf (runningJobs t) (workerSamples workers now) (backgroundKinds kinds) (lastFreedAt t) ⟨id, w, alive, fresh⟩ =
      if newerWorkerAlive workers now w.taskRevision = false ∧ (running.rows.length : Int) < w.maxParallel then
        some (workerClaimCaps w running kinds, latest [lastFreedAt t, some w.startedAt]) else none := by
  have hyield : yielding ⟨id, w, alive, fresh⟩ (workerSamples workers now) =
      newerWorkerAlive workers now w.taskRevision := by
    unfold yielding newerWorkerAlive workerSamples
    cases w.taskRevision with
    | none => rfl
    | some rev => exact any_map
  have hlength : ((runningJobs t).filter fun r => r.lockedBy = some id).length = running.rows.length := by
    rw [h.perm.length_eq]
    unfold lockedJobs
    rw [length_map]
  have hbackground : ((runningJobs t).filter fun r => r.lockedBy = some id).countP
      (fun r => (backgroundKinds kinds).contains r.kind) =
      running.rows.countP fun x => (backgroundKinds kinds).contains x.2 := by
    rw [h.perm.countP_eq]
    unfold lockedJobs
    rw [countP_map]
    rfl
  unfold claimerOf
  dsimp only
  rw [hyield, hlength, hbackground]
  cases newerWorkerAlive workers now w.taskRevision with
  | true => simp
  | false =>
    by_cases hfree : (running.rows.length : Int) < w.maxParallel
    · rw [if_neg (by simp), if_neg (by omega), if_pos ⟨rfl, hfree⟩]
      rfl
    · rw [if_neg (by simp), if_pos (by omega), if_neg fun hc => hfree hc.2]

theorem mem_queuedDue {now : Int} {kind : String} : (∃ q ∈ queuedDue t now, q.kind = kind) ↔
      ∃ k r, t.get? k = some r ∧ r.kind = kind ∧ isDue now r = true := by
  constructor
  · rintro ⟨q, hq, rfl⟩
    obtain ⟨kind, hkind, rfl⟩ := mem_map.1 hq
    obtain ⟨r, hr, rfl⟩ := mem_map.1 (mem_dedup.1 hkind)
    obtain ⟨hr, hdue⟩ := mem_filter.1 hr
    obtain ⟨x, hx, rfl⟩ := mem_map.1 hr
    exact ⟨x.1, x.2, (Table.get?_eq_some_iff _ _ _).2 hx, rfl, hdue⟩
  · rintro ⟨k, r, hr, rfl, hdue⟩
    have hmem : r ∈ (t.rows.map Prod.snd).filter (isDue now) :=
      mem_filter.2 ⟨mem_map.2 ⟨(k, r), (Table.get?_eq_some_iff _ _ _).1 hr, rfl⟩, hdue⟩
    exact ⟨_, mem_map.2 ⟨r.kind, mem_dedup.2 (mem_map.2 ⟨r, hmem, rfl⟩), rfl⟩, rfl⟩

theorem eligible_iff_due {now : Int} {caps : List (String × Int)} {k : JobId} {r : JobRow} :
    eligible t now caps k r = true ↔
      isDue now r = true ∧ ∃ cap, caps.lookup r.kind = some cap ∧ (runningCount t r.kind : Int) < cap := by
  rw [eligible_iff]
  unfold isDue
  simp [and_assoc]

/-! ## The two rules -/

theorem starvedOf_claimable {s : Sampled} {q : QueuedKind} : (∃ x, starvedOf s q = some x ∧ x.reason = .claimable) ↔
      s.live.any (fun w => (w.row.caps.lookup q.kind).isSome) = true ∧ q.kind ∉ s.held ∧
        ∃ c ∈ s.claimers, ∃ cap, c.1.lookup q.kind = some cap ∧ runningOfKind s.running q.kind < cap := by
  have hfrees : (freesOf s.running s.claimers q.kind).isEmpty = true ↔
      ¬ ∃ c ∈ s.claimers, ∃ cap, c.1.lookup q.kind = some cap ∧ runningOfKind s.running q.kind < cap := by
    unfold freesOf
    rw [List.isEmpty_iff, map_eq_nil_iff, filter_eq_nil_iff]
    simp only [Option.any_eq_true, decide_eq_true_eq, not_exists, not_and]
  unfold starvedOf
  by_cases hempty : s.live.isEmpty = true
  · rw [if_pos hempty, List.isEmpty_iff.1 hempty]
    simp
  · rw [if_neg hempty]
    by_cases hreg : s.live.any (fun w => (w.row.caps.lookup q.kind).isSome) = true
    · by_cases hheld : q.kind ∈ s.held
      · simp [hheld]
      · by_cases hroom : (freesOf s.running s.claimers q.kind).isEmpty = true
        · rw [if_pos hroom]
          simp [hfrees.1 hroom]
        · rw [if_neg hroom]
          have := not_not.1 fun h => hroom (hfrees.2 h)
          simp [hreg, hheld, this]
    · simp [hreg]

/-- **The metric agrees with the queue.**  While each live worker runs the rows locked by it, a kind is reported as
claimable exactly when it is not held and some worker would claim a row of it now. -/
theorem starved_iff_would_claim (t : JobTable) (workers : Table String WorkerRow) (process : String → InProcess)
    (kinds : Kinds) (held : List String) (now : Int) (kind : String)
    (hprocess : ∀ id w, workers.get? id = some w → w.seenWithin now workerAliveSeconds = true →
      InStep t id (process id)) :
    (∃ x, (kind, x) ∈ (backlogSample (sampled t workers kinds held now)).starved ∧ x.reason = .claimable) ↔
      kind ∉ held ∧ WouldClaim t workers process kinds now kind := by
  have hentry : (∃ x, (kind, x) ∈ (backlogSample (sampled t workers kinds held now)).starved ∧
      x.reason = .claimable) ↔
      ∃ q ∈ queuedDue t now, q.kind = kind ∧
        ∃ x, starvedOf (sampled t workers kinds held now) q = some x ∧ x.reason = .claimable := by
    unfold backlogSample
    simp only [mem_filterMap, Option.map_eq_some_iff, Prod.mk.injEq]
    constructor
    · rintro ⟨x, ⟨q, hq, x', hx, hkind, rfl⟩, hreason⟩
      exact ⟨q, hq, hkind, x', hx, hreason⟩
    · rintro ⟨q, hq, hkind, x, hx, hreason⟩
      exact ⟨x, ⟨q, hq, x, hx, hkind, rfl⟩, hreason⟩
  have hlive : ∀ w, w ∈ (sampled t workers kinds held now).live ↔
      ∃ id row, workers.get? id = some row ∧ row.seenWithin now workerAliveSeconds = true ∧
        w = ⟨id, row, true, row.seenWithin now newerWorkerSeconds⟩ := by
    intro w
    unfold Sampled.live sampled workerSamples
    simp only [mem_filter, mem_map]
    constructor
    · rintro ⟨⟨⟨id, row⟩, hrow, rfl⟩, halive⟩
      refine ⟨id, row, (Table.get?_eq_some_iff _ _ _).2 hrow, halive, ?_⟩
      exact congrArg (fun b => WorkerSample.mk id row b (row.seenWithin now newerWorkerSeconds)) halive
    · rintro ⟨id, row, hrow, halive, rfl⟩
      refine ⟨⟨(id, row), (Table.get?_eq_some_iff _ _ _).1 hrow, ?_⟩, rfl⟩
      exact congrArg (fun b => WorkerSample.mk id row b (row.seenWithin now newerWorkerSeconds)) halive
  rw [hentry]
  constructor
  · rintro ⟨q, hq, rfl, hstarved⟩
    obtain ⟨-, hheld, c, hc, cap, hcap, hlt⟩ := starvedOf_claimable.1 hstarved
    obtain ⟨w, hw, hclaimer⟩ := List.mem_filterMap.1 hc
    obtain ⟨id, row, hrow, halive, rfl⟩ := (hlive w).1 hw
    obtain ⟨k, r, hr, hkind, hdue⟩ := mem_queuedDue.1 ⟨q, hq, rfl⟩
    have hstep := hprocess id row hrow halive
    rw [show (sampled t workers kinds held now).running = runningJobs t from rfl, runningOfKind_eq] at hlt
    have hcaps := (@claimerOf_eq t workers kinds now id row _ _ _ hstep).symm.trans hclaimer
    split at hcaps
    · next hfree =>
      obtain rfl := Option.some.inj hcaps
      refine ⟨hheld, id, row, hrow, halive, hfree.1, hfree.2, k, r, hr, hkind, ?_⟩
      exact eligible_iff_due.2 ⟨hdue, cap, hkind ▸ hcap, hkind ▸ hlt⟩
    · cases hcaps
  · rintro ⟨hheld, id, row, hrow, halive, hnewer, hfree, k, r, hr, rfl, heligible⟩
    obtain ⟨hdue, cap, hcap, hlt⟩ := eligible_iff_due.1 heligible
    obtain ⟨q, hq, hqkind⟩ := mem_queuedDue.2 ⟨k, r, hr, rfl, hdue⟩
    have hstep := hprocess id row hrow halive
    have hw := (hlive _).2 ⟨id, row, hrow, halive, rfl⟩
    refine ⟨q, hq, hqkind, starvedOf_claimable.2 ⟨?_, hqkind ▸ hheld, ?_⟩⟩
    · rw [any_eq_true]
      refine ⟨_, hw, ?_⟩
      rw [hqkind, claimCapsFor_lookup hcap]
      rfl
    · refine ⟨(workerClaimCaps row (process id) kinds, latest [lastFreedAt t, some row.startedAt]),
        List.mem_filterMap.2 ⟨_, hw, ?_⟩, cap, hqkind ▸ hcap, ?_⟩
      · exact (claimerOf_eq hstep).trans (if_pos ⟨hnewer, hfree⟩)
      · rw [show (sampled t workers kinds held now).running = runningJobs t from rfl, runningOfKind_eq, hqkind]
        exact hlt

/-- One due job, and one worker that runs nothing. -/
theorem idle_worker_would_claim :
    let t : JobTable := Table.empty.insert 0 (newRow 0 "s1_rewrite" [] none 3 (by decide) none none none)
    let workers : Table String WorkerRow := Table.empty.insert "w1" ⟨0, 0, none, 8, [("s1_rewrite", 6)], none⟩
    WouldClaim t workers (fun _ => Table.empty) Table.empty 0 "s1_rewrite" := by
  intro t workers
  have hstep : ∀ id w, workers.get? id = some w → w.seenWithin 0 workerAliveSeconds = true →
      InStep t id (Table.empty : InProcess) := by
    intro id w _ _ job kind
    constructor
    · intro h
      cases h
    · rintro ⟨r, hr, hrun, -⟩
      rw [Table.get?_insert] at hr
      split at hr
      · obtain rfl := Option.some.inj hr
        cases hrun
      · cases hr
  refine ((starved_iff_would_claim t workers (fun _ => Table.empty) Table.empty [] 0 "s1_rewrite" hstep).1 ?_).2
  exact ⟨⟨.claimable, 1, 0⟩, by decide +kernel, rfl⟩

end CisApp.Jobs
