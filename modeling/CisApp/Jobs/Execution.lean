import CisApp.Jobs.Lifecycle

/-!
# Executions of a job

A claim starts an execution (`Worker._execute_job` with its `JobContext`), which
keeps the snapshot of the row it got and makes its calls with it and with the
worker's fixed `worker_id`.  The table does not know executions: a row only
holds the id of the worker.  So one job may have several executions at a time,
some of them of the same worker, and `Sys` is the table together with all
executions ever started.

`current k` is a history variable: the execution whose claim of row `k` is the
current one.  A claim sets it; a step that leaves the row not running (a reap, a
release, an end) clears it.  No operation reads it.
-/

namespace CisApp.Jobs

open Option

structure Exec where
  job : Job
  worker : String
  costUsd : ℚ
  handling : Bool
  /-- `_execute_job` may still make a call of the queue. -/
  live : Bool

/-- The execution a claim starts; `ctx.cost_usd` starts at the row's value. -/
def Exec.start (job : Job) (worker : String) : Exec where
  job := job
  worker := worker
  costUsd := job.costUsd
  handling := true
  live := true

/-- The calls `_execute_job` makes for its job. -/
inductive OutcomeCall where
  | heartbeat (leaseSeconds : Int)
  | complete (result : Option Json)
  | stopBudget (error : String) (result : Option Json)
  | markCancelled
  | fail (error : String) (retryable : Bool) (result : Option Json) (rand : ℚ)
  | noHandler
  | release (countRelease : Bool) (delaySeconds : Int)

/-- The statement a call issues.  `mark_cancelled` and `release` pass
`ctx.cost_usd` as it is, the other calls round it. -/
def Exec.op (e : Exec) (now : Int) : OutcomeCall → QueueOp
  | .heartbeat lease => .heartbeat now e.job.id e.worker lease
  | .complete result => .complete now e.job.id e.worker result (some (round6 e.costUsd))
  | .stopBudget error result =>
    .stopBudget now e.job.id e.worker error result (some (round6 e.costUsd))
  | .markCancelled => .markCancelled now e.job.id e.worker (some e.costUsd)
  | .fail error retryable result rand =>
    .fail now e.job e.worker error retryable (some (round6 e.costUsd)) result rand
  | .noHandler =>
    .fail now e.job e.worker ("no handler for kind '" ++ e.job.kind ++ "'") false none none 0
  | .release counted delay => .release now e.job.id e.worker (some e.costUsd) counted delay

/-- The heartbeat runs beside the handler, and a heartbeat that raises leads to
`fail`; every other call waits for the handler first. -/
def OutcomeCall.besideHandler : OutcomeCall → Bool
  | .heartbeat _ => true
  | .fail .. => true
  | _ => false

def Exec.enabled (e : Exec) (c : OutcomeCall) : Bool := e.live && (c.besideHandler || !e.handling)

/-- The call is the last of its execution.  A `complete` need not be: when it
raises, or a shutdown interrupts it, `fail` or `release` follows. -/
def OutcomeCall.isLast (owned : Bool) : OutcomeCall → Bool
  | .heartbeat _ => !owned
  | .complete _ => false
  | _ => true

/-- The operations of enqueuers, reapers and admins. -/
def QueueOp.ambient : QueueOp → Bool
  | .enqueue .. => true
  | .reapRequeue _ => true
  | .reapFail _ => true
  | .requestCancel .. => true
  | .cancelRetiredKinds .. => true
  | .retry .. => true
  | .retryOne .. => true
  | _ => false

inductive SysOp where
  | claim (now : Int) (worker : String) (caps : List (String × Int)) (leaseSeconds : Int)
      (locked : List JobId)
  | outcome (now : Int) (i : Nat) (c : OutcomeCall)
  | progress (now : Int) (i : Nat) (fields : JObj)
  | addCost (i : Nat) (usd : ℚ)
  | handlerEnds (i : Nat)
  | leave (i : Nat)
  | other (op : QueueOp) (h : op.ambient = true)

def SysOp.enqueueRewrite (maxAttempts : Int) : SysOp :=
  .other (.enqueue 0 7 "s1_rewrite" [] none maxAttempts none none none) rfl

def SysOp.reapLapsed (now : Int) : SysOp := .other (.reapRequeue now) rfl

structure Sys where
  table : JobTable
  execs : List Exec
  current : JobId → Option Nat

def Sys.init : Sys := ⟨Table.empty, [], fun _ => none⟩

def isRunning (t : JobTable) (k : JobId) : Bool := (t.get? k).any fun r => r.status == .running

/-- One statement other than a claim. -/
def Sys.issue (s : Sys) (q : QueueOp) : Sys :=
  { s with
    table := step s.table q
    current := fun k => if isRunning (step s.table q) k then s.current k else none }

/-- A claim that took `job`. -/
def Sys.started (s : Sys) (t : JobTable) (job : Job) (worker : String) : Sys where
  table := t
  execs := s.execs ++ [.start job worker]
  current := fun k => if k = job.id then some s.execs.length else s.current k

def Sys.setExec (s : Sys) (i : Nat) (f : Exec → Exec) : Sys := { s with execs := s.execs.modify i f }

/-- One step of any party; a call of an execution that cannot make it does
nothing. -/
def sysStep (s : Sys) : SysOp → Sys
  | .claim now worker caps lease locked =>
    match claim s.table now worker caps lease locked with
    | (_, none) => s
    | (t, some job) => s.started t job worker
  | .outcome now i c =>
    match s.execs[i]? with
    | none => s
    | some e =>
      if e.enabled c then
        (s.issue (e.op now c)).setExec i fun e =>
          { e with live := !c.isLast (owns s.table e.job.id e.worker) }
      else s
  | .progress now i fields =>
    match s.execs[i]? with
    | none => s
    | some e =>
      if e.handling then s.issue (.setProgress now e.job.id fields (some (round6 e.costUsd))) else s
  | .addCost i usd =>
    s.setExec i fun e => if e.handling then { e with costUsd := e.costUsd + usd } else e
  | .handlerEnds i => s.setExec i fun e => { e with handling := false }
  | .leave i => s.setExec i fun e => { e with live := false }
  | .other op _ => s.issue op

/-- The statement a step issues. -/
def SysOp.issues (s : Sys) : SysOp → Option QueueOp
  | .claim now worker caps lease locked => some (.claim now worker caps lease locked)
  | .outcome now i c => (s.execs[i]?).bind fun e => if e.enabled c then some (e.op now c) else none
  | .progress now i fields => (s.execs[i]?).bind fun e =>
      if e.handling then some (.setProgress now e.job.id fields (some (round6 e.costUsd))) else none
  | .addCost .. => none
  | .handlerEnds _ => none
  | .leave _ => none
  | .other op _ => some op

/-! ## What a step of the system does -/

theorem sysStep_table (s : Sys) (op : SysOp) : (sysStep s op).table = ((op.issues s).map (step s.table)).getD s.table := by
  cases op with
  | claim now worker caps lease locked =>
    simp only [sysStep, SysOp.issues, map_some, getD_some, step, claim]
    cases claimable s.table now caps locked <;> rfl
  | outcome now i c =>
    simp only [sysStep, SysOp.issues]
    cases s.execs[i]? with
    | none => rfl
    | some e =>
      show _ = (Option.map (step s.table) (if e.enabled c then some (e.op now c) else none)).getD _
      dsimp only
      split <;> rfl
  | progress now i fields =>
    simp only [sysStep, SysOp.issues]
    cases s.execs[i]? with
    | none => rfl
    | some e =>
      show _ = (Option.map (step s.table) (if e.handling then _ else none)).getD _
      dsimp only
      split <;> rfl
  | addCost i usd => rfl
  | handlerEnds i => rfl
  | leave i => rfl
  | other op h => rfl

/-- All a step can do: take a job, issue one statement (and end a call of an
execution), or change an execution alone. -/
inductive Move (s : Sys) : SysOp → Sys → Prop
  | claim {now worker caps lease locked k r} (hc : claimable s.table now caps locked = some (k, r)) :
      Move s (.claim now worker caps lease locked)
        (s.started (step s.table (.claim now worker caps lease locked))
          (toJob k (claimRow now worker lease r)) worker)
  | outcome {now i c e} (he : s.execs[i]? = some e) (hen : e.enabled c = true) :
      Move s (.outcome now i c) ((s.issue (e.op now c)).setExec i fun e =>
        { e with live := !c.isLast (owns s.table e.job.id e.worker) })
  | progress {now i fields e} (he : s.execs[i]? = some e) (hh : e.handling = true) :
      Move s (.progress now i fields)
        (s.issue (.setProgress now e.job.id fields (some (round6 e.costUsd))))
  | addCost {i usd} : Move s (.addCost i usd)
      (s.setExec i fun e => if e.handling then { e with costUsd := e.costUsd + usd } else e)
  | handlerEnds {i} : Move s (.handlerEnds i) (s.setExec i fun e => { e with handling := false })
  | leave {i} : Move s (.leave i) (s.setExec i fun e => { e with live := false })
  | other {op h} : Move s (.other op h) (s.issue op)

variable {s : Sys}

theorem sysStep_claim {now : Int} {caps : List (String × Int)} {locked : List JobId}
    {k : JobId} {r : JobRow} (hc : claimable s.table now caps locked = some (k, r)) (worker : String) (lease : Int) :
    sysStep s (.claim now worker caps lease locked) = s.started (step s.table (.claim now worker caps lease locked))
        (toJob k (claimRow now worker lease r)) worker := by
  simp only [sysStep, step, claim, hc]

theorem sysStep_cases (s : Sys) (op : SysOp) : sysStep s op = s ∨ Move s op (sysStep s op) := by
  cases op with
  | claim now worker caps lease locked =>
    cases hc : claimable s.table now caps locked with
    | none =>
      left
      simp only [sysStep, claim, hc]
    | some x =>
      right
      rw [sysStep_claim hc]
      exact .claim hc
  | outcome now i c =>
    simp only [sysStep]
    cases he : s.execs[i]? with
    | none => exact Or.inl rfl
    | some e =>
      dsimp only
      by_cases hen : e.enabled c = true
      · rw [if_pos hen]
        exact Or.inr (.outcome he hen)
      · rw [if_neg hen]
        exact Or.inl rfl
  | progress now i fields =>
    simp only [sysStep]
    cases he : s.execs[i]? with
    | none => exact Or.inl rfl
    | some e =>
      dsimp only
      by_cases hh : e.handling = true
      · rw [if_pos hh]
        exact Or.inr (.progress he hh)
      · rw [if_neg hh]
        exact Or.inl rfl
  | addCost i usd => exact Or.inr .addCost
  | handlerEnds i => exact Or.inr .handlerEnds
  | leave i => exact Or.inr .leave
  | other op h => exact Or.inr .other

variable {c : OutcomeCall} {q : QueueOp}

theorem issues_outcome {now : Int} {i : Nat} (h : SysOp.issues s (.outcome now i c) = some q) :
    ∃ e, s.execs[i]? = some e ∧ e.enabled c = true ∧ q = e.op now c := by
  cases he : s.execs[i]? with
  | none => simp [SysOp.issues, he] at h
  | some e =>
    simp only [SysOp.issues, he, bind_some, ite_none_right_eq_some, Option.some.injEq] at h
    exact ⟨e, rfl, h.1, h.2.symm⟩

theorem issues_progress {now : Int} {i : Nat} {fields : JObj} (h : SysOp.issues s (.progress now i fields) = some q) :
    ∃ e, s.execs[i]? = some e ∧ e.handling = true ∧ q = .setProgress now e.job.id fields (some (round6 e.costUsd)) := by
  cases he : s.execs[i]? with
  | none => simp [SysOp.issues, he] at h
  | some e =>
    simp only [SysOp.issues, he, bind_some, ite_none_right_eq_some, Option.some.injEq] at h
    exact ⟨e, rfl, h.1, h.2.symm⟩

variable {e : Exec}

theorem Exec.live_of_enabled (h : e.enabled c = true) : e.live = true := by
  simp only [Exec.enabled, Bool.and_eq_true] at h
  exact h.1

variable {r' : JobRow}

theorem Exec.op_touch {now : Int} {t : JobTable} {k : JobId} {r : JobRow} (h : Touch t k r (e.op now c) r') :
    k = e.job.id ∧ r.ownedBy e.worker = true := by
  cases c with
  | heartbeat lease => cases h with | heartbeat ho => exact ⟨rfl, ho⟩
  | complete result => cases h with | complete ho => exact ⟨rfl, ho⟩
  | stopBudget error result => cases h with | stopBudget ho => exact ⟨rfl, ho⟩
  | markCancelled => cases h with | markCancelled ho => exact ⟨rfl, ho⟩
  | fail error retryable result rand =>
    cases h with
    | failRequeue hid ho hr => exact ⟨hid, ho⟩
    | failEnd hid ho hr => exact ⟨hid, ho⟩
  | noHandler =>
    cases h with
    | failRequeue hid ho hr => exact ⟨hid, ho⟩
    | failEnd hid ho hr => exact ⟨hid, ho⟩
  | release counted delay => cases h with | release ho hc => exact ⟨rfl, ho⟩

theorem Exec.op_ne_claim {now : Int} (now' : Int) (worker : String)
    (caps : List (String × Int)) (lease : Int) (locked : List JobId) :
    e.op now c ≠ .claim now' worker caps lease locked := by
  cases c <;> simp [Exec.op]

theorem QueueOp.ambient_ne_claim (h : q.ambient = true) (now : Int) (worker : String)
    (caps : List (String × Int)) (lease : Int) (locked : List JobId) : q ≠ .claim now worker caps lease locked := by
  rintro rfl
  cases h

theorem Touch.stays {t : JobTable} {k : JobId} {r : JobRow} {op : QueueOp}
    (h : Touch t k r op r') (hs : r'.status = .running)
    (hop : ∀ now worker caps lease locked, op ≠ .claim now worker caps lease locked) :
    r.status = .running ∧ r'.lockedBy = r.lockedBy ∧ r'.attempt = r.attempt := by
  have hrun : r.status = .running := by
    rcases h.running hs with hr | ⟨_, _, _, _, _, he, -⟩
    · exact hr
    · exact absurd he (hop _ _ _ _ _)
  cases h with
  | claim h => exact absurd rfl (hop _ _ _ _ _)
  | heartbeat h => exact ⟨hrun, rfl, rfl⟩
  | setProgress => exact ⟨hrun, rfl, rfl⟩
  | requestCancel h => exact ⟨hrun, rfl, rfl⟩
  | release h hc => exact absurd hs (releaseStatus_ne_running _ _ _)
  | reapFail h =>
    have hne : reapFailStatus r.cancelRequested ≠ .running := by
      unfold reapFailStatus
      split <;> simp
    exact absurd hs hne
  | complete h => cases hs
  | stopBudget h => cases hs
  | markCancelled h => cases hs
  | failRequeue hid h hret => cases hs
  | failEnd hid h hret => cases hs
  | reapRequeue h => cases hs
  | retired h => cases hs
  | retry h => cases hs
  | retryOne h => cases hs

theorem isRunning_iff {t : JobTable} {k : JobId} : isRunning t k = true ↔ ∃ r, t.get? k = some r ∧ r.status = .running := by
  unfold isRunning
  cases t.get? k <;> simp

theorem step_stays {t : JobTable} {k : JobId} (hr' : (step t q).get? k = some r') (hs : r'.status = .running)
    (hq : ∀ now worker caps lease locked, q ≠ .claim now worker caps lease locked) :
    ∃ r, t.get? k = some r ∧ r.status = .running ∧ r'.lockedBy = r.lockedBy ∧ r'.attempt = r.attempt := by
  rcases step_cases hr' with ⟨r, hr, rfl | ht⟩ | hi
  · exact ⟨r', hr, hs, rfl, rfl⟩
  · exact ⟨r, hr, ht.stays hs hq⟩
  · cases hi with
    | enqueue => cases hs

theorem issue_current {k : JobId} (hr' : (step s.table q).get? k = some r') (hs : r'.status = .running) :
    (s.issue q).current k = s.current k := by
  have hrun : isRunning (step s.table q) k = true := isRunning_iff.2 ⟨r', hr', hs⟩
  show (if isRunning (step s.table q) k then s.current k else none) = s.current k
  rw [if_pos hrun]

/-! ## What a claim does -/

section Claim

variable {t : JobTable} {now : Int} {caps : List (String × Int)} {locked : List JobId} {k : JobId}
  {r : JobRow} {worker : String} {lease : Int}

theorem claim_row (hc : claimable t now caps locked = some (k, r)) :
    (step t (.claim now worker caps lease locked)).get? k = some (claimRow now worker lease r) :=
  step_touch (claimable_spec hc).1 (.claim hc)

theorem claim_keeps (hc : claimable t now caps locked = some (k, r)) {k' : JobId} {r' : JobRow}
    (hr' : (step t (.claim now worker caps lease locked)).get? k' = some r') (hne : k' ≠ k) : t.get? k' = some r' := by
  rcases step_cases hr' with ⟨r₀, hr₀, rfl | ht⟩ | hi
  · exact hr₀
  · cases ht with
    | claim hc' =>
      rw [hc] at hc'
      cases hc'
      exact absurd rfl hne
  · cases hi

theorem claim_owner (hc : claimable t now caps locked = some (k, r)) {r' : JobRow} {w : String}
    (hr' : (step t (.claim now worker caps lease locked)).get? k = some r') (ho : r'.ownedBy w = true) : w = worker := by
  rw [claim_row hc] at hr'
  obtain rfl := Option.some.inj hr'
  exact (Option.some.inj (ownedBy_iff.1 ho).2).symm

end Claim

theorem setExec_execs {i j : Nat} {f : Exec → Exec} {e' : Exec} (h : (s.setExec i f).execs[j]? = some e') :
    ∃ e, s.execs[j]? = some e ∧ ((i = j ∧ e' = f e) ∨ e' = e) := by
  have hm : (s.execs.modify i f)[j]? = some e' := h
  rw [List.getElem?_modify] at hm
  cases he : s.execs[j]? with
  | none =>
    rw [he] at hm
    cases hm
  | some e =>
    rw [he] at hm
    refine ⟨e, rfl, ?_⟩
    split at hm
    · next hij => exact Or.inl ⟨hij, (Option.some.inj hm).symm⟩
    · exact Or.inr (Option.some.inj hm).symm

theorem started_execs {t : JobTable} {job : Job} {worker : String} {j : Nat}
    (h : (s.started t job worker).execs[j]? = some e) :
    s.execs[j]? = some e ∨ (j = s.execs.length ∧ e = .start job worker) := by
  have ha : (s.execs ++ [Exec.start job worker])[j]? = some e := h
  rcases Nat.lt_trichotomy j s.execs.length with hlt | heq | hgt
  · rw [List.getElem?_append_left hlt] at ha
    exact Or.inl ha
  · subst heq
    rw [List.getElem?_concat_length] at ha
    exact Or.inr ⟨rfl, (Option.some.inj ha).symm⟩
  · rw [List.getElem?_eq_none (by simp; omega)] at ha
    cases ha

theorem execs_started (h : e ∈ s.execs) (t : JobTable) (job : Job) (worker : String) :
    ∃ i, i < s.execs.length ∧ (s.started t job worker).execs[i]? = some e := by
  obtain ⟨i, hi, he⟩ := List.mem_iff_getElem.1 h
  refine ⟨i, hi, ?_⟩
  show (s.execs ++ [Exec.start job worker])[i]? = some e
  rw [List.getElem?_append_left hi, List.getElem?_eq_getElem hi, he]

theorem Touch.maxAttempts_eq {t : JobTable} {k : JobId} {r : JobRow} {op : QueueOp}
    (h : Touch t k r op r') : r'.maxAttempts = r.maxAttempts := by
  cases h <;> rfl

end CisApp.Jobs
