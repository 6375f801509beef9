import CisApp.Erasure.Job

/-!
# The executions of the `data_erasure` job

The executions of a whole history beside the queue's own writers.  An execution
starts when a worker claims a job; from then on it takes its steps (count, read
the DRY RUN, claim it, apply) whenever it is scheduled, whatever happens to its
lease meanwhile, and may stop at any of them.  Between two steps anything else
can happen: other executions, every operation of the queue, the terminal hook.
The writes of one transaction appear at once, at its commit.
-/

namespace CisApp.Erasure

open Jobs Lib Releases

variable {σ : Type}

/-- What the job computes from, and does to, the state outside `shared.job`. -/
structure World (σ : Type) where
  /-- PostgreSQL's `::uuid`. -/
  castUuid : String → Option JobId
  idText : JobId → Plain
  hash : Text → Text
  /-- `fingerprint` under the subject's key: the tenant id, or the hash with a salt. -/
  fingerprint : Subject → String → List CountRow → Plain
  tenantRow : σ → String → Option TenantRow
  /-- `count_tenant`: the rows and the blockers. -/
  countTenant : σ → JobTable → String → List CountRow × List Json
  s3Blockers : σ → String → List Json
  tenantReport : σ → JobTable → String → TenantReport
  found : σ → JobTable → String → TravellerScan → Option (Nat × List Plain)
  /-- `apply_tenant` and `apply_traveller` outside `shared.job`; `none` when a statement raises. -/
  eraseTenant : σ → String → List CountRow → Option (σ × List CountRow)
  eraseTraveller : σ → String → List CountRow → Option (σ × List CountRow)
  left : σ → JobTable → Subject → List (String × Nat)

/-- Where an execution stands. -/
inductive Phase where
  | started
  | readTenant (tenantRow : Option TenantRow)
  | counted (tenantRow : Option TenantRow) (c : Counted)
  | readDry (tenantRow : Option TenantRow) (c : Counted) (dry : Option JobRow)
  | claimed (c : Counted) (key : String)
  | applied (c : Counted) (key : String) (done : List CountRow)
  | returned (result : JObj)
  | raised

/-- One execution of a job.  `tookDry` and `committed` record what it did: its claim of the
DRY RUN went through, its apply transaction was committed. -/
structure Exec where
  job : JobId
  req : Request
  phase : Phase
  tookDry : Bool
  committed : Bool

/-- The audit row of an apply. -/
structure AuditEntry where
  job : JobId
  subject : Subject
  approval : Approval
  actor : Option Json
  totals : JObj

structure State (σ : Type) where
  jobs : JobTable
  rest : σ
  audit : List AuditEntry
  execs : List Exec

/-- The steps of an execution. -/
inductive Act where
  | readTenant
  | count
  | finishDry (now : Int) (env : Env) (salt : Plain)
  | readDry
  | claim (now : Int) (env : Env)
  | apply (now : Int) (env : Env)
  | finishApply (env : Env)

/-- One step of the history: the queue, an execution, a worker that stores what an execution
returned, or the hook of a job that ended without success. -/
inductive Op where
  | queue (op : QueueOp)
  | act (i : Nat) (a : Act)
  | store (i : Nat) (op : QueueOp)
  | terminal (now : Int) (job : JobId) (payload : JObj) (status : String)

namespace World

variable (W : World σ)

/-- The counting transaction of `run_erasure`. -/
def count (s : State σ) (subject : Subject) : Counted :=
  match subject with
  | .tenant tid =>
    let counted := W.countTenant s.rest s.jobs tid
    ⟨counted.1, counted.2 ++ W.s3Blockers s.rest tid, [], some (W.tenantReport s.rest s.jobs tid)⟩
  | .traveller h => ⟨travellerRows (W.found s.rest s.jobs h), [], skippedTables (W.found s.rest s.jobs h), none⟩

/-- The count inside the apply transaction, without the S3 references. -/
def recount (s : State σ) (subject : Subject) : Counted :=
  match subject with
  | .tenant tid =>
    let counted := W.countTenant s.rest s.jobs tid
    ⟨counted.1, counted.2, [], none⟩
  | .traveller h => ⟨travellerRows (W.found s.rest s.jobs h), [], [], none⟩

/-- `subject_key`, the salt of a traveller included. -/
def key (subject : Subject) (salt : String) : String :=
  match subject with
  | .tenant tid => tid
  | .traveller _ => salt

/-- The three redactions of job rows. -/
def redactAll (now : Int) (h : String) (protect : List String) (want : List CountRow) (t : JobTable) :
    Option JobTable := do
  let column := travellerWhere W.hash h.toList
  let t ← redactJobs W.idText protect (fun r => column (jsonText (.obj r.payload))) (redactPayload now)
    (expectedRows want "shared.job:payload" "redact") t
  let t ← redactJobs W.idText protect (fun r => column (r.result.bind jsonText)) (redactResult now)
    (expectedRows want "shared.job:result" "redact") t
  redactJobs W.idText protect (fun r => column (r.error.map String.toList)) (redactError now)
    (expectedRows want "shared.job:error" "redact") t

/-- What the apply transaction does to the tables, without its audit row; `none` when it raises. -/
def erase (s : State σ) (now : Int) (job : JobId) (a : Approval) (subject : Subject)
    (want : List CountRow) : Option (JobTable × σ × List CountRow) :=
  match subject with
  | .tenant tid => do
    let (rest, done) ← W.eraseTenant s.rest tid want
    if s.jobs.count (deletesJob tid) = expectedRows want "shared.job" "delete" then
      return (s.jobs.delete (deletesJob tid), rest, done)
    else none
  | .traveller h => do
    let (rest, done) ← W.eraseTraveller s.rest h want
    let t ← W.redactAll now h [(W.idText job).text, a.dryRunJobId] want s.jobs
    let dry ← W.castUuid a.dryRunJobId
    return (stripHash t now [job, dry] (some h) "stripped-after-apply", rest, done)

/-- `_apply` up to the commit; `none` when it raises and nothing is written. -/
def applyTx (s : State σ) (now : Int) (env : Env) (job : JobId) (req : Request) (a : Approval)
    (c : Counted) (key : String) : Option (JobTable × σ × List CountRow) :=
  let approved := lowered a.approvedFingerprint
  if (W.fingerprint req.subject key c.rows).text ≠ approved then none
  else if !c.blockers.isEmpty then none
  else
    let refused := match req.subject with
      | .tenant tid => !(tenantRefusals (W.tenantRow s.rest tid) now env).isEmpty
      | .traveller _ => false
    if refused then none
    else
      let again := W.recount s req.subject
      if (W.fingerprint req.subject key again.rows).text ≠ approved ∨ again.blockers ≠ [] then none
      else W.erase s now job a req.subject again.rows

def subjectRow (s : State σ) : Subject → Option TenantRow
  | .tenant tid => W.tenantRow s.rest tid
  | .traveller _ => none

/-- The state and the execution after one of its steps; a step that is not its next one does
nothing. -/
def perform (s : State σ) (e : Exec) (act : Act) : State σ × Exec :=
  match act, e.phase, e.req.mode with
  | .readTenant, .started, _ => (s, { e with phase := .readTenant (W.subjectRow s e.req.subject) })
  | .count, .readTenant row, _ => (s, { e with phase := .counted row (W.count s e.req.subject) })
  | .finishDry now env salt, .counted _ c, .dryRun verify =>
    let fp := W.fingerprint e.req.subject (key e.req.subject salt.text) c.rows
    let result := dryResult e.req.subject fp c env
    if verify then
      ({ s with jobs := stripHash s.jobs now [e.job] none "stripped-after-verify" },
        { e with phase := .returned (result ++ [("hash_stripped", .bool true)]) })
    else if e.req.subject.isTraveller then
      (s, { e with phase := .returned (result ++ [("subject_salt", .str salt.text)]) })
    else (s, { e with phase := .returned result })
  | .readDry, .counted row c, .apply a =>
    match W.castUuid a.dryRunJobId with
    | none => (s, { e with phase := .raised })
    | some dry => (s, { e with phase := .readDry row c (s.jobs.get? dry) })
  | .claim now env, .readDry row c dry, .apply a =>
    match applyRefusals e.req a dry row now env, W.castUuid a.dryRunJobId with
    | some [], some id =>
      let salt := pyText ((dry.bind fun r => resultFields r.result).bind fun o => o.at? "subject_salt")
      let claimed := claimDry s.jobs now id (W.idText e.job)
      ({ s with jobs := claimed.1 },
        if claimed.2 then { e with phase := .claimed c (key e.req.subject salt), tookDry := true }
        else { e with phase := .raised })
    | _, _ => (s, { e with phase := .raised })
  | .apply now env, .claimed c key, .apply a =>
    match W.applyTx s now env e.job e.req a c key with
    | none => (s, { e with phase := .raised })
    | some (jobs, rest, done) =>
      ({ s with
          jobs := jobs, rest := rest
          audit := s.audit ++ [⟨e.job, e.req.subject, a, e.req.actor, totals done⟩] },
        { e with phase := .applied c key done, committed := true })
  | .finishApply env, .applied c key done, _ =>
    let fp := W.fingerprint e.req.subject key c.rows
    (s, { e with
          phase := .returned (applyResult (dryResult e.req.subject fp c env) done
            (W.left s.rest s.jobs e.req.subject)) })
  | _, _, _ => (s, e)

end World

/-- The row of `job` is a `data_erasure` job. -/
def isErasure (t : JobTable) (job : JobId) : Bool :=
  match t.get? job with
  | some r => r.kind == erasureKind
  | none => false

def storesFor : QueueOp → Option JobId
  | .complete _ job _ (some _) _ => some job
  | .stopBudget _ job _ _ (some _) _ => some job
  | .fail _ job _ _ _ _ (some _) _ => some job.id
  | _ => none

/-- The operation with `result` for the job `job`; `none` when it ends another job, or none. -/
def storing (job : JobId) (result : Json) : QueueOp → Option QueueOp
  | .complete now j worker _ cost =>
    if j = job then some (.complete now j worker (some result) cost) else none
  | .stopBudget now j worker error _ cost =>
    if j = job then some (.stopBudget now j worker error (some result) cost) else none
  | .fail now j worker error retryable cost _ rand =>
    if j.id = job then some (.fail now j worker error retryable cost (some result) rand) else none
  | _ => none

/-- The execution a worker starts on the job it claimed: `validate_payload` comes first. -/
def started (job : Option Job) : List Exec :=
  match job with
  | none => []
  | some j =>
    if j.kind = erasureKind then
      match validatePayload j.payload with
      | .ok req => [⟨j.id, req, .started, false, false⟩]
      | .error _ => []
    else []

def refusedRetry (t : JobTable) : QueueOp → Bool
  | .retry _ job => (t.get? job).any retryRefused
  | .retryOne _ job _ _ => (t.get? job).any retryRefused
  | _ => false

/-- One operation of the queue.  The result of a `data_erasure` job is what its execution
returned: it is stored by `Op.store`. -/
def queueStep (s : State σ) (op : QueueOp) : State σ :=
  if refusedRetry s.jobs op || ((storesFor op).any fun job => isErasure s.jobs job) then s
  else
    match op with
    | .claim now worker caps lease locked =>
      let claimed := claim s.jobs now worker caps lease locked
      { s with jobs := claimed.1, execs := s.execs ++ started claimed.2 }
    | op => { s with jobs := step s.jobs op }

def State.step (W : World σ) (s : State σ) : Op → State σ
  | .queue op => queueStep s op
  | .act i a =>
    match s.execs[i]? with
    | none => s
    | some e =>
      let (s', e') := W.perform s e a
      { s' with execs := s.execs.set i e' }
  | .store i op =>
    match s.execs[i]? with
    | none => s
    | some e =>
      match e.phase with
      | .returned result =>
        match storing e.job (.obj result) op with
        | some op' => { s with jobs := Jobs.step s.jobs op' }
        | none => s
      | _ => s
  | .terminal now job payload status => { s with jobs := onTerminal s.jobs now job payload status }

def State.init (rest : σ) : State σ := ⟨Table.empty, rest, [], []⟩

end CisApp.Erasure
