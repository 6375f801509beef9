import CisApp.Erasure.Traveller
import CisApp.Jobs.Lifecycle
import CisApp.Releases.Evidence

/-!
# The `data_erasure` job (`services/jobs/erasure_job.py`)

The payload and its checks, the DRY RUN's report, and the statements the job
runs on `shared.job` itself: the claim of a DRY RUN, the hash strip, and what an
apply does to job rows.  Texts of digests, salts and ids have no `@`
(`Plain`), which is all that is used of them.

What the job reads and erases in the other tables is a parameter (`World`): any
function of the state will do here.
-/

namespace CisApp.Erasure

open Jobs Lib Releases

def erasureKind : String := "data_erasure"

/-- A text of hexadecimal digits, dashes and the like. -/
structure Plain where
  text : String
  noAt : '@' ∉ text.toList

inductive Subject where
  | tenant (id : String)
  | traveller (emailSha256 : String)
deriving DecidableEq

/-- What an apply adds to the payload. -/
structure Approval where
  dryRunJobId : String
  approvedFingerprint : String
  approvedBy : String
  snapshotId : String
deriving DecidableEq

inductive Mode where
  | dryRun (verify : Bool)
  | apply (a : Approval)
deriving DecidableEq

structure Request where
  subject : Subject
  mode : Mode
  actor : Option Json

/-! ## The payload -/

/-- `str(v or "")`.  A value that is no string has its JSON text. -/
def pyText (v : Option Json) : String :=
  match v with
  | some (.str s) => s
  | some j => if truthy v then j.render else ""
  | none => ""

def isText (v : Option Json) (s : String) : Bool :=
  match v with
  | some (.str t) => t == s
  | _ => false

def hexChar (c : Char) : Bool := c.isDigit || (decide ('a' ≤ c) && decide (c ≤ 'f'))

/-- `^[0-9a-f]{n}$`; `$` also stands before a last line feed. -/
def hexes (n : Nat) (s : Text) : Bool :=
  (s.length == n && s.all hexChar) ||
    (s.length == n + 1 && (s.take n).all hexChar && s.getLast? == some '\n')

/-- `UUID_RE`, with the `$` of above. -/
def uuidShaped (s : Text) : Bool :=
  let body := if s.getLast? == some '\n' then s.dropLast else s
  let parts := body.splitOnP (· == '-')
  parts.map List.length == [8, 4, 4, 4, 12] && parts.all fun p => p.all hexChar

/-- `s.strip().lower()`. -/
def normalised (s : String) : String := String.ofList (lower (strip s.toList))

def lowered (s : String) : String := String.ofList (lower s.toList)

def platformTenantId : String := "00000000-0000-0000-0000-000000000001"

def require (ok : Bool) (text : String) : Except String Unit := if ok then .ok () else .error text

def validateSubject (p : JObj) : Except String Subject :=
  if isText (p.at? "subject") "tenant" then do
    let tid := normalised (pyText (p.at? "tenant"))
    require (uuidShaped tid.toList) "tenant must be a tenant id (uuid)"
    require (tid != platformTenantId) "the AA internal tenant can never be erased"
    require (p.at? "email_sha256").isNone "a tenant erasure takes no email_sha256"
    return .tenant tid
  else do
    let h := normalised (pyText (p.at? "email_sha256"))
    require (hexes 64 h.toList)
      ("email_sha256 must be the 64-hex sha256 of the trimmed, lowercased address " ++
        "(runbook section 2 step 2); the address itself is never accepted")
    require (p.at? "tenant").isNone "a traveller erasure takes no tenant"
    return .traveller h

def needed (p : JObj) (k : String) : Except String String :=
  let v := pyText (p.at? k)
  if strip v.toList = [] then
    .error ("an apply needs " ++ k ++ " (destructive-ops.md: DRY RUN, approval, snapshot)")
  else .ok v

def validateApproval (p : JObj) : Except String Approval := do
  let dryRunJobId ← needed p "dry_run_job_id"
  let approvedFingerprint ← needed p "approved_fingerprint"
  let approvedBy ← needed p "approved_by"
  let snapshotId ← needed p "snapshot_id"
  require (hexes 64 (lower approvedFingerprint.toList))
    "approved_fingerprint must be the DRY RUN's 64-hex fingerprint"
  require (uuidShaped (lower dryRunJobId.toList)) "dry_run_job_id must be a job id (uuid)"
  return ⟨dryRunJobId, approvedFingerprint, approvedBy, snapshotId⟩

def isApply (p : JObj) : Bool := isText (p.at? "mode") "apply"

/-- `verify` is true. -/
def isVerify (p : JObj) : Bool :=
  match p.at? "verify" with
  | some (.bool b) => b
  | _ => false

/-- The normalised payload, or the text of the `NonRetryable` raised. -/
def validatePayload (p : JObj) : Except String Request := do
  require (isText (p.at? "subject") "tenant" || isText (p.at? "subject") "traveller")
    "subject must be one of ['tenant', 'traveller']"
  require (isApply p || isText (p.at? "mode") "dry_run" || (p.at? "mode").isNone)
    "mode must be one of ['dry_run', 'apply']"
  require ((p.at? "verify").isNone ||
      (isVerify p && isText (p.at? "subject") "traveller" && !isApply p))
    "verify is only for a traveller DRY RUN after an apply (it strips its own hash)"
  let subject ← validateSubject p
  if isApply p then
    let a ← validateApproval p
    return ⟨subject, .apply a, p.at? "actor"⟩
  else return ⟨subject, .dryRun (isVerify p), p.at? "actor"⟩

/-- `retry_refusal`: an apply is never re-queued. -/
def retryRefused (r : JobRow) : Bool := r.kind == erasureKind && isApply r.payload

/-! ## What stands in the way of an apply -/

/-- The settings the process reads from its environment. -/
structure Env where
  applyEnabled : Bool
  tenantRetentionDays : Nat
  dryRunMaxAgeHours : Nat

structure TenantRow where
  isActive : Bool
  cancelledAt : Option Int

inductive ApplyRefusal where
  | applyOff
  | notErasureJob
  | notSucceededDryRun
  | otherSubject
  | tooOld (maxAgeHours : Nat)
  | unboundFingerprint
  | noSalt
  | otherFingerprint
  | hadBlockers
  | alreadyUsed (applyJob : Option Json)
  | tenantGone
  | notOffboarded
  | offboardedTooLately (days : Nat)

def tenantRefusals (row : Option TenantRow) (now : Int) (env : Env) : List ApplyRefusal :=
  match row with
  | none => [.tenantGone]
  | some row =>
    match row.cancelledAt with
    | none => [.notOffboarded]
    | some at_ =>
      if now - at_ < secs (86400 * env.tenantRetentionDays) then
        [.offboardedTooLately env.tenantRetentionDays]
      else []

/-- Python's `None`, as `get` gives it for a missing key or a JSON null. -/
def isNone (v : Option Json) : Bool :=
  match v with
  | none => true
  | some .null => true
  | _ => false

def sameSubject (dp : JObj) : Subject → Bool
  | .tenant tid =>
    isText (dp.at? "subject") "tenant" && isText (dp.at? "tenant") tid && isNone (dp.at? "email_sha256")
  | .traveller h =>
    isText (dp.at? "subject") "traveller" && isNone (dp.at? "tenant") && isText (dp.at? "email_sha256") h

/-- `v == FINGERPRINT_VERSION`. -/
def isVersionTwo (v : Option Json) : Bool :=
  match v with
  | some (.num m scale) => m == 2 * 10 ^ scale
  | _ => false

def Subject.isTraveller : Subject → Bool
  | .tenant _ => false
  | .traveller _ => true

/-- `dry_job["result"] or {}`; `none` when it has no `get`. -/
def resultFields (result : Option Json) : Option JObj :=
  match result with
  | some (.obj o) => some o
  | v => if truthy v then none else some []

def refuse (when_ : Bool) (why : ApplyRefusal) : List ApplyRefusal := if when_ then [why] else []

/-- The DRY RUN's part of `apply_refusals`. -/
def dryRunRefusals (req : Request) (a : Approval) (dry : JobRow) (res : JObj) (now : Int) (env : Env) :
    List ApplyRefusal :=
  refuse (dry.kind != erasureKind || dry.status != .succeeded || !isText (res.at? "mode") "dry_run")
      .notSucceededDryRun ++
    refuse (!sameSubject dry.payload req.subject) .otherSubject ++
    refuse (match dry.finishedAt with
      | none => true
      | some t => decide (secs (3600 * env.dryRunMaxAgeHours) < now - t)) (.tooOld env.dryRunMaxAgeHours) ++
    (if !isVersionTwo (res.at? "fingerprint_version") then [.unboundFingerprint]
      else refuse (req.subject.isTraveller && !hexes 32 (pyText (res.at? "subject_salt")).toList) .noSalt) ++
    refuse (!isText (res.at? "fingerprint") (lowered a.approvedFingerprint)) .otherFingerprint ++
    refuse (truthy (res.at? "blocked")) .hadBlockers ++
    refuse (truthy (res.at? "used_by_apply")) (.alreadyUsed (res.at? "used_by_apply"))

/-- Why an apply may not run; `none` when the DRY RUN's result cannot be read. -/
def applyRefusals (req : Request) (a : Approval) (dry : Option JobRow) (tenantRow : Option TenantRow)
    (now : Int) (env : Env) : Option (List ApplyRefusal) := do
  let ofDry ← match dry with
    | none => some [.notErasureJob]
    | some r => (resultFields r.result).map fun res => dryRunRefusals req a r res now env
  return refuse (!env.applyEnabled) .applyOff ++ ofDry ++
    (match req.subject with
      | .tenant _ => tenantRefusals tenantRow now env
      | .traveller _ => [])

/-! ## The report of a DRY RUN -/

structure CountRow where
  table : String
  action : String
  rows : Nat
  reason : String
  ids : List Plain

structure TravellerScan where
  table : String
  column : String
  action : String
  reason : String
deriving DecidableEq

/-- `TRAVELLER_EXACT + TRAVELLER_TEXT`; the column as `scan_key` writes it. -/
def travellerScans : List TravellerScan :=
  [⟨"shared.admin_users", "email", "manual", "a staff account: a staff request, not a traveller erasure"⟩,
    ⟨"shared.alert_recipient", "email", "manual", "an ops alert recipient: remove it on the Alerts page"⟩,
    ⟨"shared.notifications", "payload", "delete", "a bell notification that carries the address"⟩,
    ⟨"shared.job", "payload", "redact", "a job payload must hold ids only (DM-6.3)"⟩,
    ⟨"shared.job", "result", "redact", "a job result with the address"⟩,
    ⟨"shared.job", "error", "redact", "a job error with the address"⟩,
    ⟨"acp_shared.audit_log", "details", "manual",
      "append-only audit chain: needs a reviewed migration to redact, never an UPDATE"⟩,
    ⟨"acp_shared.publish_log", "last_error", "manual", "a channel error message: review by hand"⟩,
    ⟨"shared.tenants", "cancellation_reason", "manual",
      "an offboarding reason that names a person: review by hand"⟩,
    ⟨"shared.tenant_integrations", "config", "manual",
      "a tenant's own channel config (the tenant's contact, not a traveller)"⟩]

def TravellerScan.key (scan : TravellerScan) : String := scan.table ++ ":" ++ scan.column

def maxIds : Nat := 200

/-- `count_traveller`: `found` gives the matches of a scan, `none` for a table that is absent. -/
def travellerRows (found : TravellerScan → Option (Nat × List Plain)) : List CountRow :=
  travellerScans.filterMap fun scan => (found scan).map fun m =>
    ⟨scan.key, scan.action, m.1, scan.reason, m.2.take maxIds⟩

def skippedTables (found : TravellerScan → Option (Nat × List Plain)) : List String :=
  (travellerScans.filter fun scan => (found scan).isNone).map TravellerScan.table

def num (n : Nat) : Json := .num n 0

def CountRow.json (r : CountRow) : Json :=
  .obj [("table", .str r.table), ("action", .str r.action), ("rows", num r.rows),
    ("reason", .str r.reason), ("ids", .arr (r.ids.map fun i => .str i.text))]

def CountRow.doneJson (r : CountRow) : Json :=
  .obj [("table", .str r.table), ("action", .str r.action), ("rows", num r.rows)]

/-- `totals`: the rows of an action, an action's suffix after `:` left out. -/
def totals (rows : List CountRow) : JObj :=
  let key := fun r : CountRow => String.ofList (r.action.toList.takeWhile (· != ':'))
  ((rows.map key).eraseDups).map fun k => (k, num (((rows.filter fun r => key r == k).map CountRow.rows).sum))

def travellerChecklist : List (String × String × String) :=
  [("AA-Booking", "inbox_events.payload, b2c trip_cases (+ children, kept as history), " ++
      "notifications, retired_b2c_record (archived customer invoices and payments: redact the free text, " ++
      "the rows stay under the accounting exception); audit_logs before/after redacted, never deleted; " ++
      "one Booking audit row for the erasure",
      "runbook sections 2 (lookup) and 3 (erase): DB Migrate run-script, ids only, AA-Booking lane"),
    ("AA-TripPlanner-Web", "tripplanner.customers, sessions, trip_drafts, trip_events, outbox.payload",
      "runbook sections 2 and 3: DB Migrate run-script, ids only, TripPlanner lane"),
    ("AA-Partner (crm)", "a tenant's own CRM contacts (DM-6.8: the tenant is the controller)",
      "forward the request to the tenant; AA erases on the tenant's instruction (AA-Partner runbook)"),
    ("Cognito", "the EXTERNAL pool user, if any", "runbook section 3 step 5 (address at a prompt only)"),
    ("S3", "Booking inbox archives (archive/booking/)", "runbook section 3 step 6"),
    ("Staff mailbox", "bk_notify_email copies and the request thread", "runbook section 3 step 9"),
    ("Sentry", "events holding the address (CIS project)", "runbook section 3 step 9"),
    ("RDS backups", "automated backups age out in 7 days; delete the manual pre-erasure snapshot",
      "runbook section 3 step 8")]

def checklistJson (items : List (String × String × String)) : Json :=
  .arr (items.map fun i => .obj [("owner", .str i.1), ("item", .str i.2.1), ("how", .str i.2.2)])

/-- The further fields of a tenant's result, for the operator to read. -/
structure TenantReport where
  checklist : Json
  tenantState : Json
  offboardedAt : Json
  checksPassed : Json
  unregistered : Json
  missingTables : Json
  deleteOrder : Json
  nullFirst : Json
  s3Refs : Json
  s3 : Json
  secrets : Json
  note : Option Json
  error : Option Json

def TenantReport.fields (r : TenantReport) (tid : String) : JObj :=
  [("checklist", r.checklist), ("tenant", .str tid), ("tenant_state", r.tenantState),
    ("offboarded_at", r.offboardedAt), ("checks_passed", r.checksPassed),
    ("unregistered", r.unregistered), ("missing_tables", r.missingTables),
    ("delete_order", r.deleteOrder), ("null_first", r.nullFirst), ("s3_refs", r.s3Refs),
    ("s3", r.s3), ("secrets", r.secrets)] ++
    r.note.toList.map (fun v => ("note", v)) ++ r.error.toList.map (fun v => ("error", v))

structure Counted where
  rows : List CountRow
  blockers : List Json
  skipped : List String
  report : Option TenantReport

/-- `result["apply"]`. -/
def applySettings (env : Env) (days : Option Nat) : Json :=
  .obj [("enabled", .bool env.applyEnabled),
    ("tenant_retention_days", (days.map num).getD .null),
    ("needs", .arr (["approved_fingerprint = this fingerprint", "approved_by",
      "snapshot_id (manual RDS snapshot)", "dry_run_job_id = this job", "ERASURE_APPLY_ENABLED=true",
      "a verified Cognito staff session"].map Json.str))]

/-- The fields only one kind of subject has. -/
def Counted.ofSubject (c : Counted) (env : Env) : Subject → JObj
  | .tenant tid =>
    [("blockers", .arr c.blockers), ("blocked", .bool (!c.blockers.isEmpty)),
      ("apply", applySettings env (some env.tenantRetentionDays))] ++
      (match c.report with
        | some r => r.fields tid
        | none => [])
  | .traveller _ =>
    [("blockers", .arr []), ("blocked", .bool false), ("checklist", checklistJson travellerChecklist),
      ("skipped_tables", .arr (c.skipped.map Json.str)),
      ("manual", .arr ((c.rows.filter fun r => r.action == "manual" && r.rows != 0).map CountRow.json)),
      ("apply", applySettings env none)]

def Subject.name : Subject → String
  | .tenant _ => "tenant"
  | .traveller _ => "traveller"

/-- The result both modes start from. -/
def dryResult (subject : Subject) (fp : Plain) (c : Counted) (env : Env) : JObj :=
  [("subject", .str subject.name), ("mode", .str "dry_run"), ("fingerprint", .str fp.text),
    ("fingerprint_version", num 2), ("totals", .obj (totals c.rows)),
    ("rows", .arr (c.rows.map CountRow.json))] ++ c.ofSubject env subject

/-- What an apply returns: `done` are the rows it touched, `left` what a new count finds. -/
def applyResult (result : JObj) (done : List CountRow) (left : List (String × Nat)) : JObj :=
  (result.erase "apply").merge
    [("mode", .str "apply"), ("applied", .arr (done.map CountRow.doneJson)), ("totals", .obj (totals done)),
      ("verified_left", .obj ((left.filter fun x => x.2 != 0).map fun x => (x.1, num x.2))),
      ("verified", .bool (left.all fun x => x.2 == 0))]

/-! ## The statements on `shared.job` -/

/-- `j ? k`. -/
def hasKey (k : String) : Json → Bool
  | .obj o => (JObj.at? o k).isSome
  | .arr xs => xs.any fun x => isText (some x) k
  | .str s => s == k
  | _ => false

/-- `coalesce(j, '{}') || o`. -/
def concatObj (j : Option Json) (o : JObj) : Json :=
  match j with
  | none => .obj o
  | some (.obj a) => .obj (JObj.merge a o)
  | some (.arr xs) => .arr (xs ++ [.obj o])
  | some j => .arr [j, .obj o]

def usedKey : String := "used_by_apply"

/-- `coalesce(result ? 'used_by_apply', false)`. -/
def isUsed (r : JobRow) : Bool :=
  match r.result with
  | some j => hasKey usedKey j
  | none => false

def claimDryRow (now : Int) (job : Plain) (r : JobRow) : JobRow :=
  { r with result := some (concatObj r.result [(usedKey, .str job.text)]), updatedAt := now }

/-- The `UPDATE` by which an apply takes its DRY RUN; whether it found the row unused. -/
def claimDry (t : JobTable) (now : Int) (dry : JobId) (job : Plain) : JobTable × Bool :=
  (t.update (fun k r => k == dry && !isUsed r) (fun _ r => claimDryRow now job r),
    match t.get? dry with
    | some r => !isUsed r
    | none => false)

def stripsHash (ids : List JobId) (emailSha256 : Option String) (k : JobId) (r : JobRow) : Bool :=
  r.kind == erasureKind && (r.payload.at? "email_sha256").isSome &&
    (ids.contains k || match emailSha256 with
      | some h => ((r.payload.at? "email_sha256").bind Json.text?) == some h
      | none => false)

def stripHashRow (now : Int) (marker : String) (r : JobRow) : JobRow :=
  { r with
    payload := r.payload.merge [("email_sha256", .str marker)]
    result := match r.result with
      | some (.obj o) => some (.obj (JObj.erase o "subject_salt"))
      | j => j
    updatedAt := now }

def stripHash (t : JobTable) (now : Int) (ids : List JobId) (emailSha256 : Option String)
    (marker : String) : JobTable :=
  t.update (stripsHash ids emailSha256) (fun _ r => stripHashRow now marker r)

def redacted : JObj := [("redacted", .str "erasure")]

def redactPayload (now : Int) (r : JobRow) : JobRow := { r with payload := redacted, updatedAt := now }

def redactResult (now : Int) (r : JobRow) : JobRow :=
  { r with result := some (.obj redacted), updatedAt := now }

def redactError (now : Int) (r : JobRow) : JobRow := { r with error := some "redacted", updatedAt := now }

/-- One redaction of `apply_traveller` on `shared.job`, of the rows whose column matches and whose
id is not written in `protect`; `none` is a `CountMismatch`. -/
def redactJobs (idText : JobId → Plain) (protect : List String) (matched : JobRow → Bool)
    (set : JobRow → JobRow) (want : Nat) (t : JobTable) : Option JobTable :=
  let guard := fun (k : JobId) (r : JobRow) => matched r && !protect.contains (idText k).text
  if t.count guard = want then some (t.update guard fun _ r => set r) else none

/-- The rows of `shared.job` a tenant's apply deletes. -/
def deletesJob (tid : String) (_ : JobId) (r : JobRow) : Bool :=
  ((r.payload.at? "tenant_id").bind Json.text?) == some tid && r.status != .queued &&
    r.status != .running && r.kind != erasureKind

/-- `expected.get((table, action), 0)`; a later line of one key counts. -/
def expectedRows (rows : List CountRow) (table action : String) : Nat :=
  ((rows.reverse.find? fun r => r.table == table && r.action == action).map CountRow.rows).getD 0

/-- The hook `on_terminal`, on the job row it is given. -/
def onTerminal (t : JobTable) (now : Int) (job : JobId) (payload : JObj) (status : String) : JobTable :=
  if isText (payload.at? "subject") "traveller" && hexes 64 (pyText (payload.at? "email_sha256")).toList then
    stripHash t now [job] none ("stripped-on-" ++ status)
  else t

end CisApp.Erasure
