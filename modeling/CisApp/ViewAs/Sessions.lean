import CisApp.Lib.Run
import CisApp.Lib.Transaction

/-! View-as sessions (`api/routers/admin_view_as.py`, `api/core/view_as.py`, migration 364).

A staff member looks at a tenant's pages through a session: a row of `staff_view_as_session` that is open
until `ended_at` is set.  Four paths end sessions (the end route, a new start of the same member, the gate,
the bulk closes) and each of them writes one `tenant.view_as_ended` audit row for every session it ended, in
the same transaction.

An UPDATE over several rows is its snapshot (`close`, `endOthers`) and then one `visit` for each row found:
the visit waits for the row and looks at it again, as READ COMMITTED does after a lock wait.  A refusal of
the tenant or staff checks of `start_view_as` and a failure of any statement are aborts.

Ids stand for uuids and times are microseconds. -/

namespace CisApp.ViewAs

open Lib List

abbrev SessionId := Nat
abbrev StaffId := Nat
abbrev TenantId := Nat

/-! ## The tables -/

inductive EndReason where
  | ended | expired | revoked
deriving Repr, DecidableEq

/-- A row of `shared.staff_view_as_session`; `ended` is `ended_at` with `end_reason`. -/
structure Session where
  staff : StaffId
  tenant : TenantId
  reason : String
  ticketRef : Option String
  startedAt : Nat
  expiresAt : Nat
  ended : Option (Nat × EndReason)
deriving Repr, DecidableEq

def minuteUs : Nat := 60 * 1000000

/-- PostgreSQL's `btrim`, of blanks only. -/
def btrim (s : String) : List Char :=
  ((s.toList.dropWhile (· = ' ')).reverse.dropWhile (· = ' ')).reverse

/-- The CHECK constraints of the table. -/
def Session.checks (v : Session) : Bool :=
  3 ≤ (btrim v.reason).length && (btrim v.reason).length ≤ 500 &&
    v.ticketRef.all (fun t => 1 ≤ t.length && t.length ≤ 120) &&
    v.startedAt < v.expiresAt && v.expiresAt ≤ v.startedAt + 60 * minuteUs &&
    v.ended.all (fun e => v.startedAt ≤ e.1)

def Session.isOpen (v : Session) : Bool := v.ended.isNone

/-- `CASE WHEN expires_at <= now() THEN 'expired' ELSE .. END`. -/
def Session.endReason (v : Session) (reason : EndReason) (now : Nat) : EndReason :=
  if v.expiresAt ≤ now then .expired else reason

/-- `SET ended_at = greatest(now(), started_at), end_reason = ..`. -/
def Session.close (v : Session) (reason : EndReason) (now : Nat) : Session :=
  { v with ended := some (max now v.startedAt, v.endReason reason now) }

inductive Actor where
  | admin (staff : Option StaffId)
  | gate
  | tag (name : String)
deriving Repr, DecidableEq

inductive Cause where
  | replaced
  | endedByStaff | revokedByAdmin
  | expired | staffInactive | roleLostViewAs | roleChanged | tenantInactive | outOfScope
  | tenantOffboarded | staffDisabled | staffSignedOut
deriving Repr, DecidableEq

/-- The audit rows of this service. -/
inductive AuditRow where
  | started (tenant : TenantId) (actor : Actor) (session : SessionId) (minutes : Nat)
      (ticketRef : Option String) (expiresAt : Nat) (endedSessions : List SessionId)
  | ended (tenant : TenantId) (actor : Actor) (session : SessionId) (endReason : EndReason)
      (cause : Cause) (sessionStaff : StaffId) (replacedBy : Option SessionId)
deriving Repr, DecidableEq

/-- A `tenant.view_as_ended` row of the session. -/
def AuditRow.ends (k : SessionId) : AuditRow → Bool
  | .started .. => false
  | .ended _ _ session .. => session = k

/-! ## The statements -/

/-- What a RETURNING clause gives of a session that the statement ended. -/
structure Closed where
  session : SessionId
  tenant : TenantId
  staff : StaffId
  endReason : EndReason
deriving Repr, DecidableEq

/-- The new session of a start. -/
structure Start where
  session : SessionId
  staff : StaffId
  tenant : TenantId
  reason : String
  ticketRef : Option String
  minutes : Nat
  now : Nat
deriving Repr, DecidableEq

def Start.row (n : Start) : Session :=
  ⟨n.staff, n.tenant, n.reason, n.ticketRef, n.now, n.now + n.minutes * minuteUs, none⟩

inductive Target where
  | session (k : SessionId)
  | staff (a : StaffId)
  | tenant (t : TenantId)
deriving Repr, DecidableEq

def Target.hits (k : SessionId) (v : Session) : Target → Bool
  | .session k' => k = k'
  | .staff a => v.staff = a
  | .tenant t => v.tenant = t

/-- How the ended sessions are audited. -/
structure Note where
  actor : Actor
  cause : Cause
  /-- The tenant and the staff member the caller has at hand (the token's or the row's it read). -/
  claims : Option (TenantId × StaffId)
  start : Option Start
deriving Repr, DecidableEq

def Note.endedAudit (n : Note) (c : Closed) : AuditRow :=
  .ended ((n.claims.map Prod.fst).getD c.tenant) n.actor c.session c.endReason n.cause
    ((n.claims.map Prod.snd).getD c.staff) (n.start.map Start.session)

/-- The audit rows of a path, in order: one for each session it ended, then the start. -/
def Note.rows (n : Note) (closed : List Closed) : List AuditRow :=
  closed.map n.endedAudit ++ n.start.toList.map fun s =>
    .started s.tenant n.actor s.session s.minutes s.ticketRef s.row.expiresAt (closed.map Closed.session)

inductive Stmt where
  /-- `END_OTHERS_SQL`. -/
  | endOthers (staff : StaffId) (now : Nat)
  /-- `END_SQL`, `CLOSE_SQL` and `_CLOSE_ALL_SQL`. -/
  | close (target : Target) (reason : EndReason) (now : Nat)
  | visit (k : SessionId) (reason : EndReason) (now : Nat)
  /-- `INSERT_SQL`. -/
  | insert (n : Start)
  /-- `ONE_SQL` of the end route, with what follows from the row. -/
  | look (k : SessionId) (caller : Option StaffId) (seesEvery : Bool) (now : Nat)
  /-- The `write_audit_log` calls over the sessions that the UPDATE returned. -/
  | record (n : Note)
  | audit (r : AuditRow)
deriving Repr, DecidableEq

/-- What a transaction has done so far: `begun` and `opened` from the statements of a start, `closed` from
the RETURNING rows not yet audited, `logged` its audit rows. -/
structure Local where
  begun : Option StaffId := none
  opened : Option SessionId := none
  closed : List Closed := []
  logged : List AuditRow := []
deriving Repr, DecidableEq

inductive Request where
  | startViewAs (n : Start)
  | endViewAsSession (k : SessionId) (caller : Option StaffId) (seesEvery : Bool) (now : Nat)
  | closeSession (k : SessionId) (tenant : TenantId) (staff : StaffId) (cause : Cause) (now : Nat)
  /-- `close_open_sessions`: of a tenant or of a staff member. -/
  | closeOpenSessions (target : TenantId ⊕ StaffId) (actor : Actor) (cause : Cause) (reason : EndReason)
      (now : Nat)
deriving Repr, DecidableEq

def program : Request → List Stmt
  | .startViewAs n =>
    [.endOthers n.staff n.now, .insert n, .record ⟨.admin (some n.staff), .replaced, none, some n⟩]
  | .endViewAsSession k caller seesEvery now => [.look k caller seesEvery now]
  | .closeSession k tenant staff cause now =>
    [.close (.session k) (if cause = .expired then .expired else .revoked) now,
      .record ⟨.gate, cause, some (tenant, staff), none⟩]
  | .closeOpenSessions target actor cause reason now =>
    [.close (target.elim .tenant .staff) reason now, .record ⟨actor, cause, none, none⟩]

inductive Failure where
  | notFound | uniqueViolation | checkViolation
deriving Repr, DecidableEq

def visits (rows : Table SessionId Session) (target : Target) (reason : EndReason) (now : Nat) :
    List Stmt :=
  (rows.matching fun k v => target.hits k v && v.isOpen).map fun k => .visit k reason now

abbrev SessionEffect := Effect SessionId Session Stmt Local

def exec (rows : Table SessionId Session) (m : Local) : Stmt → Except Failure SessionEffect
  | .endOthers staff now =>
    .ok { more := visits rows (.staff staff) .ended now, data := { m with begun := some staff } }
  | .close target reason now => .ok { more := visits rows target reason now, data := m }
  | .visit k reason now =>
    match rows.get? k with
    | some v =>
      if v.isOpen then
        .ok { takes := [(k, true)]
              writes := [(k, v.close reason now)]
              data := { m with closed := m.closed ++ [⟨k, v.tenant, v.staff, v.endReason reason now⟩] } }
      else .ok { takes := [(k, true)], data := m }
    | none => .ok { takes := [(k, true)], data := m }
  | .insert n =>
    if (rows.get? n.session).isSome then .error .uniqueViolation
    else if !n.row.checks then .error .checkViolation
    else
      .ok { takes := [(n.session, true)]
            writes := [(n.session, n.row)]
            data := { m with opened := some n.session } }
  | .look k caller seesEvery now =>
    match rows.get? k with
    | none => .error .notFound
    | some v =>
      if !seesEvery && caller ≠ some v.staff then .error .notFound
      else
        let own := caller = some v.staff
        .ok { more :=
                [.close (.session k) (if own then .ended else .revoked) now,
                  .record ⟨.admin caller, if own then .endedByStaff else .revokedByAdmin,
                    some (v.tenant, v.staff), none⟩]
              data := m }
  | .record n => .ok { more := (n.rows m.closed).map Stmt.audit, data := { m with closed := [] } }
  | .audit r => .ok { data := { m with logged := m.logged ++ [r] } }

def needs : Stmt → List (SessionId × Bool)
  | .visit k _ _ => [(k, true)]
  | .insert n => [(n.session, true)]
  | _ => []

/-- The service over the session table, with the committed audit log beside it. -/
def service : Service SessionId Session Stmt Local (List AuditRow) Request Failure where
  program := program
  data := fun _ => {}
  needs := needs
  waits := fun _ _ _ => false
  exec := fun _ => exec
  commit := fun log _ m => log ++ m.logged

abbrev System := Sys SessionId Session Stmt Local (List AuditRow)
abbrev Act := Lib.Label Request

abbrev Transaction := Txn SessionId Session Stmt Local

def step : System → Act → System := service.step

def atRest (rows : Table SessionId Session) (log : List AuditRow) : System :=
  ⟨rows, log, Table.empty, 1, 0⟩

/-! ## What a statement does -/

/-- The statements that neither lock nor write a row. -/
inductive Plain (rows : Table SessionId Session) (m : Local) : Stmt → List Stmt → Local → Prop where
  | endOthers (staff : StaffId) (now : Nat) :
    Plain rows m (.endOthers staff now) (visits rows (.staff staff) .ended now) { m with begun := some staff }
  | close (target : Target) (reason : EndReason) (now : Nat) :
    Plain rows m (.close target reason now) (visits rows target reason now) m
  | look {k : SessionId} {caller : Option StaffId} {seesEvery : Bool} {now : Nat} (reason : EndReason)
      (n : Note) (hstart : n.start = none) :
    Plain rows m (.look k caller seesEvery now) [.close (.session k) reason now, .record n] m
  | record (n : Note) :
    Plain rows m (.record n) ((n.rows m.closed).map Stmt.audit) { m with closed := [] }
  | audit (r : AuditRow) : Plain rows m (.audit r) [] { m with logged := m.logged ++ [r] }

/-- What a statement that went through did. -/
inductive Ran (rows : Table SessionId Session) (m : Local) : Stmt → SessionEffect → Prop where
  | plain {st : Stmt} {more : List Stmt} {m' : Local} (h : Plain rows m st more m') :
    Ran rows m st { more := more, data := m' }
  | closed {k : SessionId} {reason : EndReason} {now : Nat} {v : Session} (hget : rows.get? k = some v)
      (hopen : v.isOpen = true) :
    Ran rows m (.visit k reason now)
      { takes := [(k, true)]
        writes := [(k, v.close reason now)]
        data := { m with closed := m.closed ++ [⟨k, v.tenant, v.staff, v.endReason reason now⟩] } }
  | passed {k : SessionId} {reason : EndReason} {now : Nat}
      (hended : ∀ v, rows.get? k = some v → v.isOpen = false) :
    Ran rows m (.visit k reason now) { takes := [(k, true)], data := m }
  | opened {n : Start} (hnone : rows.get? n.session = none) :
    Ran rows m (.insert n)
      { takes := [(n.session, true)]
        writes := [(n.session, n.row)]
        data := { m with opened := some n.session } }

theorem exec_ran {rows : Table SessionId Session} {m : Local} {st : Stmt} {e : SessionEffect}
    (h : exec rows m st = .ok e) : Ran rows m st e := by
  cases st with
  | endOthers staff now =>
    cases h
    exact .plain (.endOthers staff now)
  | close target reason now =>
    cases h
    exact .plain (.close target reason now)
  | visit k reason now =>
    unfold exec at h
    dsimp only at h
    split at h
    · next v hget =>
      split at h
      · next hopen =>
        cases h
        exact .closed hget hopen
      · next hended =>
        cases h
        refine .passed fun v' hv' => ?_
        rw [hget] at hv'
        cases hv'
        simpa using hended
    · next hnone =>
      cases h
      refine .passed fun v hv => ?_
      rw [hnone] at hv
      cases hv
  | insert n =>
    unfold exec at h
    dsimp only at h
    split at h
    · cases h
    · next hnone =>
      split at h
      · cases h
      · cases h
        exact .opened (by simpa using hnone)
  | look k caller seesEvery now =>
    unfold exec at h
    dsimp only at h
    split at h
    · cases h
    · split at h
      · cases h
      · cases h
        exact .plain (.look _ _ rfl)
  | record n =>
    cases h
    exact .plain (.record n)
  | audit r =>
    cases h
    exact .plain (.audit r)

theorem service_lawful : service.Lawful := by
  constructor
  · intro _ rows m st e h k hk
    cases exec_ran h with
    | plain _ => cases hk
    | closed _ _ => exact hk
    | passed _ => exact hk
    | opened _ => exact hk
  · intro _ rows m st e h w hw
    cases exec_ran h with
    | plain _ => cases hw
    | closed _ _ =>
      rw [mem_singleton.1 hw]
      exact mem_singleton_self _
    | passed _ => cases hw
    | opened _ =>
      rw [mem_singleton.1 hw]
      exact mem_singleton_self _

end CisApp.ViewAs
