import CisApp.Lifecycle.Rows

/-!
# The lifecycle actions as transactions

Each action of `services/tour_lifecycle/service.py` is one transaction: `program`
lists its statements in the order of the source, `exec` says what one statement
does to the rows it sees, `needs` which row locks it waits for.  An `UPDATE` or a
`SELECT … FOR UPDATE` over several rows finds its rows in the snapshot at its
start and then visits them one by one; a row that it had to wait for is checked
again (`lockRow`, `supersedeRow`, `reviveRow`, `switchOffRow`).  A statement that
makes a version active also waits for the writes of others that the unique index
of active versions compares it with (`contends`).

The sweep joins Masters with sources but locks the Masters only: what it found out
about a source when it began decides, and only the Master is checked again.

Every action ends in `_cascade`: the sweep, the record of the change of the served
state, and the notices to tenants.
-/

namespace CisApp.Lifecycle

open Lib

abbrev Tenant := Nat

inductive LifecycleError where
  | notFound
  | groupHasActiveVersion
  | sourceDeleted
  | sourceTrashed
  | masterTrashed
  | sourceNotLive
  /-- `asyncpg.UniqueViolationError`, where the action does not catch it. -/
  | uniqueViolation
deriving Repr, DecidableEq

/-- The decisions about a staged upload that touch the matched key. -/
inductive Decision where
  | replace
  | update
  | keepBoth
deriving Repr, DecidableEq

inductive Action where
  | retireSource (t : Tour)
  | restoreSource (t : Tour)
  | supersede (decision : Decision) (new : Tour)
  | setActive (t : Tour)
  | pauseMaster (t : Tour)
  | activateMaster (t : Tour)
  | trashMaster (t : Tour)
  | restoreMaster (t : Tour)
  | publish (t : Tour)
deriving Repr, DecidableEq

def Action.tour : Action → Tour
  | .retireSource t => t
  | .restoreSource t => t
  | .supersede _ new => new
  | .setActive t => t
  | .pauseMaster t => t
  | .activateMaster t => t
  | .trashMaster t => t
  | .restoreMaster t => t
  | .publish t => t

/-- An action, with the tenants that hold a derivative of the key when it looks for them. -/
structure Request where
  action : Action
  derivs : List Tenant
  nodup : derivs.Nodup

/-! ## The record and the notices -/

inductive EventKind where
  | retired
  | paused
  | restored
  | superseded
deriving Repr, DecidableEq

inductive EventReason where
  | state (s : Liveness)
  | replaced
  | restore
  | publish
  | activate
  | setActive
deriving Repr, DecidableEq

/-- A row of `tour_lifecycle_event`. -/
structure Event where
  tour : Tour
  kind : EventKind
  reason : EventReason
  replacedBy : Option Tour
deriving Repr, DecidableEq

inductive NoteKind where
  | discontinued
  | reinstated
deriving Repr, DecidableEq

/-- A row of `shared.notifications` about a tour of the key; `created_at` is when the transaction
began. -/
structure Note where
  tenant : Tenant
  entity : Tour
  kind : NoteKind
  createdAt : Nat
deriving Repr, DecidableEq

/-- What the key has beside its rows, in the order of the ids. -/
structure Record where
  events : List Event
  notes : List Note
deriving Repr, DecidableEq

/-- The local data of an action. -/
structure Outcome where
  action : Action
  derivs : List Tenant
  /-- The source row read under `FOR SHARE`. -/
  source : Option Source := none
  version : Nat := 0
  before : Option Liveness := none
  after : Option Liveness := none
  superseded : List Tour := []
  tours : List Tour := []
  events : List Event := []
  notes : List (Tenant × Tour × NoteKind) := []
deriving Repr, DecidableEq

def restoredReason : Action → EventReason
  | .restoreSource _ => .restore
  | .publish _ => .publish
  | .activateMaster _ => .activate
  | .setActive _ => .setActive
  | .supersede _ _ => .publish
  | _ => .restore

def State.kind : State → EventKind
  | .served => .restored
  | .paused => .paused
  | .retired => .retired

def Outcome.wroteSuperseded (out : Outcome) (after : Option Liveness) : Bool :=
  !out.superseded.isEmpty && (out.before.isSome || after.isSome)

def Outcome.replacedEvent (out : Outcome) (old : Tour) : Event :=
  ⟨old, .superseded, .replaced, some out.action.tour⟩

/-- The event for the state that the action left behind. -/
def Outcome.stateEvents (out : Outcome) (wroteSuperseded : Bool) (a : Liveness) : List Event :=
  if a.state = .served then
    if (out.before.any fun b => b.state ≠ .served) || wroteSuperseded then
      [⟨out.action.tour, .restored, restoredReason out.action, none⟩]
    else []
  else if some a ≠ out.before && !(wroteSuperseded && a = .supersededPending) then
    [⟨out.action.tour, a.state.kind, .state a, none⟩]
  else []

/-- The events of `_cascade`. -/
def Outcome.recorded (out : Outcome) (after : Option Liveness) : List Event :=
  (if out.wroteSuperseded after then out.superseded.map out.replacedEvent else []) ++
    after.elim [] (out.stateEvents (out.wroteSuperseded after))

/-- The latest notice to a tenant about a tour (`ORDER BY created_at DESC, id DESC`). -/
def latest (notes : List Note) (p : Tenant × Tour) : Option Note :=
  Table.firstBy (fun a b => b.createdAt ≤ a.createdAt)
    (notes.filter fun n => n.tenant = p.1 && n.entity = p.2).reverse

/-- The tenants and tours whose latest notice says discontinued. -/
def outstandingWarnings (notes : List Note) (tours : List Tour) : List (Tenant × Tour) :=
  ((notes.filter fun n => n.entity ∈ tours).map fun n => (n.tenant, n.entity)).dedup.filter fun p =>
    (latest notes p).any fun n => n.kind = .discontinued

/-- The notices of `_cascade`. -/
def Outcome.notices (out : Outcome) (notes : List Note) : List (Tenant × Tour × NoteKind) :=
  let outstanding := outstandingWarnings notes out.tours
  match out.after.map Liveness.state with
  | some .retired =>
    if out.before.map Liveness.state ≠ some .retired then
      (out.derivs.filter fun t => t ∉ outstanding.map Prod.fst).map fun t =>
        (t, out.action.tour, .discontinued)
    else []
  | some .served =>
    if out.before.map Liveness.state ≠ some .served then
      outstanding.map fun p => (p.1, p.2, .reinstated)
    else []
  | _ => []

/-! ## Statements -/

inductive SourceChange where
  | trash
  | restore
  | activate
deriving Repr, DecidableEq

def SourceChange.apply : SourceChange → Source → Source
  | .trash => Source.trash
  | .restore => Source.restore
  | .activate => Source.activate

/-- The new row is one of those the unique index holds. -/
def SourceChange.activates : SourceChange → Bool
  | .trash => false
  | .restore => true
  | .activate => true

def SourceChange.violation : SourceChange → LifecycleError
  | .restore => .groupHasActiveVersion
  | _ => .uniqueViolation

inductive MasterChange where
  | pause
  | activate
  | trash
  | restore
deriving Repr, DecidableEq

def MasterChange.apply : MasterChange → Master → Master
  | .pause => Master.pause
  | .activate => Master.activate
  | .trash => Master.trash
  | .restore => Master.restore

inductive Statement where
  | version (t : Tour) (refuse : Source → Option LifecycleError)
  | lockedSourceState (t : Tour)
  | requireLive
  | master (t : Tour) (refuse : Master → Option LifecycleError)
  | requireNotDeleted
  | lockGroup
  | lockRow (t : Tour)
  | nextVersion
  | servedBefore
  | updateSource (t : Tour) (c : SourceChange)
  | supersedeActive (keep : Option Tour)
  | supersedeRow (t : Tour)
  | insertVersion (t : Tour) (status : SourceStatus)
  | updateMaster (t : Tour) (c : MasterChange)
  | reviveMaster (t : Tour) (why : MasterReason)
  | reviveRow (t : Tour) (why : MasterReason)
  | insertMaster (t : Tour)
  | switchOffDeadMasters
  | switchOffRow (t : Tour) (why : MasterReason)
  | servedAfter
  | keyTourIds
  | notify

def otherActive (rows : Rows) (t : Tour) : Bool :=
  (versions rows).any fun v => v.1 ≠ t && v.2.status = .active

/-- `deleted_key_info`: no live version, and a version deleted. -/
def deletedKey (rows : Rows) : Bool :=
  !hasLive rows && (versions rows).any fun v => v.2.gone && v.2.deleted

/-- The active Masters over sources that are not live, with the reason to write. -/
def deadMasters (rows : Rows) : List (Tour × MasterReason) :=
  (versions rows).filterMap fun v =>
    if (master? rows v.1).any (fun m => m.status = .active) && !v.2.live then
      some (v.1, if v.2.gone then .sourceDeleted else .superseded)
    else none

def Master.waitsFor (m : Master) (why : MasterReason) : Bool :=
  m.status = .inactive && m.reason = some why

/-- The entry of another transaction that the unique index compares the new row with. -/
def contends (rows : Rows) (t : Tour) : RowId × Row → Bool
  | (.source u, .source r) =>
    u ≠ t && (r.status = .active || (source? rows u).any fun v => v.status = .active)
  | _ => false

abbrev StatementEffect := Effect RowId Row Statement Outcome

def rewrite (k : RowId) (r : Row) (out : Outcome) : StatementEffect :=
  { takes := [(k, true)], writes := [(k, r)], data := out }

def exec (d : Record) (rows : Rows) (out : Outcome) :
    Statement → Except LifecycleError StatementEffect
  | .version t refuse =>
    match source? rows t with
    | none => .error .notFound
    | some v =>
      match refuse v with
      | some err => .error err
      | none => .ok { takes := [(.source t, true)], data := out }
  | .lockedSourceState t =>
    match source? rows t with
    | none => .ok { data := { out with source := none } }
    | some v => .ok { takes := [(.source t, false)], data := { out with source := some v } }
  | .requireLive =>
    if out.source.any Source.live then .ok { data := out } else .error .sourceNotLive
  | .master t refuse =>
    match master? rows t with
    | none => .error .notFound
    | some m =>
      match refuse m with
      | some err => .error err
      | none => .ok { takes := [(.master t, true)], data := out }
  | .requireNotDeleted =>
    if deletedKey rows then .error .sourceDeleted else .ok { data := out }
  | .lockGroup =>
    .ok { more := (versions rows).map fun v => .lockRow v.1, data := out }
  | .lockRow t =>
    match source? rows t with
    | none => .ok { data := out }
    | some _ => .ok { takes := [(.source t, true)], data := out }
  | .nextVersion =>
    .ok { data := { out with version := ((versions rows).map fun v => v.2.version).foldl max 0 + 1 } }
  | .servedBefore => .ok { data := { out with before := servedState rows } }
  | .updateSource t c =>
    match source? rows t with
    | none => .ok { data := out }
    | some v =>
      if c.activates && otherActive rows t then .error c.violation
      else .ok (rewrite (.source t) (.source (c.apply v)) out)
  | .supersedeActive keep =>
    .ok
      { more := ((versions rows).filter fun v => v.2.status = .active && some v.1 ≠ keep).map fun v =>
          .supersedeRow v.1
        data := out }
  | .supersedeRow t =>
    match source? rows t with
    | none => .ok { data := out }
    | some v =>
      if v.status = .active then
        .ok (rewrite (.source t) (.source v.supersede)
          { out with superseded := out.superseded ++ [t] })
      else .ok { data := out }
  | .insertVersion t status =>
    if (source? rows t).isSome || (status = .active && otherActive rows t) then .error .uniqueViolation
    else .ok (rewrite (.source t) (.source ⟨status, false, out.version⟩) out)
  | .updateMaster t c =>
    match master? rows t with
    | none => .ok { data := out }
    | some m => .ok (rewrite (.master t) (.master (c.apply m)) out)
  | .reviveMaster t why =>
    if (master? rows t).any (·.waitsFor why) then .ok { more := [.reviveRow t why], data := out }
    else .ok { data := out }
  | .reviveRow t why =>
    match master? rows t with
    | none => .ok { data := out }
    | some m =>
      if m.waitsFor why then .ok (rewrite (.master t) (.master m.activate) out)
      else .ok { data := out }
  | .insertMaster t =>
    match master? rows t with
    -- ON CONFLICT (tour_id): the content is replaced, the status columns are not
    | some m => .ok (rewrite (.master t) (.master m) out)
    | none => .ok (rewrite (.master t) (.master ⟨.active, none, false⟩) out)
  | .switchOffDeadMasters =>
    .ok { more := (deadMasters rows).map fun e => .switchOffRow e.1 e.2, data := out }
  | .switchOffRow t why =>
    match master? rows t with
    | none => .ok { data := out }
    | some m =>
      if m.status = .active then .ok (rewrite (.master t) (.master (m.switchOff why)) out)
      else .ok { data := out }
  | .servedAfter =>
    .ok { data := { out with after := servedState rows, events := out.recorded (servedState rows) } }
  | .keyTourIds => .ok { data := { out with tours := (versions rows).map Prod.fst } }
  | .notify => .ok { data := { out with notes := out.notices d.notes } }

/-- The row a statement works on, with the lock it takes. -/
def needs : Statement → List (RowId × Bool)
  | .version t _ => [(.source t, true)]
  | .lockedSourceState t => [(.source t, false)]
  | .master t _ => [(.master t, true)]
  | .lockRow t => [(.source t, true)]
  | .updateSource t _ => [(.source t, true)]
  | .supersedeRow t => [(.source t, true)]
  | .insertVersion t _ => [(.source t, true)]
  | .updateMaster t _ => [(.master t, true)]
  | .reviveRow t _ => [(.master t, true)]
  | .insertMaster t => [(.master t, true)]
  | .switchOffRow t _ => [(.master t, true)]
  | _ => []

def waits (rows : Rows) : Statement → RowId × Row → Bool
  | .updateSource t c, w => c.activates && contends rows t w
  | .insertVersion t status, w => status = .active && contends rows t w
  | _, _ => false

def cascade : List Statement := [.switchOffDeadMasters, .servedAfter, .keyTourIds, .notify]

/-- `_master_outcome`, and the refusal of a Master in the trash. -/
def masterOutcome (t : Tour) (trashed : LifecycleError) : List Statement :=
  [.master t (fun m => if m.status = .trashed then some trashed else none), .servedBefore]

def program : Action → List Statement
  | .retireSource t =>
    [.version t (fun v => if v.status = .trashed then some .notFound else none), .servedBefore,
      .updateSource t .trash] ++ cascade
  | .restoreSource t =>
    [.version t (fun v => if v.status ≠ .trashed then some .notFound else none), .servedBefore,
      .updateSource t .restore, .reviveMaster t .sourceDeleted] ++ cascade
  | .supersede .keepBoth new =>
    [.requireNotDeleted, .lockGroup, .nextVersion, .servedBefore,
      .insertVersion new .superseded] ++ cascade
  | .supersede _ new =>
    [.requireNotDeleted, .lockGroup, .nextVersion, .servedBefore, .supersedeActive none,
      .insertVersion new .active] ++ cascade
  | .setActive t =>
    [.version t (fun v => if v.gone then some .sourceTrashed else none), .servedBefore,
      .supersedeActive (some t), .updateSource t .activate, .reviveMaster t .superseded] ++ cascade
  | .pauseMaster t => masterOutcome t .masterTrashed ++ [.updateMaster t .pause] ++ cascade
  | .activateMaster t =>
    [.lockedSourceState t] ++ masterOutcome t .masterTrashed ++
      [.requireLive, .updateMaster t .activate] ++ cascade
  | .trashMaster t => masterOutcome t .notFound ++ [.updateMaster t .trash] ++ cascade
  | .restoreMaster t =>
    [.master t (fun m => if m.status ≠ .trashed then some .notFound else none), .servedBefore,
      .updateMaster t .restore] ++ cascade
  | .publish t =>
    [.lockedSourceState t, .requireLive, .servedBefore, .insertMaster t] ++ cascade

/-- What a commit adds. -/
def commitRecord (d : Record) (start : Nat) (out : Outcome) : Record :=
  { events := d.events ++ out.events
    notes := d.notes ++ out.notes.map fun n => ⟨n.1, n.2.1, n.2.2, start⟩ }

/-- The lifecycle service. -/
def lifecycle : Service RowId Row Statement Outcome Record Request LifecycleError where
  program := fun req => program req.action
  data := fun req => { action := req.action, derivs := req.derivs }
  needs := needs
  waits := waits
  exec := exec
  commit := commitRecord

abbrev Sys := Lib.Sys RowId Row Statement Outcome Record

def Sys.init (rows : Rows) (d : Record) : Sys := ⟨rows, d, Table.empty, 1, 0⟩

abbrev step : Sys → Label Request → Sys := lifecycle.step

/-! ## One after the other -/

structure Key where
  rows : Rows
  record : Record
  clock : Nat

/-- One action with nobody else on the key. -/
def perform (k : Key) (req : Request) : Except LifecycleError Key :=
  match lifecycle.finish k.record 2 k.rows (lifecycle.data req) (lifecycle.program req) with
  | .error err => .error err
  | .ok w => .ok ⟨w.1, commitRecord k.record k.clock w.2, k.clock + 1⟩

def act (k : Key) (req : Request) : Key :=
  match perform k req with
  | .error _ => k
  | .ok k' => k'

end CisApp.Lifecycle
