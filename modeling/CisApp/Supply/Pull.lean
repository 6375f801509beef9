import CisApp.Lib.Lines
import CisApp.Lib.Run
import CisApp.Lib.Table

/-! The consumer of the Booking supply feed (`services/supply_content/pull.py`, tables of migration 278).

A pull is one transaction.  It locks the cursor, reads a batch of the outbox, reads the facts of hotels and then of
services as they are by then, locks the entities of the batch and goes through the events.  Between two of these
statements Booking may commit anything.  From the lock of the entities on nothing that the pull reads can change, so the
rest is one step here; a pull may fail at any point before.  A second puller finds the cursor locked and leaves.

The review API writes the content status and the published version of a row, within the checks of the table.

Jobs that are queued, the counts of a pull and the times are left out. -/

namespace CisApp.Supply

open Lib

/-! ## Rows -/

structure MediaItem where
  mediaId : Option String
  usageRights : Bool
  sha256 : Option String
  contentType : Option String
  width : Option Int
  height : Option Int
deriving Repr, DecidableEq

/-- A row of a facts view without its key columns; `other` are the columns that are only stored. -/
structure Facts where
  status : Option String
  serviceType : Option String
  name : Option String
  workingTitle : Option String
  countryCode : Option String
  media : List MediaItem
  other : List (String × String)
deriving Repr, DecidableEq

inductive ContentStatus where
  | draft
  | inReview
  | published
  | stale
  | unpublished
deriving Repr, DecidableEq

/-- A row of `shared.supply_entity`, by `source_id`. -/
structure EntityRow where
  entityType : String
  serviceType : Option String
  title : String
  countryCode : Option String
  facts : Facts
  appliedVersion : Nat
  active : Bool
  contentStatus : ContentStatus
  publishedVersion : Option String
deriving Repr, DecidableEq

/-- A row of `shared.supply_media`. -/
structure MediaRow where
  entity : String
  usageRights : Bool
  active : Bool
  sha256 : String
  contentType : String
  width : Option Int
  height : Option Int
deriving Repr, DecidableEq

inductive Outcome where
  | applied
  | skippedOlder
  | missing
deriving Repr, DecidableEq

/-- A row of `booking.v_supply_outbox`. -/
structure Event where
  id : String
  eventType : String
  entityType : String
  entityId : String
  version : Nat
  feedSeq : Nat
deriving Repr, DecidableEq

/-- A row of `shared.supply_event_inbox`, by contract and event. -/
structure InboxRow where
  sourceId : String
  eventType : String
  version : Nat
  factsVersion : Option Nat
  feedSeq : Nat
  outcome : Outcome
deriving Repr, DecidableEq

/-- An entity in Booking; `facts` is its row in the facts view, if it is there. -/
structure BookingEntity where
  entityType : String
  version : Nat
  facts : Option Facts
deriving Repr, DecidableEq

def contracts : List (String × String) := [("hotel", "supply.hotel.v1"), ("service", "supply.service.v1")]

def eventTypes : List String := ["supply.upsert", "supply.deactivate"]

/-! ## One event -/

/-- What the pull keeps of an entity. -/
structure EntityState where
  appliedVersion : Nat
  active : Bool
  contentStatus : ContentStatus
  publishedVersion : Option String
deriving Repr, DecidableEq

def EntityRow.state (r : EntityRow) : EntityState := ⟨r.appliedVersion, r.active, r.contentStatus, r.publishedVersion⟩

def outcomeFor (entity : Option EntityState) : Option Nat → Outcome
  | none => .missing
  | some version => if entity.any (version ≤ ·.appliedVersion) then .skippedOlder else .applied

def statusAfterApply (entity : Option EntityState) (active : Bool) : ContentStatus :=
  if !active then .unpublished
  else if entity.any (·.publishedVersion.isSome) then .stale
  else .draft

def title (entityType : String) (facts : Facts) : String :=
  let raw := (if entityType = "hotel" then facts.name else facts.workingTitle).getD ""
  let stripped := strip raw.toList
  String.ofList ((if stripped.isEmpty then "(untitled)".toList else stripped).take 200)

def Facts.isActive (facts : Facts) : Bool := facts.status = some "active"

/-- `_media`: the items with an id and a hash. -/
def Facts.mediaRows (facts : Facts) (sourceId : String) : List (String × MediaRow) :=
  facts.media.filterMap fun m =>
    match m.mediaId.filter (· ≠ ""), m.sha256.filter (· ≠ "") with
    | some id, some sha =>
      some (id, ⟨sourceId, m.usageRights, true, sha, (m.contentType.filter (· ≠ "")).getD "image/jpeg", m.width, m.height⟩)
    | _, _ => none

/-- The tables as the pull sees them, and the entities that it keeps. -/
structure Work where
  entities : Table String EntityState
  rows : Table String EntityRow
  media : Table String MediaRow
  inbox : Table (String × String) InboxRow

/-- The media of an entity after newer facts: those named are upserted, the others are off. -/
def syncMedia (media : Table String MediaRow) (sourceId : String) (facts : Facts) : Table String MediaRow :=
  let named := facts.mediaRows sourceId
  (named.foldl (fun t m => t.upsert m.1 m.2) media).update
    (fun k r => r.entity = sourceId && r.active && !(named.map (·.1)).contains k) fun _ r => { r with active := false }

/-- The row that `_apply` stores. -/
def appliedRow (entity : Option EntityState) (entityType : String) (facts : Facts) (version : Nat) : EntityRow :=
  { entityType
    serviceType := if entityType = "service" then facts.serviceType else none
    title := title entityType facts
    countryCode := facts.countryCode
    facts
    appliedVersion := version
    active := facts.isActive
    contentStatus := statusAfterApply entity facts.isActive
    publishedVersion := entity.bind (·.publishedVersion) }

/-- `_apply`. -/
def applyFacts (w : Work) (entity : Option EntityState) (entityType sourceId : String) (facts : Facts) (version : Nat) :
    Except String Work :=
  let row := appliedRow entity entityType facts version
  let media := syncMedia w.media sourceId facts
  match entity with
  | none =>
    if (w.rows.get? sourceId).isSome then .error "duplicate key"
    else .ok { w with entities := w.entities.upsert sourceId row.state, rows := w.rows.upsert sourceId row, media }
  | some _ =>
    .ok { w with
      entities := w.entities.upsert sourceId row.state
      -- an `UPDATE` names neither the type nor the published version
      rows := w.rows.update (fun k _ => k = sourceId) fun _ r =>
        { row with entityType := r.entityType, publishedVersion := r.publishedVersion }
      media }

/-- An entity that left the facts view. -/
def unpublish (w : Work) (entity : EntityState) (sourceId : String) : Work :=
  let media := w.media.update (fun _ r => r.entity = sourceId && r.active) fun _ r => { r with active := false }
  if entity.active || entity.contentStatus ≠ .unpublished then
    { w with
      entities := w.entities.upsert sourceId { entity with active := false, contentStatus := .unpublished }
      rows := w.rows.update (fun k _ => k = sourceId) fun _ r => { r with active := false, contentStatus := .unpublished }
      media }
  else { w with media }

/-- What the outcome of an event asks for. -/
def perform (w : Work) (e : Event) (current : Option (Nat × Facts)) (entity : Option EntityState) :
    Outcome → Except String Work
  | .applied =>
    match current with
    | some (version, data) => applyFacts w entity e.entityType e.entityId data version
    | none => .ok w
  | .missing =>
    match entity with
    | some entity => .ok (unpublish w entity e.entityId)
    | none => .ok w
  | .skippedOlder => .ok w

/-- The body of the loop of `_pull_batch`. -/
def applyEvent (facts : Table String (Nat × Facts)) (w : Work) (e : Event) : Except String Work :=
  match contracts.lookup e.entityType with
  | none => .error "outside the contract"
  | some contract =>
    if e.eventType ∉ eventTypes then .error "outside the contract"
    else if (w.inbox.get? (contract, e.id)).isSome then .ok w
    else
      let current := facts.get? e.entityId
      let entity := w.entities.get? e.entityId
      let outcome := outcomeFor entity (current.map (·.1))
      (perform w e current entity outcome).map fun w => { w with
        inbox := w.inbox.upsert (contract, e.id)
          ⟨e.entityId, e.eventType, e.version, current.map (·.1), e.feedSeq, outcome⟩ }

/-! ## The system -/

/-- The pull that holds the cursor: `events` is the batch once it is read, `unread` the types whose facts come next. -/
structure Pull where
  limit : Nat
  cursor : Nat
  events : Option (List Event)
  unread : List String
  facts : Table String (Nat × Facts)

structure State where
  supplies : Table String BookingEntity
  outbox : List Event
  rows : Table String EntityRow
  media : Table String MediaRow
  inbox : Table (String × String) InboxRow
  cursor : Nat
  pull : Option Pull

inductive Act where
  /-- A Booking transaction: the new version of an entity, its row in the facts view, and the event. -/
  | change (e : Event) (facts : Option Facts)
  | review (sourceId : String) (status : ContentStatus) (publishedVersion : Option String)
  | rewind (cursor : Nat)
  | start (limit : Nat)
  | advance
  | fail
deriving Repr, DecidableEq

/-- A change raises the version and keeps the type; its event is new and last in the feed. -/
def State.accepts (s : State) (e : Event) : Bool :=
  ((s.supplies.get? e.entityId).all fun x => x.version < e.version && x.entityType = e.entityType) &&
    s.outbox.all (fun e' => e'.id ≠ e.id && e'.feedSeq < e.feedSeq) && s.cursor < e.feedSeq

def outboxSql (outbox : List Event) (cursor limit : Nat) : List Event :=
  ((outbox.filter (cursor < ·.feedSeq)).mergeSort fun a b => a.feedSeq ≤ b.feedSeq).take limit

/-- `FACTS_SQL` for one type, added to what was read. -/
def readFacts (supplies : Table String BookingEntity) (entityType : String) (events : List Event)
    (facts : Table String (Nat × Facts)) : Table String (Nat × Facts) :=
  ((events.filter (·.entityType = entityType)).map (·.entityId)).foldl
    (fun t id =>
      match supplies.get? id with
      | some ⟨ty, version, some data⟩ => if ty = entityType then t.upsert id (version, data) else t
      | _ => t) facts

/-- `ENTITIES_SQL`. -/
def readEntities (rows : Table String EntityRow) (events : List Event) : Table String EntityState :=
  (events.map (·.entityId)).foldl
    (fun t id =>
      match rows.get? id with
      | some r => t.upsert id r.state
      | none => t) Table.empty

/-- The next statement of the pull; after the facts, everything up to the commit. -/
def advance (s : State) (p : Pull) : State :=
  match p.events with
  | none =>
    { s with pull := some { p with events := some (outboxSql s.outbox p.cursor p.limit), unread := contracts.map (·.1) } }
  | some events =>
    match p.unread with
    | entityType :: unread =>
      { s with pull := some { p with unread, facts := readFacts s.supplies entityType events p.facts } }
    | [] =>
      match events.foldlM (applyEvent p.facts) ⟨readEntities s.rows events, s.rows, s.media, s.inbox⟩ with
      | .error _ => { s with pull := none }
      | .ok w =>
        { s with
          rows := w.rows
          media := w.media
          inbox := w.inbox
          cursor := (events.getLast?.map (·.feedSeq)).getD p.cursor
          pull := none }

def step (s : State) : Act → State
  | .change e facts =>
    if s.accepts e then
      { s with supplies := s.supplies.upsert e.entityId ⟨e.entityType, e.version, facts⟩, outbox := s.outbox ++ [e] }
    else s
  | .review sourceId status publishedVersion =>
    match s.rows.get? sourceId with
    | none => s
    | some r =>
      if (r.active || status = .unpublished) && (status ≠ .published || publishedVersion.isSome) then
        { s with rows := s.rows.upsert sourceId { r with contentStatus := status, publishedVersion } }
      else s
  | .rewind cursor => if s.pull.isNone && cursor ≤ s.cursor then { s with cursor } else s
  | .start limit => if s.pull.isNone then { s with pull := some ⟨limit, s.cursor, none, [], Table.empty⟩ } else s
  | .advance => (s.pull.map (advance s)).getD s
  | .fail => { s with pull := none }

/-- Before the first pull, with the entities that Booking has by then. -/
def init (supplies : Table String BookingEntity) : State := ⟨supplies, [], Table.empty, Table.empty, Table.empty, 0, none⟩

def State.consumed (s : State) (e : Event) : Bool :=
  (contracts.lookup e.entityType).any fun contract => (s.inbox.get? (contract, e.id)).isSome

end CisApp.Supply
