import CisApp.Lib.Run
import CisApp.Releases.Evidence
import CisApp.Releases.Guard

/-! The calls on the releases: draft, evidence, approval, activation and the ways back.

A call runs in one transaction, so a refusal of the API or of the database leaves the table as it was.
What a call reads besides the releases (runs, rules, closed months, the clock, the R1 gate, the pinned
examples) is its `World`, and may be another one for every call. -/

namespace CisApp.Releases

abbrev Store := Table Id Release

/-- What a call finds outside the releases. -/
structure World where
  ev : Evidence
  lim : Limits
  now : Nat
  today : Date
  human : String → Bool
  /-- `_open_hard_stop`. -/
  hardStop : Bool
  r1Gate : Option String
  /-- A pinned example was marked `never`. -/
  neverUse : Bool

inductive CallError where
  | refused (http : Nat) (code : String)
  | dbRefused (e : Raised)
  | raised (e : PyErr)
deriving Repr, DecidableEq

abbrev Outcome := Except CallError (Store × Release)

structure Owner where
  writer : Writer
  scope : Scope
  tenantId : Option Id
deriving Repr, DecidableEq

def Release.owner (r : Release) : Owner := ⟨r.writer, r.scope, r.tenantId⟩

/-- `s[:n]`. -/
def cut (s : String) (n : Nat) : String := String.ofList (s.toList.take n)

/-! ## Statements -/

/-- A row that stands in the way of a unique index. -/
def clashes (row other : Release) : Bool :=
  other.releaseId ≠ row.releaseId && other.owner = row.owner &&
    (other.status = .active && row.status = .active ||
      other.trainKind = .regular && row.trainKind = .regular && row.trainMonth.isSome &&
        other.trainMonth = row.trainMonth ||
      other.releaseNo = row.releaseNo)

def runsExist (ev : Evidence) (row : Release) : Bool :=
  [row.r0RunId, row.evalRunId, row.shadowRunId].all fun id => id.all fun i => (ev.runs.get? i).isSome

/-- Storing a row the trigger let through. -/
def store (w : World) (s : Store) (row : Release) : Except CallError Store :=
  if s.rows.any fun x => clashes row x.2 then .error (.dbRefused .unique)
  else if runsExist w.ev row then .ok (s.upsert row.releaseId row)
  else .error (.dbRefused .check)

/-- `UPDATE … SET … WHERE release_id = old`. -/
def update (w : World) (s : Store) (old new : Release) : Except CallError (Store × Release) :=
  match updateRow w.ev w.now w.today old new with
  | .error e => .error (.dbRefused e)
  | .ok row => (store w s row).map fun s' => (s', row)

def refuse {α : Type} (http : Nat) (code : String) : Except CallError α := .error (.refused http code)

def refuseWhen (c : Bool) (http : Nat) (code : String) : Except CallError Unit :=
  if c then refuse http code else .ok ()

def dbRefuseWhen (c : Bool) (e : Raised) : Except CallError Unit :=
  if c then .error (.dbRefused e) else .ok ()

def answered : Answer → Except CallError Unit
  | .ok _ => .ok ()
  | .error (.problem p) => .error (.refused 409 p.code)
  | .error (.raised e) => .error (.raised e)

/-- `get_release`. -/
def found (s : Store) (id : Id) : Except CallError Release :=
  match s.get? id with
  | none => refuse 404 "not_found"
  | some r => .ok r

def activeOf (s : Store) (o : Owner) : Option Release :=
  (s.rows.map Prod.snd).find? fun r => r.owner = o && r.status = .active

/-! ## Drafts -/

structure DraftArgs where
  id : Id
  owner : Owner
  ruleIds : List Id
  emergency : Bool
  emergencyReason : Option EmergencyReason
  emergencyRef : Option Id

def trainKindFor (cls : ContentClass) (emergency : Bool) : TrainKind :=
  match cls with
  | .empty => .baseline
  | .lexiconOnly => .lexicon
  | _ => if emergency then .emergency else .regular

/-- `coalesce(max(release_no) + 1, 0)` of an owner. -/
def nextNo (s : Store) (o : Owner) : Nat :=
  ((s.rows.filter fun x => x.2.owner = o).map fun x => x.2.releaseNo + 1).foldr max 0

def draftRow (a : DraftArgs) (cls : ContentClass) (no : Nat) : Release where
  releaseId := a.id
  writer := a.owner.writer
  scope := a.owner.scope
  tenantId := a.owner.tenantId
  releaseNo := no
  trainKind := trainKindFor cls a.emergency
  contentClass := cls
  ruleIds := a.ruleIds.dedup.map some
  status := .draft
  r0RunId := none
  evalRunId := none
  shadowRunId := none
  previousReleaseId := none
  trainMonth := none
  emergencyReason := if trainKindFor cls a.emergency = .emergency then a.emergencyReason else none
  emergencyRef := if trainKindFor cls a.emergency = .emergency then a.emergencyRef else none
  approvedBy := none
  approvedAt := none
  approvalRef := none
  activatedAt := none
  retiredAt := none
  retiredReason := none
  rejectedBy := none
  rejectedReason := none

/-- What an emergency draft needs. -/
def emergencyAnswer (w : World) (a : DraftArgs) (kind : TrainKind) : Except CallError Unit :=
  if kind = .emergency then do
    refuseWhen (a.emergencyReason.isNone || a.emergencyRef.isNone) 422 "invalid"
    refuseWhen (!w.hardStop) 409 "no_hard_stop"
  else .ok ()

/-- `INSERT`, with an id that `gen_random_uuid` gives to no other release. -/
def insert (w : World) (s : Store) (row : Release) : Outcome := do
  dbRefuseWhen (s.get? row.releaseId).isSome .unique
  match guardRules w.ev row true false false with
  | .error e => .error (.dbRefused e)
  | .ok _ => do
    dbRefuseWhen (!row.tableChecks) .check
    (store w s row).map fun s' => (s', row)

def createDraft (w : World) (s : Store) (a : DraftArgs) : Outcome := do
  refuseWhen (decide (a.owner.scope = .platform) != a.owner.tenantId.isNone) 422 "invalid"
  refuseWhen (40 < a.ruleIds.dedup.length) 422 "invalid"
  let rules := w.ev.rulesOf (a.ruleIds.dedup.map some)
  let row := draftRow a (contentClassOf (rules.map fun x => x.2.kind)) (nextNo s a.owner)
  refuseWhen (rules.length ≠ a.ruleIds.dedup.length || rules.any fun x => foreignRule row x.2) 409
    "rule_isolation"
  emergencyAnswer w a row.trainKind
  refuseWhen (row.releaseNo = 0 && row.contentClass ≠ .empty) 409 "release0_first"
  insert w s row

/-! ## Evidence, approval, rejection -/

structure EvidenceArgs where
  r0RunId : Option Id
  evalRunId : Option Id
  shadowRunId : Option Id

/-- A run named now must be there and be a run of this release. -/
def attachable (w : World) (r : Release) (slot : Slot) (id : Option Id) : Except CallError Unit :=
  match id with
  | none => .ok ()
  | some i =>
    match w.ev.runs.get? i with
    | none => refuse 409 (slot.name ++ "_missing")
    | some run => answered (releaseLinkProblem w.lim (some run) r slot)

def attachEvidence (w : World) (s : Store) (id : Id) (a : EvidenceArgs) : Outcome := do
  let r ← found s id
  refuseWhen (!(r.status = .draft || r.status = .evaluated)) 409 "not_editable"
  attachable w r .eval a.evalRunId
  attachable w r .shadow a.shadowRunId
  let named :=
    { r with
      r0RunId := a.r0RunId.or r.r0RunId
      evalRunId := a.evalRunId.or r.evalRunId
      shadowRunId := a.shadowRunId.or r.shadowRunId }
  let complete := r.contentClass.need.all fun slot => (named.runId slot).isSome
  update w s r { named with status := if complete ∧ r.status = .draft then .evaluated else r.status }

def isAgent (actor : String) : Bool := "agent:".toList.isPrefixOf actor.toList

def approve (w : World) (s : Store) (id : Id) (approvedBy : String) (approvalRef : Option String)
    (allowAgent : Bool) : Outcome := do
  let r ← found s id
  let agent := allowAgent && isAgent approvedBy && r.contentClass = .empty && approvalRef.any (· ≠ "")
  refuseWhen (!(w.human approvedBy || agent)) 403 "no_actor"
  refuseWhen (r.status ≠ .evaluated) 409 "not_evaluated"
  update w s r
    { r with
      status := .approved
      approvedBy := some (cut approvedBy 128)
      approvedAt := some w.now
      approvalRef := (approvalRef.filter (· ≠ "")).map fun t => cut t 300 }

def reject (w : World) (s : Store) (id : Id) (actor reason : String) : Outcome := do
  let r ← found s id
  refuseWhen (!(r.status = .draft || r.status = .evaluated || r.status = .approved)) 409 "not_rejectable"
  update w s r
    { r with
      status := .rejected
      rejectedBy := some (cut actor 128)
      rejectedReason := some (cut reason 500) }

/-! ## Activation and the ways back -/

def wired (writer : Writer) (cls : ContentClass) : Bool :=
  match writer, cls with
  | _, .empty => true
  | _, .rules => true
  | .t2, .repairHintOnly => false
  | _, .repairHintOnly => true
  | _, .lexiconOnly => false

/-- What a first activation asks besides the evidence. -/
def firstAnswer (w : World) (r : Release) : Except CallError Unit :=
  match w.r1Gate with
  | some code => do
    refuseWhen (r.contentClass ≠ .empty) 409 code
    refuseWhen w.neverUse 409 "exemplar_never"
  | none => refuseWhen w.neverUse 409 "exemplar_never"

def check (w : World) (r : Release) (first : Bool) : Except CallError Unit := do
  answered (evidenceProblem w.lim w.ev r first w.today)
  if first then firstAnswer w r else .ok ()

/-- Retiring the release that was active (`superseded`). -/
def supersede (w : World) (s : Store) : Option Release → Except CallError Store
  | none => .ok s
  | some current =>
    (update w s current { current with status := .retired, retiredReason := some "superseded" }).map Prod.fst

def activate (w : World) (s : Store) (id : Id) (enforceWiring : Bool) : Outcome := do
  let r ← found s id
  refuseWhen (r.status ≠ .approved) 409 "not_approved"
  refuseWhen (enforceWiring && !wired r.writer r.contentClass) 409 "content_not_wired"
  check w r true
  let current := activeOf s r.owner
  let s' ← supersede w s current
  update w s' r
    { r with
      status := .active
      previousReleaseId := if current.isSome then current.map Release.releaseId else r.previousReleaseId }

def rollbackReason (reason : String) : String := cut (rollbackPrefix ++ " " ++ reason) 500

def rollback (w : World) (s : Store) (id : Id) (reason : String) : Outcome := do
  let r ← found s id
  refuseWhen (r.status ≠ .active) 409 "not_active"
  match r.previousReleaseId.bind s.get? with
  | none => refuse 409 "no_previous"
  | some prev => do
    answered (transitionProblem prev.status .active prev.retiredReason)
    check w prev false
    let (s', _) ← update w s r { r with status := .retired, retiredReason := some (rollbackReason reason) }
    update w s' prev { prev with status := .active }

def retireWithoutPrevious (w : World) (s : Store) (id : Id) (reason : String) : Outcome := do
  let r ← found s id
  refuseWhen (r.status ≠ .active) 409 "not_active"
  refuseWhen (r.scope ≠ .tenant || r.previousReleaseId.isSome) 409 "use_rollback"
  update w s r { r with status := .retired, retiredReason := some (rollbackReason reason) }

/-! ## Runs of calls -/

inductive Call where
  | createDraft (a : DraftArgs)
  | attachEvidence (id : Id) (a : EvidenceArgs)
  | approve (id : Id) (approvedBy : String) (approvalRef : Option String) (allowAgent : Bool)
  | reject (id : Id) (actor reason : String)
  | activate (id : Id) (enforceWiring : Bool)
  | rollback (id : Id) (reason : String)
  | retireWithoutPrevious (id : Id) (reason : String)

def call (w : World) (s : Store) : Call → Outcome
  | .createDraft a => createDraft w s a
  | .attachEvidence id a => attachEvidence w s id a
  | .approve id approvedBy approvalRef allowAgent => approve w s id approvedBy approvalRef allowAgent
  | .reject id actor reason => reject w s id actor reason
  | .activate id enforceWiring => activate w s id enforceWiring
  | .rollback id reason => rollback w s id reason
  | .retireWithoutPrevious id reason => retireWithoutPrevious w s id reason

def stepCall (s : Store) (x : World × Call) : Store :=
  match call x.1 s x.2 with
  | .ok (s', _) => s'
  | .error _ => s

end CisApp.Releases
