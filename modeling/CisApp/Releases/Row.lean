import CisApp.Lib.Json
import CisApp.Lib.Table

/-! The rows of the release gate: releases, evaluation runs and writing rules.

`shared.writing_memory_release` with the columns its guard, its checks and the API read, in the types
the table's own CHECKs leave them.  `rule_ids` is an array column, so a NULL may stand in it.  The
dates are compared only, by year, month and day. -/

namespace CisApp.Releases

abbrev Id := Nat

inductive Writer where
  | a1
  | t2
  | t9Blog
  | t9Social
deriving Repr, DecidableEq

inductive Scope where
  | platform
  | tenant
deriving Repr, DecidableEq

inductive TrainKind where
  | baseline
  | regular
  | emergency
  | lexicon
deriving Repr, DecidableEq

inductive ContentClass where
  | empty
  | lexiconOnly
  | repairHintOnly
  | rules
deriving Repr, DecidableEq

inductive Status where
  | draft
  | evaluated
  | approved
  | active
  | retired
  | rejected
deriving Repr, DecidableEq

inductive EmergencyReason where
  | hardStop1
  | hardStop2
  | hardStop3
deriving Repr, DecidableEq

structure Date where
  year : Nat
  month : Nat
  day : Nat
deriving Repr, DecidableEq

/-- `self <= other`. -/
def Date.le (a b : Date) : Bool :=
  a.year < b.year || a.year = b.year && (a.month < b.month || a.month = b.month && a.day ≤ b.day)

/-- `date_trunc('month', …)`, `replace(day=1)`. -/
def Date.firstOfMonth (d : Date) : Date := { d with day := 1 }

/-! ## Evaluation runs -/

inductive Pipeline where
  | s1Old
  | s1FromAtom
  | writingMemory
deriving Repr, DecidableEq

inductive RunKind where
  | regression
  | baselineImport
  | r0Replay
  | r1
  | r2
  | reverify
  | probe
  | shadow
deriving Repr, DecidableEq

inductive Verdict where
  | pass
  | fail
  | baseline
  | informative
  | invalid
deriving Repr, DecidableEq

/-- A row of `shared.prompt_eval_runs`. -/
structure EvalRun where
  pipeline : Pipeline
  writer : Option Writer
  runKind : RunKind
  verdict : Option Verdict
  finishedAt : Option Nat
  releaseId : Option Id
  details : Option Json

/-- The object the keys of `details` are read from; a value of another shape has none. -/
def EvalRun.object (run : EvalRun) : JObj :=
  match run.details with
  | some (.obj o) => o
  | _ => []

/-! ## Writing rules -/

inductive RuleKind where
  | lexicon
  | preferenceSummary
  | repairHint
  | writerInstruction
deriving Repr, DecidableEq

inductive RuleStatus where
  | candidate
  | rejected
  | approved
  | active
  | expired
deriving Repr, DecidableEq

structure WritingRule where
  kind : RuleKind
  scope : Scope
  tenantId : Option Id
  writer : Writer
  status : RuleStatus
deriving Repr, DecidableEq

/-- A rule of the release's status `approved` or `active`. -/
def WritingRule.ready (rule : WritingRule) : Bool := rule.status = .approved || rule.status = .active

/-! ## Releases -/

structure Release where
  releaseId : Id
  writer : Writer
  scope : Scope
  tenantId : Option Id
  releaseNo : Nat
  trainKind : TrainKind
  contentClass : ContentClass
  ruleIds : List (Option Id)
  status : Status
  r0RunId : Option Id
  evalRunId : Option Id
  shadowRunId : Option Id
  previousReleaseId : Option Id
  trainMonth : Option Date
  emergencyReason : Option EmergencyReason
  emergencyRef : Option Id
  approvedBy : Option String
  approvedAt : Option Nat
  approvalRef : Option String
  activatedAt : Option Nat
  retiredAt : Option Nat
  retiredReason : Option String
  rejectedBy : Option String
  rejectedReason : Option String
deriving Repr, DecidableEq

/-- `writing_memory_release_evidence_check`. -/
def Release.evidenceCheck (r : Release) : Bool :=
  !(r.status = .active || r.status = .retired) ||
    r.contentClass = .empty && r.r0RunId.isSome && r.evalRunId.isSome ||
    r.contentClass = .lexiconOnly && r.r0RunId.isSome ||
    (r.contentClass = .repairHintOnly || r.contentClass = .rules) && r.evalRunId.isSome &&
      r.shadowRunId.isSome

/-- `writing_memory_release_approval_check`. -/
def Release.approvalCheck (r : Release) : Bool :=
  (!(r.status = .approved || r.status = .active || r.status = .retired) ||
    r.approvedBy.isSome && r.approvedAt.isSome) &&
  (!(r.status = .active || r.status = .retired) || r.activatedAt.isSome) &&
  (r.status ≠ .retired || r.retiredAt.isSome && r.retiredReason.isSome) &&
  (r.status ≠ .rejected || r.rejectedBy.isSome && r.rejectedReason.isSome)

/-- `writing_memory_release_class_check`. -/
def Release.classCheck (r : Release) : Bool :=
  (decide (r.contentClass = .empty) == decide (r.trainKind = .baseline)) &&
  (decide (r.contentClass = .lexiconOnly) == decide (r.trainKind = .lexicon)) &&
  (decide (r.contentClass = .empty) == decide (r.ruleIds.length = 0)) &&
  (r.releaseNo ≠ 0 || r.contentClass = .empty)

/-- `writing_memory_release_emergency_check`. -/
def Release.emergencyCheck (r : Release) : Bool :=
  (decide (r.trainKind = .emergency) == r.emergencyReason.isSome) &&
  (r.emergencyReason.isNone == r.emergencyRef.isNone)

/-- `writing_memory_release_train_check`. -/
def Release.trainCheck (r : Release) : Bool :=
  (match r.trainMonth with
    | none => true
    | some month => r.trainKind = .regular && month.day = 1) &&
  (r.trainKind ≠ .regular || !(r.status = .active || r.status = .retired) || r.trainMonth.isSome)

/-- `writing_memory_release_scope_tenant_ck`. -/
def Release.scopeCheck (r : Release) : Bool :=
  r.scope = .platform && r.tenantId.isNone || r.scope = .tenant && r.tenantId.isSome

/-- The lengths of `writing_memory_release_size_check`. -/
def Release.sizeCheck (r : Release) : Bool :=
  r.ruleIds.length ≤ 40 && (r.approvedBy.map String.length).getD 0 ≤ 128 &&
  (r.approvalRef.map String.length).getD 0 ≤ 300 && (r.retiredReason.map String.length).getD 0 ≤ 500 &&
  (r.rejectedBy.map String.length).getD 0 ≤ 128 && (r.rejectedReason.map String.length).getD 0 ≤ 500

def Release.tableChecks (r : Release) : Bool :=
  r.scopeCheck && r.classCheck && r.evidenceCheck && r.approvalCheck && r.emergencyCheck &&
    r.trainCheck && r.sizeCheck

/-! ## The evidence slots -/

inductive Slot where
  | r0
  | eval
  | shadow
deriving Repr, DecidableEq

def Slot.name : Slot → String
  | .r0 => "r0"
  | .eval => "eval"
  | .shadow => "shadow"

def Release.runId (r : Release) : Slot → Option Id
  | .r0 => r.r0RunId
  | .eval => r.evalRunId
  | .shadow => r.shadowRunId

def ContentClass.need : ContentClass → List Slot
  | .empty => [.r0, .eval]
  | .lexiconOnly => [.r0]
  | .repairHintOnly => [.eval, .shadow]
  | .rules => [.eval, .shadow]

structure Evidence where
  runs : Table Id EvalRun
  rules : Table Id WritingRule
  closedMonth : Writer → Option Date

def Evidence.run? (ev : Evidence) (r : Release) (slot : Slot) : Option EvalRun :=
  (r.runId slot).bind ev.runs.get?

/-- The rules of an array of ids (`rule_id = ANY (…)`). -/
def Evidence.rulesOf (ev : Evidence) (ids : List (Option Id)) : List (Id × WritingRule) :=
  ev.rules.rows.filter fun x => ids.contains (some x.1)

theorem Evidence.mem_rulesOf {ev : Evidence} {ids : List (Option Id)} {id : Id} {rule : WritingRule} :
    (id, rule) ∈ ev.rulesOf ids ↔ ev.rules.get? id = some rule ∧ some id ∈ ids := by
  rw [Table.get?_eq_some_iff, Evidence.rulesOf, List.mem_filter, List.contains_iff_mem]

end CisApp.Releases
