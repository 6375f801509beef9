import CisApp.Lib.Tri
import CisApp.Releases.Row

/-! The database's half of the release gate: the trigger `writing_memory_release_guard` as CIS 292
leaves it, and an UPDATE of a release.

The conditions of the trigger are SQL conditions (`Tri`): `verdict` is a nullable column and
`details` may be any JSON, so a comparison may be NULL. -/

namespace CisApp.Releases

/-- What the database refuses with. -/
inductive Raised where
  | identityFixed
  | evidenceFixed
  | sameStatus
  | transition
  | rolledBack
  | foreignRules
  | ruleKinds
  | rulesNotApproved
  | r0Run
  | byteDiffs
  | evalRun
  | evalLink
  | shadowRun
  | shadowLink
  | trainClosed
  | check
  | unique
deriving Repr, DecidableEq

abbrev Guarded := Except Raised Unit

def raiseIf (c : Tri) (e : Raised) : Guarded := if c.holds then .error e else .ok ()

def raiseFirst : List Guarded → Guarded
  | [] => .ok ()
  | g :: gs =>
    match g with
    | .ok _ => raiseFirst gs
    | .error e => .error e

/-! ## The row alone -/

/-- The columns fixed once a release leaves draft. -/
def Release.sameIdentity (a b : Release) : Bool :=
  a.writer = b.writer && a.scope = b.scope && a.tenantId = b.tenantId && a.releaseNo = b.releaseNo &&
    a.trainKind = b.trainKind && a.contentClass = b.contentClass && a.ruleIds = b.ruleIds &&
    a.emergencyReason = b.emergencyReason && a.emergencyRef = b.emergencyRef

/-- The columns fixed from approval on. -/
def Release.sameEvidence (a b : Release) : Bool :=
  a.r0RunId = b.r0RunId && a.evalRunId = b.evalRunId && a.shadowRunId = b.shadowRunId &&
    a.approvedBy = b.approvedBy && a.approvedAt = b.approvedAt && a.approvalRef = b.approvalRef

/-- The columns a same-status update leaves, `previous_release_id` apart. -/
def Release.sameHistory (a b : Release) : Bool :=
  a.activatedAt = b.activatedAt && a.retiredAt = b.retiredAt && a.retiredReason = b.retiredReason &&
    a.trainMonth = b.trainMonth && a.rejectedBy = b.rejectedBy && a.rejectedReason = b.rejectedReason

def guardTransitions : List (Status × Status) :=
  [(.draft, .evaluated), (.draft, .rejected), (.evaluated, .approved), (.evaluated, .rejected),
    (.evaluated, .draft), (.approved, .active), (.approved, .rejected), (.active, .retired),
    (.retired, .active)]

/-- `retired_reason LIKE 'rollback:%'`. -/
def likeRollback (reason : Option String) : Tri :=
  reason.map fun s => "rollback:".toList.isPrefixOf s.toList

def guardRow (old new : Release) : Guarded :=
  raiseFirst
    [raiseIf (some (old.status ≠ .draft && !new.sameIdentity old)) .identityFixed,
      raiseIf (some ((old.status = .approved || old.status = .active || old.status = .retired ||
        old.status = .rejected) && !new.sameEvidence old)) .evidenceFixed,
      if new.status = old.status then
        raiseIf (some (!(old.status = .draft || old.status = .evaluated) &&
          (!new.sameHistory old || new.previousReleaseId ≠ old.previousReleaseId &&
            new.previousReleaseId.isSome))) .sameStatus
      else
        raiseFirst
          [raiseIf (some (!guardTransitions.contains (old.status, new.status))) .transition,
            raiseIf (Tri.and (some (old.status = .retired && new.status = .active))
              (likeRollback old.retiredReason)) .rolledBack]]

/-! ## Rules -/

def allRuleKinds : List RuleKind := [.lexicon, .preferenceSummary, .repairHint, .writerInstruction]

/-- `array_agg(DISTINCT r.kind ORDER BY r.kind)`: NULL over no rows. -/
def kindsOf (found : List (Id × WritingRule)) : Option (List RuleKind) :=
  if found = [] then none
  else some (allRuleKinds.filter fun k => found.any fun x => x.2.kind = k)

/-- An id that is bad for this release; `string_agg` leaves a NULL id out. -/
def badId (ev : Evidence) (new : Release) : Option Id → Bool
  | none => false
  | some id =>
    match ev.rules.get? id with
    | none => true
    | some rule => rule.writer ≠ new.writer || rule.scope ≠ new.scope || rule.tenantId ≠ new.tenantId

def guardRules (ev : Evidence) (new : Release) (rulesChanged activating firstAct : Bool) : Guarded :=
  if 0 < new.ruleIds.length ∧ (rulesChanged ∨ activating) then
    let found := ev.rulesOf new.ruleIds
    let kinds := kindsOf found
    raiseFirst
      [raiseIf (some (new.ruleIds.any (badId ev new))) .foreignRules,
        raiseIf (Tri.or (Tri.and (some (new.contentClass = .lexiconOnly))
            (Tri.not (Tri.eq kinds (some [.lexicon]))))
          (Tri.or (Tri.and (some (new.contentClass = .repairHintOnly))
            (Tri.not (Tri.eq kinds (some [.repairHint]))))
          (Tri.and (some (new.contentClass = .rules))
            (Tri.or (Tri.eq kinds (some [.lexicon])) (Tri.eq kinds (some [.repairHint])))))) .ruleKinds,
        raiseIf (some (firstAct && 0 < (found.filter fun x => !x.2.ready).length)) .rulesNotApproved]
  else .ok ()

/-! ## Evidence runs -/

def notOfWriter (run : EvalRun) (writer : Writer) : Bool :=
  run.pipeline ≠ .writingMemory || run.writer ≠ some writer || run.finishedAt.isNone

def numeric? (o : JObj) (k : String) : Option ℚ :=
  match o.at? k with
  | some (.num m s) => some (m / 10 ^ s)
  | _ => none

/-- `details ->> k`. -/
def text? (o : JObj) (k : String) : Option String := (o.at? k).bind Json.text?

def guardR0 (ev : Evidence) (new : Release) : Guarded :=
  match ev.run? new .r0 with
  | none => .error .r0Run
  | some run =>
    raiseFirst
      [raiseIf (some (notOfWriter run new.writer || run.runKind ≠ .r0Replay || run.verdict ≠ some .pass))
        .r0Run,
        raiseIf (some (new.contentClass = .empty && (numeric? run.object "byte_diffs" ≠ some 0 ||
          (numeric? run.object "inputs").getD 0 < 20))) .byteDiffs]

/-- The eval run passed, as the trigger asks it. -/
def evalPassed (new : Release) (run : EvalRun) : Tri :=
  Tri.or (Tri.and (some (run.runKind = .r2)) (Tri.eq run.verdict (some .pass)))
    (Tri.and (some (new.contentClass = .empty && run.runKind = .baselineImport))
      (Tri.eq run.verdict (some .baseline)))

def guardEval (ev : Evidence) (new : Release) : Guarded :=
  match ev.run? new .eval with
  | none => .error .evalRun
  | some run =>
    raiseFirst
      [raiseIf (Tri.or (some (notOfWriter run new.writer)) (Tri.not (evalPassed new run))) .evalRun,
        raiseIf (some (run.runKind = .r2 && (run.releaseId ≠ some new.releaseId ||
          (text? run.object "seeded_fault").getD "" ≠ "" ||
          (text? run.object "candidate").getD "release" ≠ "release"))) .evalLink]

def guardShadow (ev : Evidence) (new : Release) : Guarded :=
  match ev.run? new .shadow with
  | none => .error .shadowRun
  | some run =>
    raiseFirst
      [raiseIf (some (notOfWriter run new.writer || run.runKind ≠ .shadow || run.verdict ≠ some .pass))
        .shadowRun,
        raiseIf (some (run.releaseId ≠ some new.releaseId)) .shadowLink]

def guardSlot (ev : Evidence) (new : Release) : Slot → Guarded
  | .r0 => guardR0 ev new
  | .eval => guardEval ev new
  | .shadow => guardShadow ev new

/-! ## The trigger -/

def Release.onTrain (new : Release) (firstAct : Bool) (today : Date) : Option Date :=
  if new.trainKind = .regular ∧ firstAct then some (new.trainMonth.getD today.firstOfMonth)
  else new.trainMonth

def guardTrain (ev : Evidence) (new : Release) (firstAct : Bool) (today : Date) : Guarded :=
  if new.trainKind = .regular ∧ firstAct then
    let month := new.trainMonth.getD today.firstOfMonth
    raiseIf ((ev.closedMonth new.writer).map fun closed => month.le closed) .trainClosed
  else .ok ()

/-- The conditions of the trigger on an UPDATE. -/
def guardChecks (ev : Evidence) (today : Date) (old new : Release) : Guarded :=
  let activating := decide (new.status = .active) && decide (new.status ≠ old.status)
  let firstAct := activating && decide (old.status = .approved)
  raiseFirst
    (guardRow old new :: guardRules ev new (new.ruleIds ≠ old.ruleIds) activating firstAct ::
      (if activating then
        new.contentClass.need.map (guardSlot ev new) ++ [guardTrain ev new firstAct today]
      else []))

/-- What the trigger writes into the row. -/
def guardWrites (now : Nat) (today : Date) (old new : Release) : Release :=
  if new.status = old.status then new
  else if new.status = .active then
    { new with
      trainMonth := new.onTrain (old.status = .approved) today
      activatedAt := some now
      retiredAt := none
      retiredReason := none }
  else if new.status = .retired then { new with retiredAt := some (new.retiredAt.getD now) }
  else new

/-- The row an UPDATE stores, the unique indexes aside. -/
def updateRow (ev : Evidence) (now : Nat) (today : Date) (old new : Release) : Except Raised Release := do
  guardChecks ev today old new
  let row := guardWrites now today old new
  if row.tableChecks then pure row else .error .check

end CisApp.Releases
