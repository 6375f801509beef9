import CisApp.Lib.Double
import CisApp.Releases.Row

/-! The API's half of the release gate (`evidence_problem`).

The function answers with the first problem it finds, so each rule is an `Answer` and the whole is
their sequence.  A run's `details` arrive as text and go through `json.loads`, which gives up with a
`ValueError` on an integer of too many digits (caught: the details are then empty) and with a
`RecursionError` on a nesting too deep (not caught).  An integer that fits no double makes `float`
raise an `OverflowError`. -/

namespace CisApp.Releases

inductive PyErr where
  | valueError
  | overflowError
  | recursionError
  | typeError
deriving Repr, DecidableEq

/-- Why a release may not become active, with what the text of the answer is made of. -/
inductive Problem where
  | notApproved
  | badTransition (old new : Status)
  | rolledBack
  | missing (slot : Slot)
  | wrongWriter (slot : Slot)
  | unfinished (slot : Slot)
  | notPassed (slot : Slot) (kind : RunKind) (verdict : Option Verdict)
  | wrongRelease (slot : Slot)
  | seededFault
  | notByteIdentical
  | ruleMissing (ids : List (Option Id))
  | ruleIsolation (id : Id)
  | classMismatch
  | rulesNotApproved (ids : List Id)
  | trainClosed (month : Date)
deriving Repr, DecidableEq

/-- The code of the answer. -/
def Problem.code : Problem → String
  | .notApproved => "not_approved"
  | .badTransition _ _ => "bad_transition"
  | .rolledBack => "rolled_back"
  | .missing slot => slot.name ++ "_missing"
  | .wrongWriter slot => slot.name ++ "_wrong_writer"
  | .unfinished slot => slot.name ++ "_unfinished"
  | .notPassed slot _ _ => slot.name ++ "_not_passed"
  | .wrongRelease slot => slot.name ++ "_wrong_release"
  | .seededFault => "eval_seeded_fault"
  | .notByteIdentical => "r0_not_byte_identical"
  | .ruleMissing _ => "rule_missing"
  | .ruleIsolation _ => "rule_isolation"
  | .classMismatch => "class_mismatch"
  | .rulesNotApproved _ => "rules_not_approved"
  | .trainClosed _ => "train_closed"

inductive Refusal where
  | problem (p : Problem)
  | raised (e : PyErr)
deriving Repr, DecidableEq

/-- `ok` is the `None` of the source. -/
abbrev Answer := Except Refusal Unit

def refuseIf (c : Bool) (p : Problem) : Answer := if c then .error (.problem p) else .ok ()

/-! ## Details -/

/-- What `json.loads` runs into: the digits of an integer and the nesting it can follow. -/
structure Limits where
  digits : Nat
  depth : Nat

mutual
/-- Reading a value, with the first error in the order of its text. -/
def loads (digits : Nat) : Json → Nat → Except PyErr Unit
  | .num m s, _ => if s = 0 ∧ 10 ^ digits ≤ m.natAbs then .error .valueError else .ok ()
  | .arr xs, depth =>
    match depth with
    | 0 => .error .recursionError
    | d + 1 => loadsAll digits xs d
  | .obj kvs, depth =>
    match depth with
    | 0 => .error .recursionError
    | d + 1 => loadsFields digits kvs d
  | .null, _ => .ok ()
  | .bool _, _ => .ok ()
  | .str _, _ => .ok ()

def loadsAll (digits : Nat) : List Json → Nat → Except PyErr Unit
  | [], _ => .ok ()
  | x :: xs, depth =>
    match loads digits x depth with
    | .ok _ => loadsAll digits xs depth
    | .error e => .error e

def loadsFields (digits : Nat) : List (String × Json) → Nat → Except PyErr Unit
  | [], _ => .ok ()
  | (_, v) :: kvs, depth =>
    match loads digits v depth with
    | .ok _ => loadsFields digits kvs depth
    | .error e => .error e
end

def loadsDetails (lim : Limits) (run : EvalRun) : Except PyErr Unit :=
  match run.details with
  | none => .ok ()
  | some j => loads lim.digits j lim.depth

/-- `_details`. -/
def detailsOf (lim : Limits) (run : EvalRun) : Except Refusal JObj :=
  match loadsDetails lim run with
  | .ok _ => .ok run.object
  | .error .valueError => .ok []
  | .error e => .error (.raised e)

def decimal (m : Int) (s : Nat) : ℚ := m / 10 ^ s

/-- `_num` of a value. -/
def num (j : Option Json) : Except Refusal (Option Double) :=
  match j with
  | some (.num m s) =>
    let d := Double.ofRat (decimal m s)
    if s = 0 ∧ d.isInf then .error (.raised .overflowError) else .ok (some d)
  | _ => .ok none

/-- `if v:`. -/
def truthy : Option Json → Bool
  | none => false
  | some .null => false
  | some (.bool b) => b
  | some (.num m s) => if s = 0 then m ≠ 0 else !(Double.ofRat (decimal m s)).isZero
  | some (.str s) => s ≠ ""
  | some (.arr xs) => !xs.isEmpty
  | some (.obj kvs) => !kvs.isEmpty

/-- `v == "release"`. -/
def isRelease : Json → Bool
  | .str s => s = "release"
  | _ => false

/-! ## Runs -/

def runProblem (run? : Option EvalRun) (writer : Writer) (slot : Slot)
    (okKinds : List (RunKind × Verdict)) : Answer :=
  match run? with
  | none => .error (.problem (.missing slot))
  | some run => do
    refuseIf (run.pipeline ≠ .writingMemory || run.writer ≠ some writer) (.wrongWriter slot)
    refuseIf run.finishedAt.isNone (.unfinished slot)
    refuseIf (okKinds.lookup run.runKind ≠ run.verdict) (.notPassed slot run.runKind run.verdict)

def releaseLinkProblem (lim : Limits) (run? : Option EvalRun) (r : Release) (slot : Slot) : Answer :=
  match run? with
  | none => .ok ()
  | some run =>
    if slot = .r0 then .ok ()
    else if slot = .eval ∧ run.runKind = .baselineImport then .ok ()
    else do
      refuseIf (run.releaseId ≠ some r.releaseId) (.wrongRelease slot)
      if slot = .eval ∧ run.runKind = .r2 then
        let d ← detailsOf lim run
        refuseIf (truthy (d.at? "seeded_fault")) .seededFault
        refuseIf (!(isRelease ((d.at? "candidate").getD (.str "release")))) (.wrongRelease .eval)

def transitions : List (Status × Status) :=
  [(.draft, .evaluated), (.draft, .rejected), (.evaluated, .approved), (.evaluated, .rejected),
    (.evaluated, .draft), (.approved, .active), (.approved, .rejected), (.active, .retired),
    (.retired, .active)]

def rollbackPrefix : String := "rollback:"

/-- A reason `startswith` the mark of a rollback. -/
def isRollback (reason : String) : Bool := rollbackPrefix.toList.isPrefixOf reason.toList

def transitionProblem (old new : Status) (retiredReason : Option String) : Answer := do
  refuseIf (!transitions.contains (old, new)) (.badTransition old new)
  refuseIf (old = .retired && new = .active && isRollback (retiredReason.getD "")) .rolledBack

def minR0Inputs : ℚ := 20

/-- The R0 replay of an empty release. -/
def byteIdentical (lim : Limits) (run : EvalRun) : Answer := do
  let d ← detailsOf lim run
  let diffs ← num (d.at? "byte_diffs")
  let inputs ← num (d.at? "inputs")
  refuseIf (!(diffs.any Double.isZero) || (inputs.getD (.finite 0)).lt minR0Inputs) .notByteIdentical

def r0Problem (lim : Limits) (ev : Evidence) (r : Release) : Answer := do
  runProblem (ev.run? r .r0) r.writer .r0 [(.r0Replay, .pass)]
  if r.contentClass = .empty then
    match ev.run? r .r0 with
    | none => pure ()
    | some run => byteIdentical lim run

def evalKinds (cls : ContentClass) : List (RunKind × Verdict) :=
  if cls = .empty then [(.r2, .pass), (.baselineImport, .baseline)] else [(.r2, .pass)]

def evalProblem (lim : Limits) (ev : Evidence) (r : Release) : Answer := do
  runProblem (ev.run? r .eval) r.writer .eval (evalKinds r.contentClass)
  releaseLinkProblem lim (ev.run? r .eval) r .eval

def shadowProblem (lim : Limits) (ev : Evidence) (r : Release) : Answer := do
  runProblem (ev.run? r .shadow) r.writer .shadow [(.shadow, .pass)]
  releaseLinkProblem lim (ev.run? r .shadow) r .shadow

def slotProblem (lim : Limits) (ev : Evidence) (r : Release) : Slot → Answer
  | .r0 => r0Problem lim ev r
  | .eval => evalProblem lim ev r
  | .shadow => shadowProblem lim ev r

/-! ## Rules -/

def contentClassOf (kinds : List RuleKind) : ContentClass :=
  if kinds = [] then .empty
  else if kinds.all (· = .lexicon) then .lexiconOnly
  else if kinds.all (· = .repairHint) then .repairHintOnly
  else .rules

def foreignRule (r : Release) (rule : WritingRule) : Bool :=
  rule.writer ≠ r.writer || rule.scope ≠ r.scope || rule.tenantId ≠ r.tenantId

/-- Ids that no rule has.  `sorted` cannot order a NULL among texts. -/
def ruleMissing (ids : List (Option Id)) (found : List (Id × WritingRule)) : Answer :=
  let missing := (ids.filter fun id => !(found.any fun x => some x.1 = id)).dedup
  if missing = [] then .ok ()
  else if missing.contains none ∧ missing.length ≠ 1 then .error (.raised .typeError)
  else .error (.problem (.ruleMissing missing))

def ruleIsolation (r : Release) (found : List (Id × WritingRule)) : Answer :=
  match found.find? fun x => foreignRule r x.2 with
  | some x => .error (.problem (.ruleIsolation x.1))
  | none => .ok ()

def rulesReady (found : List (Id × WritingRule)) : Answer :=
  let unready := (found.filter fun x => !x.2.ready).map Prod.fst
  refuseIf (unready ≠ []) (.rulesNotApproved unready)

def answerAll : List Answer → Answer
  | [] => .ok ()
  | a :: as =>
    match a with
    | .ok _ => answerAll as
    | .error e => .error e

def rulesProblem (r : Release) (found : List (Id × WritingRule)) (first : Bool) : Answer :=
  if r.ruleIds = [] then .ok ()
  else
    answerAll
      [ruleMissing r.ruleIds found, ruleIsolation r found,
        refuseIf (contentClassOf (found.map fun x => x.2.kind) ≠ r.contentClass) .classMismatch,
        if first then rulesReady found else .ok ()]

def trainProblem (ev : Evidence) (r : Release) (first : Bool) (today : Date) : Answer :=
  if r.trainKind = .regular ∧ first then
    let month := r.trainMonth.getD today.firstOfMonth
    refuseIf ((ev.closedMonth r.writer).any fun closed => month.le closed) (.trainClosed month)
  else .ok ()

/-! ## The gate -/

/-- `evidence_problem` on the release's own runs, rules and closed month. -/
def evidenceProblem (lim : Limits) (ev : Evidence) (r : Release) (first : Bool) (today : Date) : Answer :=
  answerAll
    ((if first then refuseIf (r.status ≠ .approved) .notApproved
      else transitionProblem r.status .active r.retiredReason) ::
    refuseIf (!(r.approvedBy.any (· ≠ "") && r.approvedAt.isSome)) .notApproved ::
    (r.contentClass.need.map fun slot => refuseIf (r.runId slot).isNone (.missing slot)) ++
    r.contentClass.need.map (slotProblem lim ev r) ++
    [rulesProblem r (ev.rulesOf r.ruleIds) first, trainProblem ev r first today])

end CisApp.Releases
