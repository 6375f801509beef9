import CisApp.Gateway.Health
import CisApp.Lib.Sorted

/-!
# The route loop of the AI gateway

`LLMClient._call_route` (`shared/llm_client/client.py`): a stage's route is a
chain of rungs (model keys), tried in order until one answers.  A rung whose
plan is empty only because of refusing circuits (`sunkSkips`) would make no
provider call; the loop defers it (`sink`), and tries the deferred rungs last.

* `call` is the loop's inner function: sink check, deadline gate, the call.
* `callRoute` is the loop of the source, `plainRoute` the same loop with the
  sink check off: every rung in its place.
* `sameRoute_iff`: the two agree exactly when `GatesAgree` holds of the
  chain, that is when the deadline does not pass in front of a sunk rung or
  while a plan is computed.

The circuits do not change during a request, so a rung's plan is a field of
it.  What a planned model answers is a function of the time its attempts
start.  The time is the reading of `time.monotonic`, and passes in a plan and
in a call.
-/

namespace CisApp.Gateway

open Lib List Option

/-! ## Errors and ledger rows -/

/-- The classes of `shared/aa_llm/errors.py`. -/
inductive FailureClass where
  | accessDenied
  | quotaExhausted
  | throttled
  | credential
  | other
  | roleNotServed
  | deadline
  | budget
  | truncated
  | disabled
deriving Repr, DecidableEq

def ErrorClass.failure : ErrorClass → FailureClass
  | .accessDenied => .accessDenied
  | .quotaExhausted => .quotaExhausted
  | .throttled => .throttled
  | .credential => .credential
  | .other => .other

/-- The class as the registry stores it. -/
def ErrorClass.name : ErrorClass → String
  | .accessDenied => "access_denied"
  | .quotaExhausted => "quota_exhausted"
  | .throttled => "throttled"
  | .credential => "credential"
  | .other => "other"

def accountLevel (c : FailureClass) : Bool := c = .accessDenied || c = .quotaExhausted

/-- The class to raise `LLMAccessDenied` with when every attempt was refused at
account level. -/
def accountLevelClass (classes : List FailureClass) : Option FailureClass :=
  if classes = [] then none
  else
    let rest := classes.filter (· ≠ .roleNotServed)
    if rest = [] then some .roleNotServed
    else if rest.any (!accountLevel ·) then none
    else if rest.all (· = .quotaExhausted) then some .quotaExhausted
    else some .accessDenied

/-- The exception types the route loop tells apart. -/
inductive ExcType where
  | routeDeadlineExceeded
  | routeAttemptCapReached
  | circuitOpen
  | connectionBudgetExceeded
  | llmAccessDenied
  | unusableReply
  | billedUnusableReply
  | routeUnusableReply
  | runtimeError
  | named (name : String)
deriving Repr, DecidableEq

structure BilledUsage where
  model : String
  costUsd : Rat
deriving Repr, DecidableEq

/-- An exception: its type, its class (`classify`), its text, and what it
carries of billing and of connections. -/
structure Exc where
  type : ExcType
  cls : FailureClass
  text : String
  billedUsage : List BilledUsage := []
  loggedUsage : List BilledUsage := []
  connectionKeys : List String := []
deriving Repr, DecidableEq

/-- `isinstance(e, RouteDeadlineExceeded)`. -/
def Exc.stopsRoute (e : Exc) : Bool :=
  e.type = .routeDeadlineExceeded || e.type = .routeAttemptCapReached

/-- `isinstance(e, UnusableReply)`. -/
def Exc.isUnusable (e : Exc) : Bool :=
  e.type = .unusableReply || e.type = .billedUnusableReply || e.type = .routeUnusableReply

inductive LedgerStatus where
  | ok
  | refused
  | error
  | billedUnusable
  | truncated
deriving Repr, DecidableEq

/-- What a call writes to the ledger of one attempt; the route position is
the scope's. -/
structure AttemptRow where
  model : String
  status : LedgerStatus
  cls : FailureClass
  error : String
deriving Repr, DecidableEq

structure LedgerRow extends AttemptRow where
  position : Nat
deriving Repr, DecidableEq

def AttemptRow.at (r : AttemptRow) (position : Nat) : LedgerRow := { r with position }

def chars (n : Nat) (text : String) : String := String.ofList (text.toList.take n)

/-- A key between quotes, as `!r` prints it. -/
def quoted (key : String) : String := "'" ++ key ++ "'"

/-- `breaker.circuit_error`.  A class outside `RULES` counts as `other`. -/
def circuitError (key : String) (skips : List (String × Option ErrorClass)) : Exc :=
  let own := skips.map fun s => (s.2.getD .other).failure
  let classes := if own = [] then [.other] else own
  let cls := (accountLevelClass classes).getD
    (if classes.eraseDups.length = 1 then classes.headD .other else .other)
  let names := ", ".intercalate (skips.map fun s =>
    s.1 ++ " (" ++ (s.2.getD .other).name ++ ")")
  { type := .circuitOpen, cls,
    text := "Model " ++ quoted key ++ " not called: circuit open on " ++ names }

/-- The refused row of a model none of whose circuits lets a call through
(`attempt_outcome` of a `CircuitOpen`). -/
def refusedRow (key : String) (skips : List (String × Option ErrorClass)) : AttemptRow :=
  let e := circuitError key skips
  { model := key, status := .refused, cls := e.cls, error := chars 300 ("CircuitOpen: " ++ e.text) }

/-! ## Rungs -/

/-- A deployment plan: the deployments left, and why others were left out. -/
structure Plan where
  deployments : List String
  circuitSkips : List (String × Option ErrorClass)
  budgetSkips : List String
deriving Repr, DecidableEq

/-- `REFUSING_CIRCUIT_CLASSES`. -/
def refusing (c : Option ErrorClass) : Bool :=
  c = some .accessDenied || c = some .quotaExhausted || c = some .credential

/-- `vendor_route.sunk_skips`: the circuit skips of a plan that is empty only
because of circuits opened by a refusal. -/
def sunkSkips : Option Plan → Option (List (String × Option ErrorClass))
  | none => none
  | some plan =>
    if plan.deployments ≠ [] ∨ plan.budgetSkips ≠ [] then none
    else if plan.circuitSkips = [] ∨ plan.circuitSkips.any (!refusing ·.2) then none
    else some plan.circuitSkips

/-- What the call of a model did.  A call that raised has its ledger row: the
attempts' rows, or the row of `_logged_failure_net`. -/
structure Called (ρ : Type) where
  duration : Nat
  rows : List AttemptRow
  result : Except Exc ρ
  covered : ∀ e, result = .error e → rows ≠ []

/-- The plan the sink check computes for a rung, and the time it takes. -/
structure Check where
  duration : Nat
  plan : Option Plan
deriving Repr, DecidableEq

/-- A rung of the route.
`skipped` is the reason of a model the catalog does not have or has switched off.
`check` is `none` where the sink check makes no plan (`_NO_PLAN`). -/
structure Rung (ρ : Type) where
  key : String
  skipped : Option String
  check : Option Check
  call : Nat → Called ρ

variable {ρ : Type}

def Rung.planTime (rung : Rung ρ) : Nat := (rung.check.map (·.duration)).getD 0

/-- The first answer of `_sunk_rung`. -/
def Rung.sunk (rung : Rung ρ) : Option (List (String × Option ErrorClass)) :=
  rung.check.bind fun c => sunkSkips c.plan

/-- The circuit skips of an empty plan, on which `_call_plan` raises. -/
def Rung.emptied (rung : Rung ρ) : Option (List (String × Option ErrorClass)) :=
  rung.check.bind fun c => c.plan.bind fun plan =>
    if plan.deployments = [] ∧ plan.circuitSkips ≠ [] then some plan.circuitSkips else none

/-- `_call_key_logged` of a rung whose plan is made, at the time `start`. -/
def Rung.callKey (rung : Rung ρ) (start : Nat) : Called ρ :=
  match rung.emptied with
  | some skips =>
    { duration := 0, rows := [refusedRow rung.key skips],
      result := .error (circuitError rung.key skips), covered := by simp }
  | none => rung.call start

/-! ## The loop -/

/-- A request: its stage, its bound deadline (the moment, and the seconds the
stage allows), and `classify` of an error that has no class of its own. -/
structure RouteRequest where
  stage : String
  deadline : Option (Nat × Nat)
  textClass : ExcType → String → Option Exc → FailureClass

def RouteRequest.passed (req : RouteRequest) (clock : Nat) : Bool :=
  match req.deadline with
  | none => false
  | some (moment, _) => moment ≤ clock

structure SunkRung (ρ : Type) where
  position : Nat
  rung : Rung ρ
  skips : List (String × Option ErrorClass)

/-- The variables of `_call_route`, with the clock, the position in the attempt
scope and the rows written. -/
structure RouteState (ρ : Type) where
  clock : Nat
  position : Nat := 0
  rows : List LedgerRow := []
  errors : List String := []
  outcomes : List (Nat × String × Option Exc) := []
  unusableUsage : List BilledUsage := []
  allUnusable : Bool := true
  deferred : List (SunkRung ρ) := []

def failed (position : Nat) (key : String) (e : Exc) (s : RouteState ρ) : RouteState ρ :=
  let text := key ++ ": " ++ chars 200 e.text
  let billed := if e.isUnusable then e.billedUsage else []
  { s with
    errors := s.errors ++ [text]
    outcomes := s.outcomes ++ [(position, text, some e)]
    unusableUsage := s.unusableUsage ++ billed
    allUnusable := s.allUnusable && billed ≠ [] }

/-- How a rung's turn ends: the route goes on, a reply, or the route stops. -/
inductive Turn (ρ : Type) where
  | next (s : RouteState ρ)
  | answered (reply : ρ) (position : Nat) (s : RouteState ρ)
  | stopped (e : Exc) (s : RouteState ρ)

/-- The error of `_deadline_gate` before `position`. -/
def deadlineError (req : RouteRequest) (position : Nat) (key : String) (errors : List String) : Exc :=
  let seconds := (req.deadline.map (·.2)).getD 0
  let passedText := "route deadline of " ++ toString seconds ++ " s for stage " ++ quoted req.stage
    ++ " passed before route position " ++ toString position ++ " (" ++ key ++ ")"
  let tried := if errors = [] then ""
    else "; tried: " ++ chars 600 ("; ".intercalate errors)
  { type := .routeDeadlineExceeded, cls := .deadline, text := passedText ++ tried }

/-- The 0 USD row of the attempt a passed deadline did not start. -/
def deadlineRow (key : String) (e : Exc) : AttemptRow :=
  { model := key, status := .error, cls := .deadline,
    error := chars 300 ("RouteDeadlineExceeded: " ++ e.text) }

/-- The state after a call: its rows carry the rung's position. -/
def RouteState.after (s : RouteState ρ) (position start : Nat) (called : Called ρ) : RouteState ρ :=
  { s with
    clock := start + called.duration
    position := position
    rows := s.rows ++ called.rows.map (·.at position) }

/-- The call proper, at the time `start`. -/
def place (position : Nat) (rung : Rung ρ) (start : Nat) (s : RouteState ρ) : Turn ρ :=
  let called := rung.callKey start
  let s' := s.after position start called
  match called.result with
  | .ok reply => .answered reply position s'
  | .error e => if e.stopsRoute then .stopped e s' else .next (failed position rung.key e s')

/-- The inner `call`.  With `sink` the plan is made before the gate, and a sunk
rung is deferred; without it the plan is made by the call itself. -/
def call (req : RouteRequest) (sink : Bool) (position : Nat) (rung : Rung ρ) (s : RouteState ρ) :
    Turn ρ :=
  let planned := s.clock + rung.planTime
  let defers := if sink then rung.sunk else none
  match defers with
  | some skips =>
    .next { s with clock := planned, deferred := s.deferred ++ [⟨position, rung, skips⟩] }
  | none =>
    let clock := if sink then planned else s.clock
    if 0 < position ∧ req.passed clock then
      let e := deadlineError req position rung.key s.errors
      .stopped e { s with clock, rows := s.rows ++ [(deadlineRow rung.key e).at s.position] }
    else place position rung planned s

/-- One round of the `for` loop: a rung the catalog does not offer is skipped. -/
def visit (req : RouteRequest) (sink : Bool) (position : Nat) (rung : Rung ρ) (s : RouteState ρ) :
    Turn ρ :=
  match rung.skipped with
  | some reason =>
    let text := rung.key ++ ": skipped (" ++ reason ++ ")"
    .next { s with errors := s.errors ++ [text], outcomes := s.outcomes ++ [(position, text, none)] }
  | none => call req sink position rung s

def runRungs (req : RouteRequest) (sink : Bool) :
    Nat → List (Rung ρ) → RouteState ρ → Turn ρ
  | _, [], s => .next s
  | position, rung :: rest, s =>
    match visit req sink position rung s with
    | .next s' => runRungs req sink (position + 1) rest s'
    | turn => turn

/-- `_log_deferred`: the refused row a deferred rung would have written in place. -/
def logDeferred (d : SunkRung ρ) (s : RouteState ρ) : RouteState ρ :=
  { s with
    position := d.position
    rows := s.rows ++ [(refusedRow d.rung.key d.skips).at d.position] }

/-- The `while deferred` loop: after the deadline nothing is called. -/
def tryDeferred (req : RouteRequest) : List (SunkRung ρ) → RouteState ρ → Turn ρ
  | [], s => .next { s with deferred := [] }
  | d :: ds, s =>
    if req.passed s.clock then
      tryDeferred req ds
        (failed d.position d.rung.key (circuitError d.rung.key d.skips) (logDeferred d s))
    else
      match call req false d.position d.rung { s with deferred := ds } with
      | .next s' => tryDeferred req ds s'
      | turn => turn

def allFailed (req : RouteRequest) (message : String) (failures : List Exc) : Exc :=
  if failures ≠ [] ∧ failures.all (·.type = .connectionBudgetExceeded) then
    { type := .connectionBudgetExceeded
      cls := req.textClass .connectionBudgetExceeded message failures.getLast?
      text := message
      connectionKeys := (failures.flatMap (·.connectionKeys)).eraseDups }
  else
    match accountLevelClass (failures.map (·.cls)) with
    | some c => { type := .llmAccessDenied, cls := c, text := message }
    | none =>
      { type := .runtimeError
        cls := if .throttled ∈ failures.map (·.cls) then .throttled else .other
        text := message }

/-- The error of a route in which nothing answered: the outcomes in route order. -/
def routeError (req : RouteRequest) (s : RouteState ρ) : Exc :=
  let outcomes := sortBy (·.1) s.outcomes
  let message := "All models in the route failed for stage " ++ quoted req.stage ++ ": "
    ++ "; ".intercalate (outcomes.map (·.2.1))
  if s.allUnusable ∧ s.unusableUsage ≠ [] then
    { type := .routeUnusableReply
      cls := req.textClass .routeUnusableReply message none
      text := message
      loggedUsage := s.unusableUsage }
  else allFailed req message (outcomes.filterMap (·.2.2))

/-- A reply with its route position and fallback mark, or an error; with the
ledger rows written. -/
inductive RouteResult (ρ : Type) where
  | reply (reply : ρ) (position : Nat) (fallbackUsed : Bool) (skips : List (SunkRung ρ))
      (rows : List LedgerRow)
  | raised (e : Exc) (rows : List LedgerRow)

def answer (reply : ρ) (position : Nat) (skips : List (SunkRung ρ)) (s : RouteState ρ) :
    RouteResult ρ :=
  .reply reply position (decide (0 < position)) skips s.rows

/-- `except RouteDeadlineExceeded`: the refused rows of the rungs still deferred. -/
def stopRoute (e : Exc) (s : RouteState ρ) : RouteResult ρ :=
  .raised e (s.deferred.foldl (fun s d => logDeferred d s) s).rows

/-- The end of the route when no rung of the first pass answered. -/
def lastTries (req : RouteRequest) (s : RouteState ρ) : RouteResult ρ :=
  match tryDeferred req s.deferred s with
  | .next s => .raised (routeError req s) s.rows
  | .answered reply position s => answer reply position [] s
  | .stopped e s => stopRoute e s

def routeEnd (req : RouteRequest) : Turn ρ → RouteResult ρ
  | .next s => lastTries req s
  | .answered reply position s => answer reply position s.deferred s
  | .stopped e s => stopRoute e s

/-- `_call_route`, entered at the time `t`. -/
def callRoute (req : RouteRequest) (chain : List (Rung ρ)) (t : Nat) : RouteResult ρ :=
  routeEnd req (runRungs req true 0 chain { clock := t })

/-- The plain loop: every rung in its place. -/
def plainRoute (req : RouteRequest) (chain : List (Rung ρ)) (t : Nat) : RouteResult ρ :=
  routeEnd req (runRungs req false 0 chain { clock := t })

/-! ## When the two loops agree -/

/-- A ledger row as it is compared: the text of a deadline row lists what was
tried so far and is left out. -/
def LedgerRow.facts (r : LedgerRow) : LedgerRow :=
  if r.cls = .deadline then { r with error := "" } else r

/-- The same reply at the same position, or an error of the same type and class
with the same ledger rows, in any order. -/
def SameRoute : RouteResult ρ → RouteResult ρ → Prop
  | .reply r n f _ _, .reply r' n' f' _ _ => r = r' ∧ n = n' ∧ f = f'
  | .raised e rows, .raised e' rows' =>
    e.type = e'.type ∧ e.cls = e'.cls ∧ (rows.map (·.facts)).Perm (rows'.map (·.facts))
  | _, _ => False

/-- The condition on a chain entered at `clock`: no sunk rung after the first
comes to its turn with the deadline passed, and the deadline does not pass while
the plan of a rung after the first is made, unless no call follows.
`aligned`: the rung called last is not sunk, or is the first (a deadline row
carries its position). -/
def GatesAgree (req : RouteRequest) : Nat → Nat → Bool → List (Rung ρ) → Prop
  | _, _, _, [] => True
  | position, clock, aligned, rung :: rest =>
    if rung.skipped.isSome then GatesAgree req (position + 1) clock aligned rest
    else if rung.sunk.isSome then
      ¬ (0 < position ∧ req.passed clock) ∧
        GatesAgree req (position + 1) (clock + rung.planTime) (decide (position = 0)) rest
    else if 0 < position ∧ req.passed clock then aligned = true
    else
      ¬ (0 < position ∧ req.passed (clock + rung.planTime)) ∧
        let called := rung.callKey (clock + rung.planTime)
        match called.result with
        | .ok _ => True
        | .error e => e.stopsRoute ∨
          GatesAgree req (position + 1) (clock + rung.planTime + called.duration) true rest

/-! ## Deferred rungs -/

def SunkRung.row (d : SunkRung ρ) : LedgerRow := (refusedRow d.rung.key d.skips).at d.position

def SunkRung.outcome (d : SunkRung ρ) : Nat × String × Option Exc :=
  let e := circuitError d.rung.key d.skips
  (d.position, d.rung.key ++ ": " ++ chars 200 e.text, some e)

theorem emptied_of_sunk (rung : Rung ρ) (skips : List (String × Option ErrorClass))
    (h : rung.sunk = some skips) : rung.emptied = some skips := by
  obtain ⟨c, hc, hs⟩ := bind_eq_some_iff.1 h
  obtain ⟨_, plan⟩ := c
  cases plan with
  | none => cases hs
  | some plan =>
    simp only [sunkSkips] at hs
    split at hs
    · cases hs
    · next h1 =>
      split at hs
      · cases hs
      · next h2 =>
        rw [not_or, not_not] at h1
        rw [not_or] at h2
        cases hs
        simp [Rung.emptied, hc, h1.1, h2.1]

theorem place_ok (i : Nat) (rung : Rung ρ) (start : Nat) (s : RouteState ρ) (reply : ρ)
    (h : (rung.callKey start).result = .ok reply) :
    place i rung start s = .answered reply i (s.after i start (rung.callKey start)) := by
  simp only [place, h]

theorem place_error (i : Nat) (rung : Rung ρ) (start : Nat) (s : RouteState ρ) (e : Exc)
    (h : (rung.callKey start).result = .error e) : place i rung start s =
      if e.stopsRoute then .stopped e (s.after i start (rung.callKey start))
      else .next (failed i rung.key e (s.after i start (rung.callKey start))) := by
  simp only [place, h]

theorem place_sunk (position : Nat) (rung : Rung ρ) (skips : List (String × Option ErrorClass))
    (start : Nat) (s : RouteState ρ) (h : rung.sunk = some skips) :
    place position rung start s = .next (failed position rung.key (circuitError rung.key skips)
      { s with clock := start, position := position,
               rows := s.rows ++ [(refusedRow rung.key skips).at position] }) := by
  have hk : rung.callKey start =
      { duration := 0, rows := [refusedRow rung.key skips],
        result := .error (circuitError rung.key skips), covered := by simp } := by
    simp [Rung.callKey, emptied_of_sunk rung skips h]
  unfold place
  rw [hk]
  rfl

theorem foldl_logDeferred (ds : List (SunkRung ρ)) (s : RouteState ρ) :
    (ds.foldl (fun s d => logDeferred d s) s).rows = s.rows ++ ds.map (·.row) := by
  induction ds generalizing s with
  | nil => simp
  | cons d ds ih =>
    rw [foldl_cons, ih]
    simp [logDeferred, SunkRung.row]

variable (req : RouteRequest)

theorem tryDeferred_sunk (ds : List (SunkRung ρ)) (s : RouteState ρ) (h : ∀ d ∈ ds, d.rung.sunk = some d.skips) :
    ∃ s', tryDeferred req ds s = .next s' ∧ s'.rows = s.rows ++ ds.map (·.row) ∧
      s'.outcomes = s.outcomes ++ ds.map (·.outcome) ∧ s'.unusableUsage = s.unusableUsage ∧
      s'.allUnusable = (s.allUnusable && ds.isEmpty) := by
  induction ds generalizing s with
  | nil => exact ⟨_, rfl, by simp⟩
  | cons d ds ih =>
    have hd := h d (by simp)
    have hds : ∀ d ∈ ds, d.rung.sunk = some d.skips := fun d' h' => h d' (by simp [h'])
    unfold tryDeferred
    split
    · obtain ⟨s', h', hr, ho, hu, ha⟩ := ih (failed d.position d.rung.key
        (circuitError d.rung.key d.skips) (logDeferred d s)) hds
      refine ⟨s', h', ?_, ?_, ?_, ?_⟩
      · simp [hr, failed, logDeferred, SunkRung.row]
      · simp [ho, failed, logDeferred, SunkRung.outcome]
      · simp [hu, failed, logDeferred, circuitError, Exc.isUnusable]
      · simp [ha, failed, circuitError, Exc.isUnusable]
    · next hp =>
      have hc : call req false d.position d.rung { s with deferred := ds } =
          place d.position d.rung (s.clock + d.rung.planTime) { s with deferred := ds } := by
        simp [call, hp]
      rw [hc, place_sunk _ _ _ _ _ hd]
      obtain ⟨s', h', hr, ho, hu, ha⟩ := ih _ hds
      refine ⟨s', h', ?_, ?_, ?_, ?_⟩
      · simp [hr, failed, SunkRung.row]
      · simp [ho, failed, SunkRung.outcome]
      · simp [hu, failed, circuitError, Exc.isUnusable]
      · simp [ha, failed, circuitError, Exc.isUnusable]

/-! ## The two loops side by side -/

/-- The plain loop's state `p` and the deferring loop's state `o` before the rung
at `i`: the plain one has what the other has, and the rows and failures of the
rungs the other deferred. -/
structure Sim (i : Nat) (p o : RouteState ρ) : Prop where
  clock : p.clock = o.clock
  rows : p.rows.Perm (o.rows ++ o.deferred.map (·.row))
  outcomes : p.outcomes.Perm (o.outcomes ++ o.deferred.map (·.outcome))
  usage : p.unusableUsage = o.unusableUsage
  unusable : p.allUnusable = (o.allUnusable && o.deferred.isEmpty)
  plain : p.deferred = []
  sunk : ∀ d ∈ o.deferred, d.rung.sunk = some d.skips
  before : ∀ r ∈ p.rows, r.position < i
  distinct : (p.outcomes.map (·.1)).Nodup
  below : ∀ x ∈ p.outcomes, x.1 < i
  at_le : o.position ≤ i - 1

theorem sim_start (t : Nat) : Sim 0 ({ clock := t } : RouteState ρ) { clock := t } where
  clock := rfl
  rows := List.Perm.refl _
  outcomes := List.Perm.refl _
  usage := rfl
  unusable := rfl
  plain := rfl
  sunk := by simp
  before := by simp
  distinct := by simp
  below := by simp
  at_le := by simp

variable {i : Nat} {p o : RouteState ρ}

theorem Sim.fresh (h : Sim i p o) (text : String) (e : Option Exc) :
    ((p.outcomes ++ [(i, text, e)]).map (·.1)).Nodup ∧ ∀ x ∈ p.outcomes ++ [(i, text, e)], x.1 < i + 1 := by
  constructor
  · rw [map_append]
    refine nodup_append.2 ⟨h.distinct, by simp, ?_⟩
    intro a ha b hb
    obtain ⟨x, hx, rfl⟩ := mem_map.1 ha
    have := h.below x hx
    simp only [map_cons, map_nil, mem_singleton] at hb
    omega
  · intro x hx
    rcases mem_append.1 hx with hx | hx
    · exact Nat.lt_succ_of_lt (h.below x hx)
    · rw [mem_singleton.1 hx]
      exact Nat.lt_succ_self i

theorem Sim.before_append (h : Sim i p o) (rows : List AttemptRow) :
    ∀ r ∈ p.rows ++ rows.map (·.at i), r.position < i + 1 := by
  intro r hr
  rcases mem_append.1 hr with hr | hr
  · exact Nat.lt_succ_of_lt (h.before r hr)
  · obtain ⟨a, _, rfl⟩ := mem_map.1 hr
    exact Nat.lt_succ_self i

theorem perm_insert {α : Type} {l a : List α} {b : List α} (c : List α) (h : l.Perm (a ++ b)) :
    (l ++ c).Perm (a ++ c ++ b) := by
  rw [append_assoc]
  refine (h.append_right c).trans ?_
  rw [append_assoc]
  exact perm_append_comm.append_left a

theorem Sim.failed (h : Sim i p o) (key : String) (e : Exc)
    (clock : Nat) (rows : List AttemptRow) :
    Sim (i + 1)
      (failed i key e { p with clock, position := i, rows := p.rows ++ rows.map (·.at i) })
      (failed i key e { o with clock, position := i, rows := o.rows ++ rows.map (·.at i) }) where
  clock := rfl
  rows := perm_insert _ h.rows
  outcomes := perm_insert _ h.outcomes
  usage := by simp [Gateway.failed, h.usage]
  unusable := by
    simp only [Gateway.failed, h.unusable]
    rw [Bool.and_assoc, Bool.and_comm o.deferred.isEmpty, ← Bool.and_assoc]
  plain := h.plain
  sunk := h.sunk
  before := h.before_append rows
  distinct := (h.fresh _ _).1
  below := (h.fresh _ _).2
  at_le := by simp [Gateway.failed]

theorem Sim.skipped (h : Sim i p o) (text : String) :
    Sim (i + 1)
      { p with errors := p.errors ++ [text], outcomes := p.outcomes ++ [(i, text, none)] }
      { o with errors := o.errors ++ [text], outcomes := o.outcomes ++ [(i, text, none)] } where
  clock := h.clock
  rows := h.rows
  outcomes := perm_insert _ h.outcomes
  usage := h.usage
  unusable := h.unusable
  plain := h.plain
  sunk := h.sunk
  before := fun r hr => Nat.lt_succ_of_lt (h.before r hr)
  distinct := (h.fresh _ _).1
  below := (h.fresh _ _).2
  at_le := le_trans h.at_le (by omega)

theorem Sim.deferred (h : Sim i p o) (rung : Rung ρ)
    (skips : List (String × Option ErrorClass)) (hs : rung.sunk = some skips) (clock : Nat) :
    Sim (i + 1)
      (Gateway.failed i rung.key (circuitError rung.key skips)
        { p with clock, position := i, rows := p.rows ++ [(refusedRow rung.key skips).at i] })
      { o with clock, deferred := o.deferred ++ [⟨i, rung, skips⟩] } where
  clock := rfl
  rows := by
    rw [map_append, ← append_assoc]
    exact h.rows.append_right _
  outcomes := by
    rw [map_append, ← append_assoc]
    exact h.outcomes.append_right _
  usage := by simp [Gateway.failed, h.usage, circuitError, Exc.isUnusable]
  unusable := by simp [Gateway.failed, circuitError, Exc.isUnusable]
  plain := h.plain
  sunk := by
    intro d hd
    rcases mem_append.1 hd with hd | hd
    · exact h.sunk d hd
    · rw [mem_singleton.1 hd]
      exact hs
  before := h.before_append [refusedRow rung.key skips]
  distinct := (h.fresh _ _).1
  below := (h.fresh _ _).2
  at_le := le_trans h.at_le (by omega)

theorem routeEnd_stopped (e : Exc) (s : RouteState ρ) :
    routeEnd req (.stopped e s) = .raised e (s.rows ++ s.deferred.map (·.row)) := by
  rw [routeEnd, stopRoute, foldl_logDeferred]

theorem routeError_congr (s s' : RouteState ρ) (ho : s.outcomes.Perm s'.outcomes) (hd : (s.outcomes.map (·.1)).Nodup)
    (hu : s.unusableUsage = s'.unusableUsage) (ha : s.allUnusable = s'.allUnusable) :
    routeError req s = routeError req s' := by
  unfold routeError
  rw [sortBy_congr (·.1) ho hd, hu, ha]

theorem Sim.lastTries (h : Sim i p o) (req : RouteRequest) :
    ∃ e rows, lastTries req p = .raised e p.rows ∧ lastTries req o = .raised e rows ∧ rows.Perm p.rows := by
  obtain ⟨s, hs, hr, ho, hu, ha⟩ := tryDeferred_sunk req o.deferred o h.sunk
  refine ⟨routeError req s, s.rows, ?_, ?_, ?_⟩
  · have he : routeError req ({ p with deferred := [] } : RouteState ρ) = routeError req s := by
      refine routeError_congr req _ _ ?_ h.distinct ?_ ?_
      · rw [ho]
        exact h.outcomes
      · rw [hu]
        exact h.usage
      · rw [ha]
        exact h.unusable
    simp [Gateway.lastTries, h.plain, tryDeferred, he]
  · simp [Gateway.lastTries, hs]
  · rw [hr]
    exact h.rows.symm

/-! ## After the deadline -/

theorem RouteRequest.passed_mono {c c' : Nat} (h : req.passed c) (hc : c ≤ c') : req.passed c' := by
  unfold RouteRequest.passed at *
  cases hd : req.deadline with
  | none => simp [hd] at h
  | some d =>
    simp only [hd, decide_eq_true_eq] at h ⊢
    omega

theorem allFailed_goesOn (message : String) (failures : List Exc) :
    (allFailed req message failures).type ≠ .routeDeadlineExceeded := by
  unfold allFailed
  split
  · simp
  · split <;> simp

theorem routeError_type (s : RouteState ρ) : (routeError req s).type ≠ .routeDeadlineExceeded := by
  unfold routeError
  split
  · simp
  · exact allFailed_goesOn req _ _

theorem late_runRungs (chain : List (Rung ρ)) (i : Nat) (s : RouteState ρ)
    (hi : 0 < i) (hp : req.passed s.clock) (hs : ∀ d ∈ s.deferred, d.rung.sunk = some d.skips) :
    (∃ s', runRungs req true i chain s = .next s' ∧ ∀ d ∈ s'.deferred, d.rung.sunk = some d.skips) ∨
    ∃ e s', runRungs req true i chain s = .stopped e s' ∧
      s'.rows.length = s.rows.length + 1 ∧ s.deferred.length ≤ s'.deferred.length := by
  induction chain generalizing i s with
  | nil => exact .inl ⟨s, rfl, hs⟩
  | cons rung rest ih =>
    unfold runRungs visit
    cases hsk : rung.skipped with
    | some reason => exact ih (i + 1) _ (by omega) hp hs
    | none =>
      have hp' : req.passed (s.clock + rung.planTime) := req.passed_mono hp (by omega)
      cases hr : rung.sunk with
      | some skips =>
        simp only [call, hr, if_true]
        rcases ih (i + 1) { s with clock := s.clock + rung.planTime,
                                   deferred := s.deferred ++ [⟨i, rung, skips⟩] } (by omega) hp' (by
            intro d hd
            rcases mem_append.1 hd with hd | hd
            · exact hs d hd
            · rw [mem_singleton.1 hd]
              exact hr) with h | ⟨e, s', h, hl, hd⟩
        · exact .inl h
        · refine .inr ⟨e, s', h, hl, ?_⟩
          rw [length_append] at hd
          omega
      | none =>
        simp only [call, hr, if_true, hi, hp', and_self]
        exact .inr ⟨_, _, rfl, by simp, le_refl _⟩

/-! ## What the plain loop leaves -/

def Turn.state : Turn ρ → RouteState ρ
  | .next s => s
  | .answered _ _ s => s
  | .stopped _ s => s

theorem place_grows (i : Nat) (rung : Rung ρ) (start : Nat) (s : RouteState ρ) :
    (place i rung start s).state.deferred = s.deferred ∧ s.rows ⊆ (place i rung start s).state.rows := by
  unfold place
  simp only
  split
  · exact ⟨rfl, subset_append_left _ _⟩
  · split
    · exact ⟨rfl, subset_append_left _ _⟩
    · exact ⟨rfl, subset_append_left _ _⟩

theorem place_row (i : Nat) (rung : Rung ρ) (start : Nat) (s : RouteState ρ) (e : Exc)
    (he : (rung.callKey start).result = .error e) : ∃ r ∈ (place i rung start s).state.rows, r.position = i := by
  obtain ⟨a, ha⟩ := exists_mem_of_ne_nil _ ((rung.callKey start).covered e he)
  refine ⟨a.at i, ?_, rfl⟩
  unfold place
  simp only [he]
  split
  · exact mem_append_right _ (mem_map_of_mem ha)
  · exact mem_append_right _ (mem_map_of_mem ha)

theorem visit_plain (i : Nat) (rung : Rung ρ) (s : RouteState ρ) :
    (visit req false i rung s).state.deferred = s.deferred ∧ s.rows ⊆ (visit req false i rung s).state.rows := by
  unfold visit
  split
  · exact ⟨rfl, List.Subset.refl _⟩
  · simp only [call, Bool.false_eq_true, if_false]
    split
    · exact ⟨rfl, subset_append_left _ _⟩
    · exact place_grows i rung _ s

theorem plain_keeps (chain : List (Rung ρ)) (i : Nat) (s : RouteState ρ)
    (hd : s.deferred = []) (e : Exc) (rows : List LedgerRow)
    (h : routeEnd req (runRungs req false i chain s) = .raised e rows) : s.rows ⊆ rows := by
  induction chain generalizing i s with
  | nil =>
    simp only [runRungs, routeEnd, lastTries, hd, tryDeferred, RouteResult.raised.injEq] at h
    rw [← h.2]
    exact List.Subset.refl _
  | cons rung rest ih =>
    have hv := visit_plain req i rung s
    unfold runRungs at h
    cases ht : visit req false i rung s with
    | next s' =>
      rw [ht] at h hv
      exact List.Subset.trans hv.2 (ih (i + 1) s' (hv.1.trans hd) h)
    | answered reply n s' =>
      rw [ht] at h
      simp [routeEnd, answer] at h
    | stopped e' s' =>
      rw [ht] at h hv
      simp only [routeEnd_stopped, RouteResult.raised.injEq] at h
      rw [← h.2]
      exact fun r hr => mem_append_left _ (hv.2 hr)

/-! ## The comparison -/

theorem facts_position (r : LedgerRow) : r.facts.position = r.position := by
  unfold LedgerRow.facts
  split <;> rfl

theorem facts_deadlineRow (key : String) (e : Exc) (n : Nat) :
    ((deadlineRow key e).at n).facts =
      { model := key, status := .error, cls := .deadline, error := "", position := n } := rfl

theorem not_same_of_position (i : Nat) (e : Exc) (rows : List LedgerRow) (y : RouteResult ρ)
    (hx : ∀ r ∈ rows, r.position < i) (hy : ∀ e' rows', y = .raised e' rows' → ∃ r ∈ rows', r.position = i) :
    ¬ SameRoute (.raised e rows) y := by
  intro h
  cases y with
  | reply r n f sk rows' => exact h
  | raised e' rows' =>
    obtain ⟨r, hr, hi⟩ := hy e' rows' rfl
    have hm : r.facts ∈ rows.map (·.facts) := h.2.2.mem_iff.2 (mem_map_of_mem hr)
    obtain ⟨q, hq, hqr⟩ := mem_map.1 hm
    have h1 := hx q hq
    have h2 : q.position = r.position := by rw [← facts_position q, hqr, facts_position]
    omega

theorem Sim.before_rows (h : Sim i p o) : ∀ r ∈ o.rows ++ o.deferred.map (·.row), r.position < i :=
  fun r hr => h.before r (h.rows.mem_iff.2 hr)

theorem Sim.late_sunk (h : Sim i p o) (req : RouteRequest)
    (rung : Rung ρ) (rest : List (Rung ρ)) (skips : List (String × Option ErrorClass))
    (hi : 0 < i) (hr : rung.sunk = some skips) (hp : req.passed o.clock) (e : Exc)
    (he : e.type = .routeDeadlineExceeded) (row : LedgerRow) :
    ¬ SameRoute
      (routeEnd req (runRungs req true (i + 1) rest
        { o with clock := o.clock + rung.planTime,
                 deferred := o.deferred ++ [⟨i, rung, skips⟩] }))
      (.raised e (p.rows ++ [row])) := by
  intro hsame
  have hsunk : ∀ d ∈ o.deferred ++ [⟨i, rung, skips⟩], d.rung.sunk = some d.skips := by
    intro d hd
    rcases mem_append.1 hd with hd | hd
    · exact h.sunk d hd
    · rw [mem_singleton.1 hd]
      exact hr
  rcases late_runRungs req rest (i + 1)
      { o with clock := o.clock + rung.planTime, deferred := o.deferred ++ [⟨i, rung, skips⟩] }
      (by omega) (req.passed_mono hp (Nat.le_add_right _ _)) hsunk with ⟨s', hrun, hs'⟩ | ⟨e', s', hrun, hl, hd⟩
  · obtain ⟨s, ht, -⟩ := tryDeferred_sunk req s'.deferred s' hs'
    simp only [hrun, routeEnd, Gateway.lastTries, ht] at hsame
    exact routeError_type req s (hsame.1.trans he)
  · simp only [hrun, routeEnd_stopped] at hsame
    have hlen := hsame.2.2.length_eq
    have hp := h.rows.length_eq
    simp only [length_map, length_append, length_cons, length_nil] at hlen hp hd hl
    omega

theorem Sim.late_live (h : Sim i p o) (e e' : Exc) (key : String) (ht : e.type = e'.type) (hc : e.cls = e'.cls) :
    SameRoute (.raised e (o.rows ++ [(deadlineRow key e).at o.position] ++ o.deferred.map (·.row)) : RouteResult ρ)
      (.raised e' (p.rows ++ [(deadlineRow key e').at p.position])) ↔ p.position = o.position := by
  have hperm : (p.rows ++ [(deadlineRow key e).at o.position]).Perm
      (o.rows ++ [(deadlineRow key e).at o.position] ++ o.deferred.map (·.row)) :=
    perm_insert _ h.rows
  constructor
  · rintro ⟨-, -, hrows⟩
    have hrows' := (hperm.map (·.facts)).trans hrows
    rw [map_append, map_append, perm_append_left_iff] at hrows'
    have heq : ((deadlineRow key e).at o.position).facts =
        ((deadlineRow key e').at p.position).facts := singleton_perm_singleton.1 hrows'
    rw [facts_deadlineRow, facts_deadlineRow, LedgerRow.mk.injEq] at heq
    exact heq.2.symm
  · intro hpos
    refine ⟨ht, hc, (hperm.map (·.facts)).symm.trans ?_⟩
    rw [map_append, map_append, hpos]
    simp only [map_cons, map_nil, facts_deadlineRow]
    exact List.Perm.refl _

theorem Sim.between (h : Sim i p o) (req : RouteRequest)
    (rung : Rung ρ) (rest : List (Rung ρ)) (start : Nat) (e : Exc) (row : LedgerRow) (hi : 0 < i)
    (hrow : row.position = o.position) :
    ¬ SameRoute (.raised e (o.rows ++ [row] ++ o.deferred.map (·.row)))
      (routeEnd req (match place i rung start p with
        | .next s' => runRungs req false (i + 1) rest s'
        | turn => turn)) := by
  apply not_same_of_position i
  · intro r hr
    have hat := h.at_le
    simp only [mem_append, mem_singleton] at hr
    rcases hr with (hr | hr) | hr
    · exact h.before_rows r (mem_append_left _ hr)
    · rw [hr]
      omega
    · exact h.before_rows r (mem_append_right _ hr)
  · intro e' rows' hend
    have hg := place_grows i rung start p
    have hrow : ∀ x, (rung.callKey start).result = .error x →
        ∃ r ∈ (place i rung start p).state.rows, r.position = i :=
      fun x hx => place_row i rung start p x hx
    cases hres : (rung.callKey start).result with
    | ok reply =>
      simp [place, hres, routeEnd, answer] at hend
    | error x =>
      obtain ⟨r, hr, hri⟩ := hrow x hres
      refine ⟨r, ?_, hri⟩
      cases ht : place i rung start p with
      | next s' =>
        rw [ht] at hend hr hg
        exact plain_keeps req rest (i + 1) s' (hg.1.trans h.plain) e' rows' hend hr
      | answered reply n s' =>
        rw [ht] at hend
        simp [routeEnd, answer] at hend
      | stopped e'' s' =>
        rw [ht] at hend hr
        simp only [routeEnd_stopped, RouteResult.raised.injEq] at hend
        rw [← hend.2]
        exact mem_append_left _ hr

theorem sameRoute_runRungs (chain : List (Rung ρ)) (i : Nat)
    (p o : RouteState ρ) (aligned : Bool) (h : Sim i p o) (ha : aligned = true ↔ p.position = o.position) :
    SameRoute (routeEnd req (runRungs req true i chain o))
      (routeEnd req (runRungs req false i chain p)) ↔ GatesAgree req i o.clock aligned chain := by
  induction chain generalizing i p o aligned with
  | nil =>
    obtain ⟨e, rows, hp, ho, hperm⟩ := h.lastTries req
    simp only [runRungs, routeEnd, hp, ho, GatesAgree, iff_true]
    exact ⟨rfl, rfl, hperm.map _⟩
  | cons rung rest ih =>
    unfold runRungs GatesAgree visit
    cases hsk : rung.skipped with
    | some reason =>
      exact ih (i + 1) _ _ aligned (h.skipped _) ha
    | none =>
      simp only [isSome_none, Bool.false_eq_true, if_false]
      cases hr : rung.sunk with
      | some skips =>
        simp only [call, hr, if_true, isSome_some, Bool.false_eq_true, if_false, h.clock]
        by_cases hg : 0 < i ∧ req.passed o.clock
        · simp only [hg, and_self, not_true_eq_false, false_and, iff_false]
          simp only [routeEnd_stopped, h.plain, map_nil, append_nil]
          refine h.late_sunk req rung rest skips hg.1 hr hg.2 _ ?_ _
          rfl
        · rw [if_neg hg, place_sunk i rung skips _ p hr]
          simp only [hg, not_false_eq_true, true_and]
          refine ih (i + 1) _ _ _ (h.deferred rung skips hr _) ?_
          have hat := h.at_le
          simp only [decide_eq_true_eq, failed]
          omega
      | none =>
        simp only [call, hr, if_true, isSome_none, Bool.false_eq_true, if_false, h.clock]
        by_cases hg : 0 < i ∧ req.passed o.clock
        · have hg' : 0 < i ∧ req.passed (o.clock + rung.planTime) :=
            ⟨hg.1, req.passed_mono hg.2 (Nat.le_add_right _ _)⟩
          rw [if_pos hg, if_pos hg, if_pos hg']
          simp only [routeEnd_stopped, h.plain, map_nil, append_nil]
          rw [ha]
          exact h.late_live _ _ rung.key rfl rfl
        · rw [if_neg hg, if_neg hg]
          by_cases hg' : 0 < i ∧ req.passed (o.clock + rung.planTime)
          · rw [if_pos hg']
            simp only [hg', and_self, not_true_eq_false, false_and, iff_false]
            simp only [routeEnd_stopped]
            refine h.between req rung rest _ _ _ hg'.1 ?_
            rfl
          · rw [if_neg hg']
            simp only [hg', not_false_eq_true, true_and]
            cases hres : (rung.callKey (o.clock + rung.planTime)).result with
            | ok reply =>
              rw [place_ok i rung _ o reply hres, place_ok i rung _ p reply hres]
              exact iff_of_true ⟨rfl, rfl, rfl⟩ trivial
            | error e =>
              rw [place_error i rung _ o e hres, place_error i rung _ p e hres]
              by_cases hst : e.stopsRoute
              · simp only [hst, if_true, true_or, iff_true, routeEnd_stopped]
                simp only [RouteState.after, h.plain, map_nil, append_nil]
                exact ⟨rfl, rfl, (perm_insert _ h.rows).symm.map _⟩
              · simp only [hst, Bool.false_eq_true, if_false, false_or]
                exact ih (i + 1) _ _ true (h.failed rung.key e _ _) (by
                  simp [failed, RouteState.after])

/-- The deferring loop does what the plain loop does exactly when no sunk rung
meets a passed deadline and no plan is made across it. -/
theorem sameRoute_iff (req : RouteRequest) (chain : List (Rung ρ)) (t : Nat) :
    SameRoute (callRoute req chain t) (plainRoute req chain t) ↔ GatesAgree req 0 t true chain :=
  sameRoute_runRungs req chain 0 _ _ true (sim_start t) (by simp)

/-! ### A deadline in front of a sunk rung -/

/-- A call that fails after ten seconds with an outage. -/
def slowOutage : Called String where
  duration := 10
  rows := [{ model := "sonnet", status := .error, cls := .other, error := "timeout" }]
  result := .error { type := .named "ReadTimeout", cls := .other, text := "timeout" }
  covered := by simp

/-- The first model is slow, the second has no grant on its only account. -/
def lateSunk : List (Rung String) :=
  [{ key := "sonnet", skipped := none, call := fun _ => slowOutage,
     check := some ⟨0, some { deployments := ["acc3"], circuitSkips := [], budgetSkips := [] }⟩ },
   { key := "haiku", skipped := none, call := fun _ => slowOutage,
     check := some ⟨0, some { deployments := [], circuitSkips := [("acc3", some .accessDenied)],
                              budgetSkips := [] }⟩ }]

def fiveSeconds : RouteRequest where
  stage := "s1"
  deadline := some (5, 5)
  textClass := fun _ _ _ => .other

/-- The plain loop stops at the deadline; the deferring loop reports that every
model failed. -/
theorem lateSunk_other_error : ¬ SameRoute (callRoute fiveSeconds lateSunk 0) (plainRoute fiveSeconds lateSunk 0) := by
  intro h
  have htype : ExcType.runtimeError = ExcType.routeDeadlineExceeded := h.1
  cases htype

end CisApp.Gateway
