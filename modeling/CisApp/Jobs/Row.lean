import CisApp.Lib.Json
import CisApp.Lib.Rounding
import CisApp.Lib.Table

/-!
# The row of `shared.job`

The columns of `shared/jobs/job_table_template.sql` as migration 242 leaves
them, with the two CHECK constraints every writer must respect
(`job_attempts_chk`, `job_lease_chk`) as fields: a statement that would break
one raises, so no table holds such a row.  Times are microseconds; `cost_usd`
(`NUMERIC(12, 6)`) counts millionths.  A Python float is taken as the exact
rational it stands for.
-/

namespace CisApp.Jobs

abbrev JobId := Nat

/-- The interval `make_interval(secs => n)`. -/
def secs (n : Int) : Int := n * 1000000

inductive Status where
  | queued
  | running
  | succeeded
  | failed
  | stoppedBudget
  | cancelled
deriving Repr, DecidableEq, Inhabited

/-- The statuses of a job that ended without success. -/
def Status.unsuccessful : Status → Bool
  | .failed => true
  | .stoppedBudget => true
  | .cancelled => true
  | _ => false

structure JobRow where
  kind : String
  payload : JObj
  status : Status
  attempt : Int
  maxAttempts : Int
  runAfter : Int
  lockedBy : Option String
  lockedUntil : Option Int
  cancelRequested : Bool
  idempotencyKey : Option String
  progress : JObj
  result : Option Json
  costUsd : Int
  error : Option String
  parentJobId : Option JobId
  createdBy : Option String
  createdAt : Int
  updatedAt : Int
  startedAt : Option Int
  finishedAt : Option Int
  attemptsChk : 0 ≤ attempt ∧ 1 ≤ maxAttempts
  leaseChk : status = .running → lockedBy ≠ none ∧ lockedUntil ≠ none

abbrev JobTable := Table JobId JobRow

/-- What a worker gets of the row it claimed (`queue.Job`). -/
structure Job where
  id : JobId
  kind : String
  payload : JObj
  status : Status
  attempt : Int
  maxAttempts : Int
  progress : JObj
  costUsd : ℚ
  createdBy : Option String
  parentJobId : Option JobId

/-- The snapshot of a row (`_to_job`). -/
def toJob (id : JobId) (r : JobRow) : Job where
  id := id
  kind := r.kind
  payload := r.payload
  status := r.status
  attempt := r.attempt
  maxAttempts := r.maxAttempts
  progress := r.progress
  costUsd := (r.costUsd : ℚ) / 1000000
  createdBy := r.createdBy
  parentJobId := r.parentJobId

/-! ## Costs -/

/-- Python's `round(x, 6)`. -/
def round6 (x : ℚ) : ℚ := (roundHalfEven (x * 1000000) : ℚ) / 1000000

/-- The millionths a `NUMERIC(12, 6)` column stores for a value. -/
def storedCost (x : ℚ) : Int := roundHalfAway (x * 1000000)

/-- The column after `cost_usd = coalesce($n, cost_usd)`. -/
def JobRow.newCost (r : JobRow) (cost : Option ℚ) : Int :=
  match cost with
  | some x => storedCost x
  | none => r.costUsd

@[simp] theorem storedCost_round6 (x : ℚ) : storedCost (round6 x) = roundHalfEven (x * 1000000) := by
  unfold storedCost round6
  rw [div_mul_cancel₀ _ (by norm_num), roundHalfAway_intCast]

/-! ## Backoff -/

def backoffBaseSeconds : Int := 30
def backoffMaxSeconds : Int := 900
def backoffJitterRatio : ℚ := 1 / 4

/-- Delay before retry number `attempt`; `rand` is the drawn random number. -/
def backoffSeconds (attempt : Int) (rand : ℚ) : Int :=
  let base := min (backoffBaseSeconds * 2 ^ (max (attempt - 1) 0).toNat) backoffMaxSeconds
  base + ⌊(base : ℚ) * backoffJitterRatio * min (max rand 0) 1⌋

/-! ## The kind pattern -/

def kindChar (c : Char) : Bool := c.isLower || c.isDigit || c == '_'

/-- The pattern of `job_kind_chk`: lower-case snake case without another
owner's prefix. -/
def kindChk (kind : String) : Bool :=
  match kind.toList with
  | [] => false
  | c :: l =>
    c.isLower && l.all kindChar &&
      !(['b', 'k', '_'].isPrefixOf (c :: l)) && !(['t', 'p', '_'].isPrefixOf (c :: l))

end CisApp.Jobs
