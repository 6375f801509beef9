import CisApp.Lib.Run
import CisApp.Lib.Table

/-!
# The circuit breaker of the AI gateway

`shared/llm_client/breaker.py`: one circuit per deployment, a row of
`shared.llm_provider_health` keyed by (connection, catalog model), and the
connection circuit derived from those rows.

* The transitions of one row (`afterFailure`, `afterSuccess`, `claimed`,
  `leaseReleased`, `halfOpenNow`) are pure functions.
* `connectionHealth` reads the rows of one connection: which of them trip it
  (`tripping`), and until when.
* `Breaker` is one process with the database reachable.  Every write goes
  through `transition`, which locks the row, writes it and mirrors it, so the
  copy the process reads is the table.  `step` is one call of `admit`,
  `record_success` or `record_failure`; a call reads the clock once.

Times are microseconds.  The key columns stand beside the row.
-/

namespace CisApp.Gateway

open List

/-- `timedelta(seconds=n)`. -/
def secs (n : Int) : Int := n * 1000000

structure Key where
  connectionKey : String
  modelKey : String
deriving Repr, DecidableEq

/-- The classes a circuit counts (`CLASSES`).  A refusal of one request's own
content (`REQUEST`) is not one of them. -/
inductive ErrorClass where
  | accessDenied
  | quotaExhausted
  | throttled
  | credential
  | other
deriving Repr, DecidableEq

structure Rule where
  threshold : Nat
  openS : Nat
  maxOpenS : Nat

def accessDeniedMaxOpenS : Nat := 6 * 3600
def accountDeniedMaxOpenS : Nat := 1800

def rules : ErrorClass → Rule
  | .accessDenied => ⟨1, 300, accessDeniedMaxOpenS⟩
  | .quotaExhausted => ⟨1, 300, 1800⟩
  | .credential => ⟨1, 120, 900⟩
  | .throttled => ⟨3, 30, 300⟩
  | .other => ⟨5, 60, 600⟩

/-- `ACCOUNT_DENIED_RULES`: `RULES` with the 30 min cap on `access_denied`. -/
def accountDeniedRules : ErrorClass → Rule
  | .accessDenied => ⟨1, 300, accountDeniedMaxOpenS⟩
  | c => rules c

def probeLeaseS : Int := 180
def errorChars : Nat := 300
def okWriteIntervalS : Int := 60

structure Health where
  lastOkAt : Option Int := none
  lastErrorAt : Option Int := none
  lastErrorClass : Option ErrorClass := none
  lastError : Option String := none
  consecutiveFailures : Nat := 0
  circuitOpenUntil : Option Int := none
  openStreak : Nat := 0
  openedAt : Option Int := none
  probeUntil : Option Int := none
deriving Repr, DecidableEq

abbrev Row := Key × Health

/-! ## The transitions of one row -/

inductive CircuitState where
  | closed
  | opened
  | halfOpen
deriving Repr, DecidableEq

/-- Closed without an open period on record, open inside it, half-open after it. -/
def stateOf (h : Health) (now : Int) : CircuitState :=
  match h.circuitOpenUntil with
  | none => .closed
  | some u => if now < u then .opened else .halfOpen

def openSeconds (rules : ErrorClass → Rule) (cls : ErrorClass) (streak : Nat) : Nat :=
  min ((rules cls).openS * 2 ^ (streak - 1)) (rules cls).maxOpenS

/-- The circuit opened (again) at `now`. -/
def reopened (rules : ErrorClass → Rule) (base : Health) (cls : ErrorClass) (now : Int)
    (streak : Nat) (openedAt : Int) : Health :=
  { base with
    circuitOpenUntil := some (now + secs (openSeconds rules cls streak))
    openStreak := streak
    openedAt := some openedAt }

/-- The columns every failed call writes. -/
def failureNoted (h : Health) (cls : ErrorClass) (message : String) (now : Int) : Health :=
  { h with
    lastErrorAt := some now
    lastErrorClass := some cls
    lastError := some (String.ofList (message.toList.take errorChars))
    consecutiveFailures := h.consecutiveFailures + 1
    probeUntil := none }

def afterFailure (rules : ErrorClass → Rule) (keepStreakStart : Bool) (h : Health)
    (cls : ErrorClass) (message : String) (now : Int) : Health :=
  let base := failureNoted h cls message now
  match stateOf h now with
  | .opened => base
  | .halfOpen =>
    let openedAt := if keepStreakStart then h.openedAt.getD now else now
    reopened rules base cls now (h.openStreak + 1) openedAt
  | .closed =>
    if (rules cls).threshold ≤ base.consecutiveFailures then reopened rules base cls now 1 now
    else base

def afterSuccess (h : Health) (now : Int) : Health :=
  { h with
    lastOkAt := some now
    consecutiveFailures := 0
    circuitOpenUntil := none
    openStreak := 0
    openedAt := none
    probeUntil := none }

/-- Another call holds the half-open probe. -/
def leaseHeld (h : Health) (now : Int) : Bool :=
  match h.probeUntil with
  | none => false
  | some p => decide (now < p)

/-- The row with this caller's probe lease. -/
def claimed (h : Health) (now : Int) : Option Health :=
  if stateOf h now ≠ .halfOpen ∨ leaseHeld h now = true then none
  else some { h with probeUntil := some (now + secs probeLeaseS) }

def leaseReleased (h : Health) : Option Health :=
  if h.probeUntil.isSome then some { h with probeUntil := none } else none

/-! ## The connection circuit -/

/-- How the connection circuit is named next to the deployment rows. -/
def connectionModel : String := "*"

/-- `CONNECTION_SOLO_CLASSES`: one deployment is enough. -/
def ErrorClass.solo : ErrorClass → Bool
  | .credential => true
  | .quotaExhausted => true
  | _ => false

def connectionDeniedModels : Nat := 2

/-- `CONNECTION_CLASSES`, in the order that names the circuit's class. -/
def connectionClasses : List ErrorClass := [.credential, .quotaExhausted, .accessDenied]

def accountWide (h : Health) : Bool :=
  match h.lastErrorClass with
  | none => false
  | some c => connectionClasses.contains c

def soloClass (h : Health) : Bool :=
  match h.lastErrorClass with
  | none => false
  | some c => c.solo

/-- The deployment rows of a connection. -/
def mine (rows : List Row) (c : String) : List Row :=
  rows.filter fun x => decide (x.1.connectionKey = c ∧ x.1.modelKey ≠ connectionModel)

def lastOk (rows : List Row) (c : String) : Option Int :=
  ((mine rows c).filterMap fun x => x.2.lastOkAt).max?

/-- `last_error_at is not None and (last_ok is None or last_error_at > last_ok)`. -/
def errorAfter (h : Health) (ok : Option Int) : Bool :=
  match h.lastErrorAt, ok with
  | none, _ => false
  | some _, none => true
  | some e, some t => decide (t < e)

/-- `last_ok is not None and opened_at is not None and opened_at < last_ok`. -/
def openedBefore (h : Health) (ok : Option Int) : Bool :=
  match h.openedAt, ok with
  | some o, some t => decide (o < t)
  | _, _ => false

def signals (rows : List Row) (c : String) (now : Int) : List Row :=
  (mine rows c).filter fun x =>
    accountWide x.2 && decide (stateOf x.2 now ≠ .closed) && errorAfter x.2 (lastOk rows c)

def soloRows (rows : List Row) (c : String) (now : Int) : List Row :=
  (signals rows c now).filter fun x => soloClass x.2

def deniedRows (rows : List Row) (c : String) (now : Int) : List Row :=
  (signals rows c now).filter fun x =>
    decide (x.2.lastErrorClass = some .accessDenied) && !openedBefore x.2 (lastOk rows c)

/-- The rows that trip the connection circuit. -/
def tripping (rows : List Row) (c : String) (now : Int) : List Row :=
  let denied := deniedRows rows c now
  soloRows rows c now ++
    if (denied.map fun x => x.1.modelKey).dedup.length < connectionDeniedModels then [] else denied

/-- The row with the newest failure, the first of them (a signal has one on record). -/
def newest (members : List Row) : Option Row :=
  Table.firstBy (fun x y => decide (y.2.lastErrorAt.getD 0 ≤ x.2.lastErrorAt.getD 0)) members

/-- The connection circuit of `c`, when something account-wide is on record. -/
def connectionHealth (rows : List Row) (c : String) (now : Int) : Option Health :=
  let members := tripping rows c now
  match newest members with
  | none => none
  | some n => some {
      lastOkAt := lastOk rows c
      lastErrorAt := n.2.lastErrorAt
      lastErrorClass := connectionClasses.find? fun cls =>
        members.any fun x => decide (x.2.lastErrorClass = some cls)
      lastError := n.2.lastError
      consecutiveFailures := members.length
      circuitOpenUntil := (members.filterMap fun x => x.2.circuitOpenUntil).max?
      openStreak := (members.map fun x => x.2.openStreak).max?.getD 0
      openedAt := (members.filterMap fun x => x.2.openedAt.or x.2.lastErrorAt).min? }

/-- Calls are presumed refused: the circuit is tripped at all. -/
def connectionRefusing (h : Option Health) : Bool := h.isSome

/-! ## Known refusals and the re-probe after a recovery -/

/-- `_connection_last_ok`, without one model. -/
def lastOkWithout (rows : List Row) (c : String) (without : String) : Option Int :=
  (((mine rows c).filter fun x => decide (x.1.modelKey ≠ without)).filterMap fun x =>
    x.2.lastOkAt).max?

/-- An `access_denied` circuit whose streak began before another model of the
connection answered. -/
def known (key : Key) (h : Health) (rows : List Row) : Bool :=
  decide (h.lastErrorClass = some .accessDenied) && h.circuitOpenUntil.isSome &&
    openedBefore h (lastOkWithout rows key.connectionKey key.modelKey)

def failureRules (key : Key) (h : Health) (rows : List Row) : ErrorClass → Rule :=
  if known key h rows then rules else accountDeniedRules

/-- `(h.opened_at or h.last_error_at or now) >= prev_ok`, or no answer on record. -/
def openedSince (h : Health) (prevOk : Option Int) (now : Int) : Bool :=
  match prevOk with
  | none => true
  | some t => decide (t ≤ (h.openedAt.or h.lastErrorAt).getD now)

/-- The models to re-probe now that `m` answered. -/
def recoveryCandidates (rows : List Row) (c m : String) (now : Int) : List String :=
  (((mine rows c).filter fun x =>
    decide (x.1.modelKey ≠ m) && accountWide x.2 && decide (stateOf x.2 now = .opened) &&
      openedSince x.2 (lastOk rows c) now).map fun x => x.1.modelKey).insertionSort (· ≤ ·)

def halfOpenNow (h : Health) (now : Int) : Option Health :=
  if stateOf h now ≠ .opened ∨ accountWide h = false then none
  else some { h with circuitOpenUntil := some now, probeUntil := none }

/-! ## One process -/

structure Breaker where
  enabled : Bool
  rows : Table Key Health
  okWritten : Key → Option Int

/-- The row of a deployment is created empty, then `fn` is applied under its lock. -/
def transition (t : Table Key Health) (key : Key) (fn : Health → Option Health) :
    Table Key Health :=
  (t.insert key {}).update (fun k _ => decide (k = key)) (fun _ h => (fn h).getD h)

def rowsOf (t : Table Key Health) (c : String) : List Row :=
  t.rows.filter fun x => decide (x.1.connectionKey = c)

/-- The class of the connection circuit while it is open. -/
def connectionOpen (s : Breaker) (c : String) (now : Int) : Option ErrorClass :=
  if s.enabled then
    match connectionHealth (rowsOf s.rows c) c now with
    | none => none
    | some h => if stateOf h now = .opened then h.lastErrorClass else none
  else none

/-- Whether a call may go to the deployment, with the probe lease taken if it is
half-open. -/
def admits (s : Breaker) (key : Key) (now : Int) : Bool × Breaker :=
  if !s.enabled then (true, s)
  else if (connectionOpen s key.connectionKey now).isSome then (false, s)
  else
    let h := (s.rows.get? key).getD {}
    match stateOf h now with
    | .closed => (true, s)
    | .opened => (false, s)
    | .halfOpen =>
      ((claimed h now).isSome,
        { s with rows := transition s.rows key fun cur => claimed cur now })

def reprobeAfterAccountRecovery (t : Table Key Health) (key : Key) (now : Int) :
    Table Key Health :=
  (recoveryCandidates (rowsOf t key.connectionKey) key.connectionKey key.modelKey now).foldl
    (fun t m => transition t ⟨key.connectionKey, m⟩ fun cur => halfOpenNow cur now) t

/-- Nothing to close: a success would only refresh `last_ok_at`. -/
def healthy (h : Option Health) : Bool :=
  match h with
  | none => false
  | some h => decide (h.consecutiveFailures = 0 ∧ h.circuitOpenUntil = none ∧ h.probeUntil = none)

/-- The success of a healthy deployment is not written again within the interval. -/
def writeSkipped (s : Breaker) (key : Key) (mono : Int) : Bool :=
  healthy (s.rows.get? key) &&
    match s.okWritten key with
    | none => false
    | some w => decide (mono - w < secs okWriteIntervalS)

def recordSuccess (s : Breaker) (key : Key) (now mono : Int) : Breaker :=
  if !s.enabled then s
  else
    let s := { s with rows := reprobeAfterAccountRecovery s.rows key now }
    if writeSkipped s key mono then s
    else { s with
      rows := transition s.rows key (fun cur => some (afterSuccess cur now))
      okWritten := Function.update s.okWritten key (some mono) }

def recordFailure (s : Breaker) (key : Key) (cls : ErrorClass) (message : String) (now : Int) :
    Breaker :=
  if !s.enabled then s
  else
    let rows := rowsOf s.rows key.connectionKey
    let fn := fun cur => some (afterFailure (failureRules key cur rows) true cur cls message now)
    { s with rows := transition s.rows key fn }

/-- A refusal of one request's own content: only a probe lease is released. -/
def recordRequestError (s : Breaker) (key : Key) : Breaker :=
  if !s.enabled then s
  else if (s.rows.get? key).any (fun h => h.probeUntil.isSome) then
    { s with rows := transition s.rows key leaseReleased }
  else s

/-- A process that has written nothing yet, with an empty table. -/
def Breaker.fresh : Breaker := ⟨true, Table.empty, fun _ => none⟩

inductive Op where
  | admits (key : Key) (now : Int)
  | success (key : Key) (now mono : Int)
  | failure (key : Key) (cls : ErrorClass) (message : String) (now : Int)
  | requestError (key : Key) (now : Int)

def step (s : Breaker) : Op → Breaker
  | .admits key now => (admits s key now).2
  | .success key now mono => recordSuccess s key now mono
  | .failure key cls message now => recordFailure s key cls message now
  | .requestError key _ => recordRequestError s key

/-! ## Reading a row after a write -/

/-- The row of a deployment as `transition` finds it. -/
def rowAt (t : Table Key Health) (key : Key) : Health := (t.get? key).getD {}

theorem get?_transition (t : Table Key Health) (key : Key) (fn : Health → Option Health) (k : Key) :
    (transition t key fn).get? k = if k = key then some ((fn (rowAt t key)).getD (rowAt t key)) else t.get? k := by
  unfold transition rowAt
  rw [Table.get?_update, Table.get?_insert]
  by_cases hk : k = key
  · subst hk
    cases h : t.get? k with
    | none => simp
    | some r => simp
  · rw [if_neg hk, if_neg fun h => hk h.1]
    cases t.get? k with
    | none => rfl
    | some r => simp [hk]

variable {t : Table Key Health}

theorem all_transition {P : Key → Health → Prop} {key : Key}
    {fn : Health → Option Health} (ht : t.All P) (hcur : P key (rowAt t key))
    (hfn : ∀ h', fn (rowAt t key) = some h' → P key h') : (transition t key fn).All P := by
  intro k h hr
  rw [get?_transition] at hr
  by_cases hk : k = key
  · subst hk
    rw [if_pos rfl] at hr
    cases hf : fn (rowAt t k) with
    | none =>
      rw [hf] at hr
      exact Option.some.inj hr ▸ hcur
    | some h' =>
      rw [hf] at hr
      exact Option.some.inj hr ▸ hfn h' hf
  · rw [if_neg hk] at hr
    exact ht k h hr

theorem all_rowAt {P : Key → Health → Prop} (ht : t.All P) (key : Key) (hempty : P key {}) : P key (rowAt t key) := by
  unfold rowAt
  cases hr : t.get? key with
  | none => exact hempty
  | some h => exact ht key h hr

theorem get?_eq_rowAt {key : Key} {h : Health} (hr : t.get? key = some h) : rowAt t key = h := by
  unfold rowAt
  rw [hr]
  rfl

theorem stateOf_closed_iff (h : Health) (now : Int) : stateOf h now = .closed ↔ h.circuitOpenUntil = none := by
  unfold stateOf
  cases h.circuitOpenUntil with
  | none => simp
  | some u => by_cases hu : now < u <;> simp [hu]

theorem stateOf_opened_iff (h : Health) (now : Int) :
    stateOf h now = .opened ↔ ∃ u, h.circuitOpenUntil = some u ∧ now < u := by
  unfold stateOf
  cases h.circuitOpenUntil with
  | none => simp
  | some u => by_cases hu : now < u <;> simp [hu]

theorem stateOf_halfOpen_iff (h : Health) (now : Int) :
    stateOf h now = .halfOpen ↔ ∃ u, h.circuitOpenUntil = some u ∧ u ≤ now := by
  unfold stateOf
  cases h.circuitOpenUntil with
  | none => simp
  | some u =>
    by_cases hu : now < u
    · simp [hu]
    · simp [hu, Int.not_lt.1 hu]

theorem afterFailure_cases (rules : ErrorClass → Rule) (keep : Bool) (h : Health)
    (cls : ErrorClass) (message : String) (now : Int) :
    let base := failureNoted h cls message now
    let h' := afterFailure rules keep h cls message now
    (∃ u, h.circuitOpenUntil = some u ∧ now < u ∧ h' = base) ∨
    (∃ u, h.circuitOpenUntil = some u ∧ u ≤ now ∧ h' =
      reopened rules base cls now (h.openStreak + 1) (if keep then h.openedAt.getD now else now)) ∨
    (h.circuitOpenUntil = none ∧ (rules cls).threshold ≤ h.consecutiveFailures + 1 ∧
      h' = reopened rules base cls now 1 now) ∨
    (h.circuitOpenUntil = none ∧ h.consecutiveFailures + 1 < (rules cls).threshold ∧ h' = base) := by
  unfold afterFailure
  cases hs : stateOf h now with
  | opened =>
    obtain ⟨u, hu, hlt⟩ := (stateOf_opened_iff h now).1 hs
    exact Or.inl ⟨u, hu, hlt, rfl⟩
  | halfOpen =>
    obtain ⟨u, hu, hle⟩ := (stateOf_halfOpen_iff h now).1 hs
    exact Or.inr (Or.inl ⟨u, hu, hle, rfl⟩)
  | closed =>
    have hn := (stateOf_closed_iff h now).1 hs
    by_cases ht : (rules cls).threshold ≤ h.consecutiveFailures + 1
    · exact Or.inr (Or.inr (Or.inl ⟨hn, ht, if_pos ht⟩))
    · exact Or.inr (Or.inr (Or.inr ⟨hn, Nat.not_le.1 ht, if_neg ht⟩))

/-! ## What trips a connection

`Trips` says it of the table: one signal of a solo class, or two refused models.
It does not depend on the time the circuit is read at. -/

/-- `h` is the row of a deployment of the connection. -/
structure Deployed (t : Table Key Health) (c : String) (k : Key) (h : Health) : Prop where
  row : t.get? k = some h
  connection : k.connectionKey = c
  model : k.modelKey ≠ connectionModel

/-- A deployment of the connection has an answer on record at `ok`. -/
def Answered (t : Table Key Health) (c : String) (ok : Int) : Prop :=
  ∃ k h, Deployed t c k h ∧ h.lastOkAt = some ok

/-- An account-wide refusal newer than every answer on the connection. -/
structure Signal (t : Table Key Health) (c : String) (k : Key) (h : Health) : Prop where
  deployed : Deployed t c k h
  accountWide : accountWide h = true
  notClosed : h.circuitOpenUntil ≠ none
  newer : ∃ e, h.lastErrorAt = some e ∧ ∀ ok, Answered t c ok → ok < e

/-- A refusal of one model that began after every answer on the connection. -/
structure Denied (t : Table Key Health) (c : String) (k : Key) (h : Health) : Prop where
  signal : Signal t c k h
  denied : h.lastErrorClass = some .accessDenied
  began : ∀ o, h.openedAt = some o → ∀ ok, Answered t c ok → ok ≤ o

def Trips (t : Table Key Health) (c : String) : Prop :=
  (∃ k h, Signal t c k h ∧ soloClass h = true) ∨
    ∃ k h k' h', Denied t c k h ∧ Denied t c k' h' ∧ k.modelKey ≠ k'.modelKey

theorem mem_mine (t : Table Key Health) (c : String) (x : Row) : x ∈ mine (rowsOf t c) c ↔ Deployed t c x.1 x.2 := by
  unfold mine rowsOf
  simp only [mem_filter, decide_eq_true_eq, ← Table.get?_eq_some_iff (k := x.1) (r := x.2)]
  constructor
  · rintro ⟨⟨hr, -⟩, hc, hm⟩
    exact ⟨hr, hc, hm⟩
  · rintro ⟨hr, hc, hm⟩
    exact ⟨⟨hr, hc⟩, hc, hm⟩

theorem mem_answers (t : Table Key Health) (c : String) (ok : Int) :
    ok ∈ ((mine (rowsOf t c) c).filterMap fun x => x.2.lastOkAt) ↔ Answered t c ok := by
  rw [mem_filterMap]
  constructor
  · rintro ⟨x, hx, hok⟩
    exact ⟨x.1, x.2, (mem_mine t c x).1 hx, hok⟩
  · rintro ⟨k, h, hd, hok⟩
    exact ⟨(k, h), (mem_mine t c (k, h)).2 hd, hok⟩

theorem lastOk_eq_some_iff (t : Table Key Health) (c : String) (ok : Int) :
    lastOk (rowsOf t c) c = some ok ↔ Answered t c ok ∧ ∀ ok', Answered t c ok' → ok' ≤ ok := by
  unfold lastOk
  rw [List.max?_eq_some_iff, mem_answers]
  simp only [mem_answers]

theorem lastOk_eq_none_iff (t : Table Key Health) (c : String) :
    lastOk (rowsOf t c) c = none ↔ ∀ ok, ¬ Answered t c ok := by
  unfold lastOk
  rw [List.max?_eq_none_iff, eq_nil_iff_forall_not_mem]
  simp only [mem_answers]

theorem forall_answered_iff (t : Table Key Health) (c : String) {p : Int → Prop} (hp : ∀ a b, a ≤ b → p b → p a) :
    (∀ ok, Answered t c ok → p ok) ↔ ∀ ok, lastOk (rowsOf t c) c = some ok → p ok := by
  constructor
  · intro h ok hok
    exact h ok ((lastOk_eq_some_iff t c ok).1 hok).1
  · intro h ok hans
    cases hlast : lastOk (rowsOf t c) c with
    | none => exact absurd hans ((lastOk_eq_none_iff t c).1 hlast ok)
    | some last => exact hp ok last (((lastOk_eq_some_iff t c last).1 hlast).2 ok hans) (h last hlast)

theorem errorAfter_iff (t : Table Key Health) (c : String) (h : Health) :
    errorAfter h (lastOk (rowsOf t c) c) = true ↔ ∃ e, h.lastErrorAt = some e ∧ ∀ ok, Answered t c ok → ok < e := by
  unfold errorAfter
  cases he : h.lastErrorAt with
  | none => simp
  | some e =>
    simp only [Option.some.injEq, exists_eq_left',
      forall_answered_iff t c fun a b hab (hb : b < e) => lt_of_le_of_lt hab hb]
    cases lastOk (rowsOf t c) c with
    | none => simp
    | some ok => simp

theorem openedBefore_eq_false_iff (t : Table Key Health) (c : String) (h : Health) :
    openedBefore h (lastOk (rowsOf t c) c) = false ↔ ∀ o, h.openedAt = some o → ∀ ok, Answered t c ok → ok ≤ o := by
  unfold openedBefore
  cases ho : h.openedAt with
  | none => simp
  | some o =>
    simp only [Option.some.injEq, forall_eq', forall_answered_iff t c fun a b hab (hb : b ≤ o) => le_trans hab hb]
    cases lastOk (rowsOf t c) c with
    | none => simp
    | some ok => simp

theorem mem_signals (t : Table Key Health) (c : String) (now : Int) (x : Row) :
    x ∈ signals (rowsOf t c) c now ↔ Signal t c x.1 x.2 := by
  unfold signals
  rw [mem_filter, mem_mine]
  simp only [Bool.and_eq_true, decide_eq_true_eq, ne_eq, stateOf_closed_iff, errorAfter_iff]
  constructor
  · rintro ⟨hd, ⟨ha, hn⟩, he⟩
    exact ⟨hd, ha, hn, he⟩
  · rintro ⟨hd, ha, hn, he⟩
    exact ⟨hd, ⟨ha, hn⟩, he⟩

theorem mem_soloRows (t : Table Key Health) (c : String) (now : Int) (x : Row) :
    x ∈ soloRows (rowsOf t c) c now ↔ Signal t c x.1 x.2 ∧ soloClass x.2 = true := by
  unfold soloRows
  rw [mem_filter, mem_signals]

theorem mem_deniedRows (t : Table Key Health) (c : String) (now : Int) (x : Row) :
    x ∈ deniedRows (rowsOf t c) c now ↔ Denied t c x.1 x.2 := by
  unfold deniedRows
  rw [mem_filter, mem_signals]
  simp only [Bool.and_eq_true, decide_eq_true_eq, Bool.not_eq_true', openedBefore_eq_false_iff]
  constructor
  · rintro ⟨hs, hd, hb⟩
    exact ⟨hs, hd, hb⟩
  · rintro ⟨hs, hd, hb⟩
    exact ⟨hs, hd, hb⟩

theorem two_le_dedup_length {α : Type} [DecidableEq α] (l : List α) : 2 ≤ l.dedup.length ↔ ∃ a ∈ l, ∃ b ∈ l, a ≠ b := by
  rw [← card_toFinset]
  show 1 < _ ↔ _
  rw [Finset.one_lt_card]
  simp only [mem_toFinset]

theorem deniedModels_iff (t : Table Key Health) (c : String) (now : Int) : connectionDeniedModels ≤
        ((deniedRows (rowsOf t c) c now).map fun x => x.1.modelKey).dedup.length ↔
      ∃ k h k' h', Denied t c k h ∧ Denied t c k' h' ∧ k.modelKey ≠ k'.modelKey := by
  unfold connectionDeniedModels
  rw [two_le_dedup_length]
  constructor
  · rintro ⟨a, ha, b, hb, hab⟩
    obtain ⟨x, hx, rfl⟩ := mem_map.1 ha
    obtain ⟨y, hy, rfl⟩ := mem_map.1 hb
    exact ⟨x.1, x.2, y.1, y.2, (mem_deniedRows t c now x).1 hx, (mem_deniedRows t c now y).1 hy, hab⟩
  · rintro ⟨k, h, k', h', hd, hd', hne⟩
    exact ⟨k.modelKey, mem_map.2 ⟨(k, h), (mem_deniedRows t c now (k, h)).2 hd, rfl⟩,
      k'.modelKey, mem_map.2 ⟨(k', h'), (mem_deniedRows t c now (k', h')).2 hd', rfl⟩, hne⟩

theorem mem_tripping (t : Table Key Health) (c : String) (now : Int) (x : Row) :
    x ∈ tripping (rowsOf t c) c now ↔ (Signal t c x.1 x.2 ∧ soloClass x.2 = true) ∨ (Denied t c x.1 x.2 ∧
        ∃ k h k' h', Denied t c k h ∧ Denied t c k' h' ∧ k.modelKey ≠ k'.modelKey) := by
  unfold tripping
  rw [mem_append, mem_soloRows, ← deniedModels_iff t c now]
  by_cases hn : ((deniedRows (rowsOf t c) c now).map fun x => x.1.modelKey).dedup.length <
      connectionDeniedModels
  · simp [Nat.not_le.2 hn]
  · rw [if_neg hn, mem_deniedRows]
    simp [Nat.not_lt.1 hn]

theorem tripping_eq_nil_iff (t : Table Key Health) (c : String) (now : Int) :
    tripping (rowsOf t c) c now = [] ↔ ¬ Trips t c := by
  rw [eq_nil_iff_forall_not_mem]
  simp only [mem_tripping]
  constructor
  · rintro h (⟨k, r, hs⟩ | ⟨k, r, k', r', hd, hd', hne⟩)
    · exact h (k, r) (Or.inl hs)
    · exact h (k, r) (Or.inr ⟨hd, k, r, k', r', hd, hd', hne⟩)
  · rintro h x (hs | ⟨-, hd⟩)
    · exact h (Or.inl ⟨x.1, x.2, hs⟩)
    · exact h (Or.inr hd)

theorem connectionHealth_eq_none_iff (t : Table Key Health) (c : String) (now : Int) :
    connectionHealth (rowsOf t c) c now = none ↔ ¬ Trips t c := by
  rw [← tripping_eq_nil_iff t c now]
  unfold connectionHealth
  dsimp only
  cases hn : newest (tripping (rowsOf t c) c now) with
  | none => simp [(Table.firstBy_eq_none _ _).1 hn]
  | some n =>
    simp only [reduceCtorEq, false_iff]
    intro hnil
    rw [hnil] at hn
    cases hn

end CisApp.Gateway
