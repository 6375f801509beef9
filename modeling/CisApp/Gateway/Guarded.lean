import CisApp.Gateway.Capacity
import CisApp.Gateway.Limiter
import CisApp.Gateway.Recovery

/-! One provider call under the breaker (`guarded` and `limit` in `shared/llm_client/breaker.py`, `reserve` in
`capacity.py`).

A call is admitted first, which on a half-open circuit takes the probe lease; then it waits for tokens, for one of the
connection's slots and for its rolling minute; then it runs, and only there its outcome is written.  A limiter that
gives up raises past the part that writes, so the lease stays in the row (`saturated_probe_keeps_lease`).
`lease_freed_iff` says that this is the only way: every outcome of the call itself ends the lease, a refusal that the
call raises as its own apart.

Other calls go on meanwhile (`others`), and what a limiter meets each time it looks is theirs to decide: the looks are
given, the last of them not before the deadline. -/

namespace CisApp.Gateway

open List

/-! ## The limiters -/

/-- A wait: look until it is good; give up when a look that is not good is over.  The last look is over. -/
def polls {ρ : Type} (good tooLate : ρ → Bool) (last : ρ) : List ρ → Bool
  | [] => good last
  | l :: looks => if good l then true else if tooLate l then false else polls good tooLate last looks

/-- The covering windows at one pass of the loop in `reserve`. -/
structure TokenLook where
  now : Int
  windows : List (Limit × TpmWindow)

def TokenLook.fits (l : TokenLook) (tokens : Nat) (line : Line) : Bool :=
  l.windows.all fun w => !blocked w.1 (w.2.purge l.now) tokens line

/-- A call of `reserve` that some limit row covers. -/
structure TokenWait where
  tokens : Nat
  line : Line
  started : Int
  looks : List TokenLook
  last : TokenLook
  late : started + secs (waitS line) ≤ last.now

def reserveTokens (v : TokenWait) : Bool :=
  polls (·.fits v.tokens v.line) (fun l => decide (v.started + secs (waitS v.line) ≤ l.now)) v.last v.looks

/-- The rolling minute at one pass of `_take_rate_slot`. -/
structure RateLook where
  now : Int
  calls : List Int

def RateLook.recent (l : RateLook) : List Int := Window.purge id (secs rateWindowS) l.now l.calls

/-- `now + wait > deadline`. -/
def RateLook.tooLate (l : RateLook) (deadline : Int) : Bool :=
  decide (deadline < l.now + (secs rateWindowS - (l.now - l.recent.headD 0)))

/-- A call at the limiter of its connection. -/
structure SlotWait where
  row : LimitRow
  started : Int
  permitAfter : Option Nat
  looks : List RateLook
  last : RateLook
  late : started + secs limitWaitS ≤ last.now

/-- `sem.acquire(timeout=LIMIT_WAIT_S)`. -/
def SlotWait.acquires (v : SlotWait) : Bool :=
  v.row.config.maxConcurrency.isNone || v.permitAfter.any fun d => decide ((d : Int) ≤ secs limitWaitS)

def takeRateSlot (v : SlotWait) (rpm : Nat) : Bool :=
  polls (fun l => decide (l.recent.length < rpm)) (·.tooLate (v.started + secs limitWaitS)) v.last v.looks

/-- What a `LimiterSaturated` is about. -/
inductive Saturated where
  | tokens
  | maxConcurrency
  | rpm
deriving Repr, DecidableEq

/-- What the limiters meet; without a limit row or an estimate there are no tokens to wait for. -/
structure LimitWait where
  tokens : Option TokenWait
  slot : SlotWait

/-- `limit`: the tokens first, so that a call waiting for them holds no slot. -/
def limited (v : LimitWait) : Except Saturated Unit :=
  if v.tokens.any fun w => !reserveTokens w then .error .tokens
  else if !v.slot.acquires then .error .maxConcurrency
  else if v.slot.row.config.rpm.any fun rpm => !takeRateSlot v.slot rpm then .error .rpm
  else .ok ()

/-! ## The call -/

/-- What `call()` raises, as far as `record_failure` tells it apart. -/
inductive CallError where
  | provider (cls : ErrorClass) (message : String)
  | request
  | circuitOpen
  | limiterSaturated
deriving Repr, DecidableEq

inductive CallEnd where
  | result
  /-- `answered`: of a type that the caller counts as an answer. -/
  | raised (e : CallError) (answered : Bool)
deriving Repr, DecidableEq

inductive Exit where
  | returned
  | raised (e : CallError)
  | circuitOpen
  | saturated (s : Saturated)
deriving Repr, DecidableEq

def recordError (s : Breaker) (key : Key) (e : CallError) (now : Int) : Breaker :=
  match e with
  | .provider cls message => recordFailure s key cls message now
  | .request => recordRequestError s key
  | .circuitOpen | .limiterSaturated => s

/-- The outcome of a call that was made, on the breaker. -/
def recordEnd (s : Breaker) (key : Key) (now mono : Int) : CallEnd → Exit × Breaker
  | .result => (.returned, recordSuccess s key now mono)
  | .raised e true => (.raised e, recordSuccess s key now mono)
  | .raised e false => (.raised e, recordError s key e now)

/-- One call on the deployment, admitted at `now` and over at `later`; `others` is what other calls do on the breaker
meanwhile. -/
def guarded (s : Breaker) (key : Key) (now : Int) (limits : LimitWait) (others : List Op) (later mono : Int)
    (outcome : CallEnd) : Exit × Breaker :=
  let admitted := admits s key now
  if !admitted.1 then (.circuitOpen, admitted.2)
  else
    let s := run step admitted.2 others
    match limited limits with
    | .error k => (.saturated k, s)
    | .ok () => recordEnd s key later mono outcome

/-! ## The lease -/

/-- The admission takes the probe lease. -/
def tookLease (s : Breaker) (key : Key) (now : Int) : Bool :=
  s.enabled && (connectionOpen s key.connectionKey now).isNone && (claimed (rowAt s.rows key) now).isSome

/-- The row of the deployment carries the lease of a probe admitted at `now`. -/
def carriesLease (s : Breaker) (key : Key) (now : Int) : Bool :=
  decide ((rowAt s.rows key).probeUntil = some (now + secs probeLeaseS))

/-- Some look is good, and no look before it was over. -/
def Comes {ρ : Type} (good tooLate : ρ → Bool) (looks : List ρ) : Prop :=
  ∃ before l after, looks = before ++ l :: after ∧ good l = true ∧ ∀ e ∈ before, tooLate e = false

/-- The limiters have room in time: for the tokens before the line's wait is over, for a slot within 30 s, and for
the rolling minute within the same 30 s. -/
structure Room (v : LimitWait) : Prop where
  tokens : ∀ w, v.tokens = some w → Comes (·.fits w.tokens w.line)
    (fun l => decide (w.started + secs (waitS w.line) ≤ l.now)) (w.looks ++ [w.last])
  concurrency : v.slot.row.config.maxConcurrency ≠ none →
    ∃ d, v.slot.permitAfter = some d ∧ (d : Int) ≤ secs limitWaitS
  rate : ∀ rpm, v.slot.row.config.rpm = some rpm → Comes (fun l => decide (l.recent.length < rpm))
    (·.tooLate (v.slot.started + secs limitWaitS)) (v.slot.looks ++ [v.slot.last])

/-- The call ends with an answer or with an error of its own, not with one that the breaker takes for its own refusal. -/
def CallEnd.counted : CallEnd → Bool
  | .raised .circuitOpen false | .raised .limiterSaturated false => false
  | _ => true

theorem polls_iff {ρ : Type} (good tooLate : ρ → Bool) (last : ρ) (looks : List ρ) :
    polls good tooLate last looks = true ↔ Comes good tooLate (looks ++ [last]) := by
  induction looks with
  | nil =>
    constructor
    · intro h
      exact ⟨[], last, [], rfl, h, nofun⟩
    · rintro ⟨before, l, after, heq, hgood, -⟩
      have hmem : l ∈ [last] := by
        rw [show [last] = before ++ l :: after from heq]
        simp
      rw [mem_singleton.1 hmem] at hgood
      exact hgood
  | cons x looks ih =>
    unfold polls
    by_cases hx : good x = true
    · rw [if_pos hx]
      exact iff_of_true rfl ⟨[], x, looks ++ [last], rfl, hx, nofun⟩
    · rw [if_neg hx]
      by_cases hover : tooLate x = true
      · rw [if_pos hover]
        refine iff_of_false (by simp) ?_
        rintro ⟨before, l, after, heq, hgood, hbefore⟩
        cases before with
        | nil =>
          obtain ⟨rfl, -⟩ := List.cons.inj heq
          exact hx hgood
        | cons b before =>
          obtain ⟨rfl, -⟩ := List.cons.inj heq
          rw [hbefore x mem_cons_self] at hover
          cases hover
      · rw [if_neg hover, ih]
        constructor
        · rintro ⟨before, l, after, heq, hgood, hbefore⟩
          refine ⟨x :: before, l, after, congrArg (x :: ·) heq, hgood, fun e he => ?_⟩
          rcases mem_cons.1 he with rfl | he
          · simpa using hover
          · exact hbefore e he
        · rintro ⟨before, l, after, heq, hgood, hbefore⟩
          cases before with
          | nil =>
            obtain ⟨rfl, -⟩ := List.cons.inj heq
            exact absurd hgood hx
          | cons b before =>
            obtain ⟨rfl, hrest⟩ := List.cons.inj heq
            exact ⟨before, l, after, hrest, hgood, fun e he => hbefore e (mem_cons_of_mem _ he)⟩

theorem limited_ok_iff (v : LimitWait) : limited v = .ok () ↔ Room v := by
  have htokens : (v.tokens.any fun w => !reserveTokens w) = false ↔ ∀ w, v.tokens = some w →
      Comes (·.fits w.tokens w.line) (fun l => decide (w.started + secs (waitS w.line) ≤ l.now))
        (w.looks ++ [w.last]) := by
    cases v.tokens with
    | none => simp
    | some w => simp [reserveTokens, polls_iff]
  have hslot : v.slot.acquires = true ↔ (v.slot.row.config.maxConcurrency ≠ none →
      ∃ d, v.slot.permitAfter = some d ∧ (d : Int) ≤ secs limitWaitS) := by
    unfold SlotWait.acquires
    cases v.slot.row.config.maxConcurrency <;> cases v.slot.permitAfter <;> simp
  have hrate : (v.slot.row.config.rpm.any fun rpm => !takeRateSlot v.slot rpm) = false ↔
      ∀ rpm, v.slot.row.config.rpm = some rpm → Comes (fun l => decide (l.recent.length < rpm))
        (·.tooLate (v.slot.started + secs limitWaitS)) (v.slot.looks ++ [v.slot.last]) := by
    cases v.slot.row.config.rpm with
    | none => simp
    | some rpm => simp [takeRateSlot, polls_iff]
  unfold limited
  constructor
  · intro h
    split at h
    · cases h
    · next h₁ =>
      split at h
      · cases h
      · next h₂ =>
        split at h
        · cases h
        · next h₃ =>
          exact ⟨htokens.1 (by simpa using h₁), hslot.1 (by simpa using h₂), hrate.1 (by simpa using h₃)⟩
  · intro h
    rw [if_neg (by simp [htokens.2 h.tokens]), if_neg (by simp [hslot.2 h.concurrency]),
      if_neg (by simp [hrate.2 h.rate])]

/-! ## What ends a lease -/

theorem enabled_step (s : Breaker) (op : Op) : (step s op).enabled = s.enabled := by
  cases op with
  | admits key now =>
    unfold step admits
    dsimp only
    split
    · rfl
    · split
      · rfl
      · split <;> rfl
  | success key now mono =>
    unfold step recordSuccess
    dsimp only
    split
    · rfl
    · split <;> rfl
  | failure key cls message now =>
    unfold step recordFailure
    dsimp only
    split <;> rfl
  | requestError key now =>
    unfold step recordRequestError
    dsimp only
    split
    · rfl
    · split <;> rfl

theorem rowAt_transition (t : Table Key Health) (key : Key) (fn : Health → Option Health) :
    rowAt (transition t key fn) key = (fn (rowAt t key)).getD (rowAt t key) :=
  get?_eq_rowAt (by rw [get?_transition, if_pos rfl])

theorem probeUntil_success (s : Breaker) (key : Key) (now mono : Int) (hen : s.enabled = true) :
    (rowAt (recordSuccess s key now mono).rows key).probeUntil = none := by
  rw [rows_recordSuccess s key now mono hen]
  split
  · -- the write is skipped for a healthy row only, which has no lease
    next hskip =>
    have hrow : rowAt (reprobeAfterAccountRecovery s.rows key now) key = rowAt s.rows key := by
      unfold rowAt
      rw [get?_reprobe_self]
    rw [hrow]
    unfold writeSkipped healthy at hskip
    unfold rowAt
    cases hr : s.rows.get? key with
    | none => rfl
    | some h =>
      rw [hr, Bool.and_eq_true] at hskip
      exact (of_decide_eq_true hskip.1).2.2
  · rw [rowAt_transition]
    rfl

theorem probeUntil_error (s : Breaker) (key : Key) (e : CallError) (now : Int) (hen : s.enabled = true)
    (he : (CallEnd.raised e false).counted = true) : (rowAt (recordError s key e now).rows key).probeUntil = none := by
  cases e with
  | provider cls message =>
    unfold recordError recordFailure
    dsimp only
    rw [if_neg (by simp [hen])]
    rw [rowAt_transition]
    rcases afterFailure_cases (failureRules key (rowAt s.rows key) (rowsOf s.rows key.connectionKey)) true
      (rowAt s.rows key) cls message now with ⟨_, -, -, heq⟩ | ⟨_, -, -, heq⟩ | ⟨-, -, heq⟩ | ⟨-, -, heq⟩ <;>
    · rw [Option.getD_some, heq]
      rfl
  | request =>
    unfold recordError recordRequestError
    dsimp only
    rw [if_neg (by simp [hen])]
    split
    · rw [rowAt_transition]
      unfold leaseReleased
      cases hp : (rowAt s.rows key).probeUntil with
      | none => simpa using hp
      | some p => simp
    · next hnone =>
      unfold rowAt
      cases hr : s.rows.get? key with
      | none => rfl
      | some h =>
        rw [hr] at hnone
        simpa using hnone
  | circuitOpen => cases he
  | limiterSaturated => cases he

/-- **Who keeps the probe lease.**  A probe's lease is gone when `guarded` is left exactly if the limiters had room for
the call in time and the call did not raise one of the breaker's own refusals, or another call ended the lease. -/
theorem lease_freed_iff (s : Breaker) (key : Key) (now : Int) (limits : LimitWait) (others : List Op)
    (later mono : Int) (outcome : CallEnd) :
    (tookLease s key now = true → carriesLease (guarded s key now limits others later mono outcome).2 key now = false) ↔
      (tookLease s key now = true → (Room limits ∧ outcome.counted = true) ∨
        carriesLease (run step (admits s key now).2 others) key now = false) := by
  refine imp_congr_right fun htook => ?_
  unfold tookLease at htook
  rw [Bool.and_eq_true, Bool.and_eq_true] at htook
  obtain ⟨⟨hen, hconn⟩, hclaim⟩ := htook
  have hhalf : stateOf (rowAt s.rows key) now = .halfOpen := by
    by_contra hne
    unfold claimed at hclaim
    rw [if_pos (Or.inl hne)] at hclaim
    cases hclaim
  have hadm : (admits s key now).1 = true ∧ (admits s key now).2.enabled = true := by
    unfold admits
    rw [if_neg (by simp [hen]), if_neg (by simpa using hconn)]
    dsimp only
    rw [show stateOf ((s.rows.get? key).getD {}) now = .halfOpen from hhalf]
    exact ⟨hclaim, hen⟩
  have hrun : (run step (admits s key now).2 others).enabled = true :=
    run_of_step (I := fun s => s.enabled = true) (fun s op h => (enabled_step s op).trans h) others hadm.2
  unfold guarded
  dsimp only
  rw [if_neg (by simp [hadm.1])]
  set after := run step (admits s key now).2 others
  have hnone : ∀ b : Breaker, (rowAt b.rows key).probeUntil = none → carriesLease b key now = false := by
    intro b hb
    unfold carriesLease
    rw [hb]
    rfl
  cases hlim : limited limits with
  | error k =>
    have hno : ¬ Room limits := fun h => by
      rw [(limited_ok_iff limits).2 h] at hlim
      cases hlim
    simp [hno]
  | ok u =>
    have hroom := (limited_ok_iff limits).1 hlim
    dsimp only
    cases outcome with
    | result => exact iff_of_true (hnone _ (probeUntil_success after key later mono hrun)) (Or.inl ⟨hroom, rfl⟩)
    | raised e answered =>
      cases answered with
      | true =>
        have hcount : (CallEnd.raised e true).counted = true := by cases e <;> rfl
        exact iff_of_true (hnone _ (probeUntil_success after key later mono hrun)) (Or.inl ⟨hroom, hcount⟩)
      | false =>
        by_cases hcount : (CallEnd.raised e false).counted = true
        · exact iff_of_true (hnone _ (probeUntil_error after key e later hrun hcount)) (Or.inl ⟨hroom, hcount⟩)
        · -- neither counted nor released: the row is as the others left it
          have hsame : recordEnd after key later mono (.raised e false) = (.raised e, after) := by
            cases e with
            | provider cls message => exact absurd rfl hcount
            | request => exact absurd rfl hcount
            | circuitOpen => rfl
            | limiterSaturated => rfl
          rw [hsame]
          simp [hcount]

/-- A half-open deployment of a connection whose one slot stays taken: the probe's call is never made, and its lease
stays in the row. -/
theorem saturated_probe_keeps_lease :
    let key : Key := ⟨"acc2", "nova"⟩
    let row : Health := reopened rules (failureNoted {} .accessDenied "" 0) .accessDenied 0 1 0
    let s : Breaker := ⟨true, Table.empty.insert key row, fun _ => none⟩
    let now : Int := secs 301
    let limits : LimitWait := ⟨none, ⟨⟨some 1, none⟩, now, none, [], ⟨now + secs limitWaitS, []⟩, le_refl _⟩⟩
    tookLease s key now = true ∧
      (guarded s key now limits [] (now + secs limitWaitS) 0 .result).1 = .saturated .maxConcurrency ∧
      carriesLease (guarded s key now limits [] (now + secs limitWaitS) 0 .result).2 key now = true := by
  decide +kernel

end CisApp.Gateway
