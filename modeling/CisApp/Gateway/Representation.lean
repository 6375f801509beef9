import CisApp.Gateway.Route

/-! What a health row looks like (`shared/llm_client/breaker.py`).

A row changes by five functions only: a failure, a success, the probe lease taken or given back, and the re-probe
after a recovery.  `Represents h now` is what their fields have to do with each other: an open period, its streak and
its start come and go together, a closed row counts failures below the threshold of the last class, and a lease
stands on a half-open row only.  `health_row_represents` says so of every row reached from a fresh one, whatever the
order of the calls and whichever rule table a failure is judged by.

The lease is where the clock matters.  A row that is half-open stays so until it is written, so the state at a
later time follows from `Timely`: a lease is only ever taken after the open period. -/

namespace CisApp.Gateway

def classes : List ErrorClass := [.accessDenied, .quotaExhausted, .throttled, .credential, .other]

/-- `error_class if error_class in rules else OTHER`; every rule table has the five classes. -/
def classOf (errorClass : String) : ErrorClass := (classes.find? fun c => c.name = errorClass).getD .other

inductive RuleTable where
  | rules
  | accountDenied
  /-- `PROVIDER_RULES`, the non-LLM provider circuits. -/
  | provider
deriving Repr, DecidableEq

def RuleTable.get : RuleTable → ErrorClass → Rule
  | .rules => Gateway.rules
  | .accountDenied => accountDeniedRules
  | .provider => accountDeniedRules

inductive RowOp where
  | failure (errorClass message : String) (table : RuleTable)
  | success
  | claim
  | halfOpenNow
  | leaseReleased
deriving Repr, DecidableEq

def RowOp.apply (h : Health) (now : Int) : RowOp → Health
  | .failure errorClass message table => afterFailure table.get true h (classOf errorClass) message now
  | .success => afterSuccess h now
  | .claim => (claimed h now).getD h
  | .halfOpenNow => (Gateway.halfOpenNow h now).getD h
  | .leaseReleased => (Gateway.leaseReleased h).getD h

structure Clocked where
  row : Health
  now : Int

structure Later where
  wait : Nat
  op : RowOp
deriving Repr, DecidableEq

def Clocked.step (s : Clocked) (l : Later) : Clocked :=
  ⟨l.op.apply s.row (s.now + l.wait), s.now + l.wait⟩

/-! ## The invariant -/

theorem threshold_get (table : RuleTable) (c : ErrorClass) : (table.get c).threshold = (rules c).threshold := by
  cases table <;> cases c <;> rfl

structure Represents (h : Health) (now : Int) : Prop where
  streak : h.circuitOpenUntil = none ↔ h.openStreak = 0
  opened : h.openStreak = 0 ↔ h.openedAt = none
  counted : h.circuitOpenUntil = none →
    h.consecutiveFailures = 0 ∨ ∃ c, h.lastErrorClass = some c ∧ h.consecutiveFailures < (rules c).threshold
  closedLease : h.circuitOpenUntil = none → h.probeUntil = none
  openLease : ∀ later, now ≤ later → stateOf h later = .opened → h.probeUntil = none
  began : ∀ o, h.openedAt = some o → ∃ e, h.lastErrorAt = some e ∧ o ≤ e

/-- What a step needs beside `Represents`: the dates of a row are not in the future, and a lease was taken
after the open period. -/
structure Timely (h : Health) (now : Int) : Prop where
  represents : Represents h now
  past : ∀ o, h.openedAt = some o → o ≤ now
  lease : h.probeUntil ≠ none → ∃ u, h.circuitOpenUntil = some u ∧ u ≤ now

/-- A failed probe opens the circuit again for the period of its class, doubled with the streak up to the cap. -/
def ProbePeriod (s : Clocked) (l : Later) : Prop :=
  ∀ errorClass message table, l.op = .failure errorClass message table →
    stateOf s.row (s.now + l.wait) = .halfOpen →
    let rule := table.get (classOf errorClass)
    let h := (s.step l).row
    h.openStreak = s.row.openStreak + 1 ∧ h.lastErrorClass = some (classOf errorClass) ∧
      h.circuitOpenUntil =
        some (s.now + l.wait + secs (min (rule.openS * 2 ^ (h.openStreak - 1)) rule.maxOpenS : Nat))

variable {h : Health} {now : Int}

theorem Represents.mono {later : Int} (hr : Represents h now) (hle : now ≤ later) : Represents h later :=
  { hr with openLease := fun t ht => hr.openLease t (le_trans hle ht) }

theorem Timely.mono {later : Int} (hs : Timely h now) (hle : now ≤ later) : Timely h later := by
  refine ⟨hs.represents.mono hle, fun o ho => le_trans (hs.past o ho) hle, fun hp => ?_⟩
  obtain ⟨u, hu, hun⟩ := hs.lease hp
  exact ⟨u, hu, le_trans hun hle⟩

theorem timely_fresh (now : Int) : Timely {} now := by
  refine ⟨⟨?_, ?_, ?_, ?_, ?_, ?_⟩, ?_, ?_⟩
  · simp
  · simp
  · exact fun _ => Or.inl rfl
  · exact fun _ => rfl
  · exact fun _ _ _ => rfl
  · intro o ho
    cases ho
  · intro o ho
    cases ho
  · exact fun hp => absurd rfl hp

theorem timely_of_open {u o e : Int} (hu : h.circuitOpenUntil = some u)
    (hstreak : h.openStreak ≠ 0) (ho : h.openedAt = some o) (he : h.lastErrorAt = some e) (hoe : o ≤ e)
    (hon : o ≤ now) (hp : h.probeUntil = none) : Timely h now := by
  refine ⟨⟨?_, ?_, ?_, ?_, ?_, ?_⟩, ?_, ?_⟩
  · simp [hu, hstreak]
  · simp [ho, hstreak]
  · intro hnone
    rw [hu] at hnone
    cases hnone
  · exact fun _ => hp
  · exact fun _ _ _ => hp
  · intro o' ho'
    obtain rfl := Option.some.inj (ho.symm.trans ho')
    exact ⟨e, he, hoe⟩
  · intro o' ho'
    obtain rfl := Option.some.inj (ho.symm.trans ho')
    exact hon
  · exact fun hne => absurd hp hne

/-! ## One write -/

theorem Timely.failure (hs : Timely h now) (table : RuleTable) (c : ErrorClass)
    (message : String) : Timely (afterFailure table.get true h c message now) now := by
  have hr := hs.represents
  rcases afterFailure_cases table.get true h c message now with
    ⟨u, hu, -, heq⟩ | ⟨u, hu, -, heq⟩ | ⟨-, -, heq⟩ | ⟨hnone, hlt, heq⟩
  · -- still open: the row keeps its period and its start
    rw [heq]
    have hstreak : h.openStreak ≠ 0 := fun h0 => by
      rw [hr.streak.2 h0] at hu
      cases hu
    obtain ⟨o, ho⟩ := Option.ne_none_iff_exists'.1 fun hn => hstreak (hr.opened.2 hn)
    exact timely_of_open (u := u) (o := o) (e := now) hu hstreak ho rfl (hs.past o ho) (hs.past o ho) rfl
  · -- a failed probe: the start of the streak is kept
    rw [heq]
    have hstart : h.openedAt.getD now ≤ now := by
      cases ho : h.openedAt with
      | none => exact le_refl now
      | some o => exact hs.past o ho
    exact timely_of_open (e := now) rfl (Nat.succ_ne_zero _) rfl rfl hstart hstart rfl
  · rw [heq]
    exact timely_of_open (e := now) rfl Nat.one_ne_zero rfl rfl (le_refl _) (le_refl _) rfl
  · -- below the threshold: still closed
    rw [heq]
    have h0 := hr.streak.1 hnone
    have hstart := hr.opened.1 h0
    refine ⟨⟨hr.streak, hr.opened, ?_, fun _ => rfl, fun _ _ _ => rfl, ?_⟩, hs.past, fun hne => absurd rfl hne⟩
    · intro _
      refine Or.inr ⟨c, rfl, ?_⟩
      rw [← threshold_get table c]
      exact hlt
    · intro o ho
      rw [show (failureNoted h c message now).openedAt = h.openedAt from rfl, hstart] at ho
      cases ho

theorem timely_success (h : Health) (now : Int) : Timely (afterSuccess h now) now := by
  refine ⟨⟨?_, ?_, fun _ => Or.inl rfl, fun _ => rfl, fun _ _ _ => rfl, ?_⟩, ?_, fun hne => absurd rfl hne⟩
  · simp [afterSuccess]
  · simp [afterSuccess]
  · intro o ho
    cases ho
  · intro o ho
    cases ho

theorem Timely.claim {h' : Health} (hs : Timely h now) (hc : claimed h now = some h') : Timely h' now := by
  unfold claimed at hc
  split at hc
  · cases hc
  · next hfree =>
    obtain rfl := Option.some.inj hc
    obtain ⟨hhalf, -⟩ := not_or.1 hfree
    obtain ⟨u, hu, hun⟩ := (stateOf_halfOpen_iff h now).1 (not_not.1 hhalf)
    have hr := hs.represents
    refine ⟨⟨hr.streak, hr.opened, hr.counted, ?_, ?_, hr.began⟩, hs.past, fun _ => ⟨u, hu, hun⟩⟩
    · intro hnone
      rw [show h.circuitOpenUntil = none from hnone] at hu
      cases hu
    · -- the period is over and stays over
      intro later hle hopen
      obtain ⟨u', hu', hlt⟩ := (stateOf_opened_iff _ _).1 hopen
      obtain rfl := Option.some.inj (hu.symm.trans hu')
      omega

theorem Timely.halfOpenNow {h' : Health} (hs : Timely h now)
    (hc : Gateway.halfOpenNow h now = some h') : Timely h' now := by
  unfold Gateway.halfOpenNow at hc
  split at hc
  · cases hc
  · next hopen =>
    obtain rfl := Option.some.inj hc
    obtain ⟨hopen, -⟩ := not_or.1 hopen
    obtain ⟨u, hu, -⟩ := (stateOf_opened_iff h now).1 (not_not.1 hopen)
    have hr := hs.represents
    have hstreak : h.openStreak ≠ 0 := fun h0 => by
      rw [hr.streak.2 h0] at hu
      cases hu
    obtain ⟨o, ho⟩ := Option.ne_none_iff_exists'.1 fun hn => hstreak (hr.opened.2 hn)
    obtain ⟨e, he, hoe⟩ := hr.began o ho
    exact timely_of_open (u := now) rfl hstreak ho he hoe (hs.past o ho) rfl

theorem Timely.released {h' : Health} (hs : Timely h now) (hc : leaseReleased h = some h') : Timely h' now := by
  unfold leaseReleased at hc
  split at hc
  · obtain rfl := Option.some.inj hc
    have hr := hs.represents
    exact ⟨⟨hr.streak, hr.opened, hr.counted, fun _ => rfl, fun _ _ _ => rfl, hr.began⟩, hs.past,
      fun hne => absurd rfl hne⟩
  · cases hc

theorem timely_getD {w : Option Health} (hs : Timely h now)
    (hw : ∀ h', w = some h' → Timely h' now) : Timely (w.getD h) now := by
  cases hc : w with
  | none => exact hs
  | some h' => exact hw h' hc

theorem Timely.apply (hs : Timely h now) (op : RowOp) : Timely (op.apply h now) now := by
  cases op with
  | failure errorClass message table => exact hs.failure table _ message
  | success => exact timely_success h now
  | claim => exact timely_getD hs fun _ => hs.claim
  | halfOpenNow => exact timely_getD hs fun _ => hs.halfOpenNow
  | leaseReleased => exact timely_getD hs fun _ => hs.released

/-! ## Every run -/

theorem timely_step (s : Clocked) (l : Later) (hs : Timely s.row s.now) : Timely (s.step l).row (s.step l).now :=
  (hs.mono (show s.now ≤ s.now + l.wait by omega)).apply l.op

theorem probePeriod (s : Clocked) (l : Later) : ProbePeriod s l := by
  intro errorClass message table hop hhalf
  have hrow : (s.step l).row = afterFailure table.get true s.row (classOf errorClass) message (s.now + l.wait) := by
    unfold Clocked.step
    rw [hop]
    rfl
  have hre : (s.step l).row = reopened table.get (failureNoted s.row (classOf errorClass) message (s.now + l.wait))
      (classOf errorClass) (s.now + l.wait) (s.row.openStreak + 1) (s.row.openedAt.getD (s.now + l.wait)) := by
    rw [hrow]
    unfold afterFailure
    rw [hhalf]
    rfl
  rw [hre]
  exact ⟨rfl, rfl, rfl⟩

/-- **The health row.**  Whatever happens to a fresh row, in any order and at times that do not go back, its
fields fit together, and a failed probe doubles the open period. -/
theorem health_row_represents (start : Int) (writes : List Later) :
    Always Clocked.step (fun s => Represents s.row s.now) ⟨{}, start⟩ writes ∧
      Along Clocked.step ProbePeriod ⟨{}, start⟩ writes := by
  have htimely : Always Clocked.step (fun s => Timely s.row s.now) ⟨{}, start⟩ writes :=
    always_of_step timely_step writes (timely_fresh start)
  refine ⟨htimely.mono fun s hs => hs.represents, ?_⟩
  exact htimely.along fun s l _ _ => probePeriod s l

end CisApp.Gateway
