import CisApp.Gateway.Health

/-!
# The half-open probe

Any number of tasks share one health row.  `admit` reads the task's own copy of
the row, which may be old (`seen`), and only takes the probe lease on the row
itself, under its lock; an outcome is written the same way.  A call that was let
through while the circuit was closed ends whenever it ends, so its outcome may
meet the lease of a probe that started after it.

The lease is a date in the row and not tied to the call that took it.
`afterFailure` and `leaseReleased` clear it whoever calls them, and
`halfOpenNow` clears it when a sibling answers.  `Disturbs` says when that lets a
second probe in before the first one's lease has run out, and `singleProbe_iff`
that nothing else does.
-/

namespace CisApp.Gateway

structure Shared where
  now : Int
  row : Health
  probes : List (Nat × Int)

inductive ProbeOp where
  | wait (d : Nat)
  /-- `admit` by a call; `blocked` is its task's view of the connection circuit. -/
  | admits (call : Nat) (blocked : Bool) (seen : Option Health)
  /-- `record_success`; a task that holds the deployment for healthy skips the write. -/
  | success (call : Nat) (skipped : Bool)
  /-- `record_failure`; `rows` are the task's copies of the connection's rows. -/
  | failure (call : Nat) (cls : ErrorClass) (message : String) (rows : List Row)
  /-- `record_failure` of a request error. -/
  | requestError (call : Nat) (seen : Option Health)
  /-- A sibling answered: `_reprobe_after_account_recovery` picked the row. -/
  | reprobe

/-- The call goes on to take the lease: its copy of the row is half-open. -/
def wantsProbe (now : Int) (blocked : Bool) (seen : Option Health) : Bool :=
  !blocked && decide (stateOf (seen.getD {}) now = .halfOpen)

def admittedAsProbe (s : Shared) (blocked : Bool) (seen : Option Health) : Bool :=
  wantsProbe s.now blocked seen && (claimed s.row s.now).isSome

def Shared.recorded (s : Shared) (call : Nat) : Shared :=
  { s with probes := s.probes.filter fun p => decide (p.1 ≠ call) }

def probeStep (key : Key) (s : Shared) : ProbeOp → Shared
  | .wait d => { s with now := s.now + d }
  | .admits call blocked seen =>
    if admittedAsProbe s blocked seen then
      { s with
        row := (claimed s.row s.now).getD s.row
        probes := (call, s.now) :: s.probes }
    else s
  | .success call skipped =>
    if skipped then s.recorded call
    else { s.recorded call with row := afterSuccess s.row s.now }
  | .failure call cls message rows =>
    { s.recorded call with
      row := afterFailure (failureRules key s.row rows) true s.row cls message s.now }
  | .requestError call seen =>
    if seen.any (fun h => h.probeUntil.isSome) then
      { s.recorded call with row := (leaseReleased s.row).getD s.row }
    else s.recorded call
  | .reprobe => { s with row := (halfOpenNow s.row s.now).getD s.row }

/-- The end of a lease taken at `t`. -/
def leaseEnd (t : Int) : Int := t + secs probeLeaseS

/-! ## The property -/

/-- No call is admitted as a probe between another's claim and the end of its lease,
unless the other's outcome was recorded. -/
def SingleProbe (s : Shared) : ProbeOp → Prop
  | .admits _ blocked seen => admittedAsProbe s blocked seen = true →
      ∀ p ∈ s.probes, ¬ (p.2 ≤ s.now ∧ s.now < leaseEnd p.2)
  | _ => True

/-- No call could be, from now on and while the row stays as it is. -/
def NoSecondProbe (s : Shared) : Prop :=
  ∀ p ∈ s.probes, ∀ now, s.now ≤ now → now < leaseEnd p.2 → claimed s.row now = none

/-- When the circuit is next half-open after a failure, if that is by then known:
the open period on record, or the one that begins. -/
def nextHalfOpen (key : Key) (s : Shared) (cls : ErrorClass) (rows : List Row) : Option Int :=
  let R := failureRules key s.row rows
  match s.row.circuitOpenUntil with
  | some u =>
    if s.now < u then some u
    else some (s.now + secs (openSeconds R cls (s.row.openStreak + 1)))
  | none =>
    if (R cls).threshold ≤ s.row.consecutiveFailures + 1 then
      some (s.now + secs (openSeconds R cls 1))
    else none

/-- The step makes the circuit half-open and free before the lease of a probe
ends whose outcome is still to come: a failure of another call after which the
circuit is half-open again by then, a request error of another call on a leased
row, a re-probe of an open row. -/
def Disturbs (key : Key) (s : Shared) : ProbeOp → Prop
  | .failure call cls _ rows => ∃ p ∈ s.probes, p.1 ≠ call ∧ s.now < leaseEnd p.2 ∧
      ∃ u, nextHalfOpen key s cls rows = some u ∧ u < leaseEnd p.2
  | .requestError call seen => ∃ p ∈ s.probes, p.1 ≠ call ∧ s.now < leaseEnd p.2 ∧
      (∃ h q, seen = some h ∧ h.probeUntil = some q) ∧ s.row.probeUntil ≠ none ∧
      ∃ u, s.row.circuitOpenUntil = some u ∧ u < leaseEnd p.2
  | .reprobe => (∃ p ∈ s.probes, s.now < leaseEnd p.2) ∧ stateOf s.row s.now = .opened ∧
      accountWide s.row = true
  | _ => False

/-! ## When a row lets no one in -/

/-- Until `w` the circuit is closed, open, or leased. -/
def Guarded (h : Health) (w : Int) : Prop :=
  ∀ u, h.circuitOpenUntil = some u → w ≤ u ∨ ∃ p, h.probeUntil = some p ∧ w ≤ p

theorem claimed_eq_some_iff (h h' : Health) (now : Int) :
    claimed h now = some h' ↔ (∃ u, h.circuitOpenUntil = some u ∧ u ≤ now) ∧
      (∀ p, h.probeUntil = some p → p ≤ now) ∧ h' = { h with probeUntil := some (leaseEnd now) } := by
  have hheld : leaseHeld h now = true ↔ ∃ p, h.probeUntil = some p ∧ now < p := by
    unfold leaseHeld
    cases h.probeUntil with
    | none => simp
    | some p => simp
  unfold claimed
  rw [← stateOf_halfOpen_iff]
  split
  · next hn =>
    simp only [reduceCtorEq, false_iff]
    rintro ⟨hs, hp, -⟩
    rcases hn with hn | hn
    · exact hn hs
    · obtain ⟨p, hp', hlt⟩ := hheld.1 hn
      have := hp p hp'
      omega
  · next hn =>
    push Not at hn
    obtain ⟨hs, hl⟩ := hn
    simp only [Option.some.injEq, hs, true_and, leaseEnd, eq_comm (a := h')]
    refine ⟨fun he => ⟨fun p hp => ?_, he⟩, fun h => h.2⟩
    by_contra hlt
    exact hl (hheld.2 ⟨p, hp, by omega⟩)

theorem claimed_eq_none_iff (h : Health) (now : Int) :
    claimed h now = none ↔ ∀ u, h.circuitOpenUntil = some u → u ≤ now → ∃ p, h.probeUntil = some p ∧ now < p := by
  rw [Option.eq_none_iff_forall_ne_some]
  simp only [ne_eq, claimed_eq_some_iff]
  constructor
  · intro hn u hu hle
    by_contra hp
    push Not at hp
    exact hn _ ⟨⟨u, hu, hle⟩, hp, rfl⟩
  · rintro hn h' ⟨⟨u, hu, hle⟩, hp, -⟩
    obtain ⟨p, hp', hlt⟩ := hn u hu hle
    have := hp p hp'
    omega

theorem guarded_iff {h : Health} {now w : Int} (hw : now < w) :
    Guarded h w ↔ ∀ now', now ≤ now' → now' < w → claimed h now' = none := by
  simp only [claimed_eq_none_iff]
  constructor
  · rintro hg now' - hlt u hu hle
    rcases hg u hu with h | ⟨p, hp, hle'⟩
    · omega
    · exact ⟨p, hp, by omega⟩
  · intro hall u hu
    by_cases huw : w ≤ u
    · exact Or.inl huw
    · obtain ⟨p, hp, hlt⟩ := hall (w - 1) (by omega) (by omega) u hu (by omega)
      exact Or.inr ⟨p, hp, by omega⟩

theorem noSecondProbe_iff (s : Shared) :
    NoSecondProbe s ↔ ∀ p ∈ s.probes, s.now < leaseEnd p.2 → Guarded s.row (leaseEnd p.2) := by
  constructor
  · intro h p hp hlt
    exact (guarded_iff hlt).2 (h p hp)
  · intro h p hp now hle hlt
    exact (guarded_iff (by omega)).1 (h p hp (by omega)) now hle hlt

variable {s : Shared}

theorem mem_recorded {call : Nat} {p : Nat × Int} : p ∈ (s.recorded call).probes ↔ p ∈ s.probes ∧ p.1 ≠ call := by
  unfold Shared.recorded
  rw [List.mem_filter, decide_eq_true_eq]

theorem noSecondProbe_recorded (h : NoSecondProbe s) (call : Nat) : NoSecondProbe (s.recorded call) := fun p hp => h p (mem_recorded.1 hp).1

theorem circuitOpenUntil_afterFailure (key : Key) (s : Shared) (cls : ErrorClass)
    (message : String) (rows : List Row) :
    (afterFailure (failureRules key s.row rows) true s.row cls message s.now).circuitOpenUntil =
      nextHalfOpen key s cls rows := by
  have hcases := afterFailure_cases (failureRules key s.row rows) true s.row cls message s.now
  unfold nextHalfOpen
  rcases hcases with ⟨u, hu, hlt, he⟩ | ⟨u, hu, hle, he⟩ | ⟨hu, ht, he⟩ | ⟨hu, ht, he⟩
  · rw [he, hu]
    simp only [if_pos hlt]
    exact hu
  · rw [he, hu]
    simp only [if_neg (Int.not_lt.2 hle)]
    rfl
  · rw [he, hu]
    simp only [if_pos ht]
    rfl
  · rw [he, hu]
    simp only [if_neg (Nat.not_le.2 ht)]
    exact hu

theorem probeUntil_afterFailure (R : ErrorClass → Rule) (keep : Bool) (h : Health)
    (cls : ErrorClass) (message : String) (now : Int) : (afterFailure R keep h cls message now).probeUntil = none := by
  rcases afterFailure_cases R keep h cls message now with
    ⟨-, -, -, he⟩ | ⟨-, -, -, he⟩ | ⟨-, -, he⟩ | ⟨-, -, he⟩ <;> rw [he] <;> rfl

theorem guarded_of_free {h : Health} (hp : h.probeUntil = none) (w : Int) :
    Guarded h w ↔ ∀ u, h.circuitOpenUntil = some u → w ≤ u := by
  simp [Guarded, hp]

/-! ## One step -/

variable {key : Key}

theorem noSecondProbe_admits (h : NoSecondProbe s) (call : Nat) (blocked : Bool) (seen : Option Health) :
    NoSecondProbe (probeStep key s (.admits call blocked seen)) := by
  unfold probeStep
  dsimp only
  split
  · next hadm =>
    simp only [admittedAsProbe, Bool.and_eq_true] at hadm
    obtain ⟨h', hc⟩ := Option.isSome_iff_exists.1 hadm.2
    obtain ⟨-, -, rfl⟩ := (claimed_eq_some_iff _ _ _).1 hc
    rw [noSecondProbe_iff, hc]
    intro p hp hlt
    -- the leases before this one have run out, or there would have been no claim
    have hle : leaseEnd p.2 ≤ leaseEnd s.now := by
      rcases List.mem_cons.1 hp with rfl | hp
      · exact le_rfl
      · by_contra hgt
        have : s.now < leaseEnd p.2 := hlt
        rw [h p hp s.now le_rfl this] at hc
        cases hc
    exact fun u _ => Or.inr ⟨leaseEnd s.now, rfl, hle⟩
  · exact h

theorem noSecondProbe_success (h : NoSecondProbe s) (call : Nat)
    (skipped : Bool) : NoSecondProbe (probeStep key s (.success call skipped)) := by
  unfold probeStep
  dsimp only
  split
  · exact noSecondProbe_recorded h call
  · rw [noSecondProbe_iff]
    intro p _ _ u hu
    cases hu

theorem noSecondProbe_failure (key : Key) (s : Shared) (call : Nat) (cls : ErrorClass)
    (message : String) (rows : List Row) : NoSecondProbe (probeStep key s (.failure call cls message rows)) ↔
      ¬ Disturbs key s (.failure call cls message rows) := by
  rw [noSecondProbe_iff]
  unfold probeStep Disturbs
  constructor
  · rintro h ⟨p, hp, hne, hlt, u, hu, hult⟩
    have := (guarded_of_free (probeUntil_afterFailure _ _ _ _ _ _) _).1
      (h p (mem_recorded.2 ⟨hp, hne⟩) hlt) u (by rw [circuitOpenUntil_afterFailure, hu])
    omega
  · intro h p hp hlt
    obtain ⟨hp, hne⟩ := mem_recorded.1 hp
    intro u hu
    rw [circuitOpenUntil_afterFailure] at hu
    by_contra hult
    exact h ⟨p, hp, hne, hlt, u, hu, by omega⟩

theorem noSecondProbe_requestError (h : NoSecondProbe s) (call : Nat) (seen : Option Health) :
    NoSecondProbe (probeStep key s (.requestError call seen)) ↔ ¬ Disturbs key s (.requestError call seen) := by
  unfold probeStep Disturbs
  dsimp only
  have hseen : seen.any (fun h => h.probeUntil.isSome) = true ↔
      ∃ h q, seen = some h ∧ h.probeUntil = some q := by
    cases seen with
    | none => simp
    | some h => simp [Option.isSome_iff_exists]
  split
  · next hs =>
    cases hp : s.row.probeUntil with
    | none =>
      have hrel : leaseReleased s.row = none := by simp [leaseReleased, hp]
      rw [hrel]
      refine ⟨fun _ => ?_, fun _ => noSecondProbe_recorded h call⟩
      rintro ⟨p, -, -, -, -, hne, -⟩
      exact hne rfl
    | some q =>
      have hrel : leaseReleased s.row = some { s.row with probeUntil := none } := by
        simp [leaseReleased, hp]
      rw [hrel, noSecondProbe_iff]
      constructor
      · rintro hn ⟨p, hmem, hne, hlt, -, -, u, hu, hult⟩
        have := (guarded_of_free rfl _).1 (hn p (mem_recorded.2 ⟨hmem, hne⟩) hlt) u hu
        omega
      · intro hn p hmem hlt
        obtain ⟨hmem, hne⟩ := mem_recorded.1 hmem
        intro u hu
        by_contra hult
        exact hn ⟨p, hmem, hne, hlt, hseen.1 hs, by simp, u, hu, by omega⟩
  · next hs =>
    refine ⟨fun _ => ?_, fun _ => noSecondProbe_recorded h call⟩
    rintro ⟨p, -, -, -, hs', -⟩
    exact hs (hseen.2 hs')

theorem noSecondProbe_reprobe (h : NoSecondProbe s) :
    NoSecondProbe (probeStep key s .reprobe) ↔ ¬ Disturbs key s .reprobe := by
  unfold probeStep Disturbs
  by_cases hopen : stateOf s.row s.now = .opened ∧ accountWide s.row = true
  · have hhalf : halfOpenNow s.row s.now =
        some { s.row with circuitOpenUntil := some s.now, probeUntil := none } := by
      simp [halfOpenNow, hopen.1, hopen.2]
    rw [hhalf, noSecondProbe_iff]
    constructor
    · rintro hn ⟨⟨p, hp, hlt⟩, -⟩
      have := (guarded_of_free rfl _).1 (hn p hp hlt) s.now rfl
      omega
    · intro hn p hp hlt
      exact absurd ⟨⟨p, hp, hlt⟩, hopen⟩ hn
  · have hhalf : halfOpenNow s.row s.now = none := by
      unfold halfOpenNow
      rw [if_pos]
      by_contra hne
      push Not at hne
      exact hopen ⟨hne.1, by simpa using hne.2⟩
    rw [hhalf]
    exact ⟨fun _ hd => hopen hd.2, fun _ => h⟩

theorem noSecondProbe_step (h : NoSecondProbe s) (op : ProbeOp) :
    NoSecondProbe (probeStep key s op) ↔ ¬ Disturbs key s op := by
  cases op with
  | wait d =>
    refine ⟨fun _ => id, fun _ p hp now hle hlt => h p hp now ?_ hlt⟩
    exact le_trans (by show s.now ≤ s.now + d; omega) hle
  | admits call blocked seen => exact ⟨fun _ => id, fun _ => noSecondProbe_admits h call blocked seen⟩
  | success call skipped => exact ⟨fun _ => id, fun _ => noSecondProbe_success h call skipped⟩
  | failure call cls message rows => exact noSecondProbe_failure key s call cls message rows
  | requestError call seen => exact noSecondProbe_requestError h call seen
  | reprobe => exact noSecondProbe_reprobe h

theorem singleProbe_of_noSecondProbe (h : NoSecondProbe s) (op : ProbeOp) : SingleProbe s op := by
  cases op with
  | admits call blocked seen =>
    rintro hadm p hp ⟨-, hlt⟩
    simp only [admittedAsProbe, Bool.and_eq_true] at hadm
    rw [h p hp s.now le_rfl hlt] at hadm
    exact absurd hadm.2 (by simp)
  | _ => trivial

/-! ## Whole runs -/

/-- **A single probe.**  In every run without a disturbing step no second caller is
admitted as a probe; and a run stays free of states where one could be exactly
when it has no such step. -/
theorem singleProbe_iff (key : Key) (now : Int) (row : Health) (ops : List ProbeOp) :
    (Along (probeStep key) (fun s op => ¬ Disturbs key s op) ⟨now, row, []⟩ ops →
      Along (probeStep key) SingleProbe ⟨now, row, []⟩ ops) ∧
    (Always (probeStep key) NoSecondProbe ⟨now, row, []⟩ ops ↔
      Along (probeStep key) (fun s op => ¬ Disturbs key s op) ⟨now, row, []⟩ ops) := by
  have hstart : NoSecondProbe ⟨now, row, []⟩ := fun p hp => by cases hp
  have halways : Along (probeStep key) (fun s op => ¬ Disturbs key s op) ⟨now, row, []⟩ ops →
      Always (probeStep key) NoSecondProbe ⟨now, row, []⟩ ops :=
    Along.always (fun s op h hd => (noSecondProbe_step h op).2 hd) hstart
  refine ⟨fun h => ?_, ⟨fun h => ?_, halways⟩⟩
  · exact Along.imp_of_always (fun s op hi _ => singleProbe_of_noSecondProbe hi op) (halways h) h
  · exact h.along fun s op hi hi' => (noSecondProbe_step hi op).1 hi'

def openedRow : Health := afterFailure accountDeniedRules true {} .credential "no key" 0

/-- Calls 1 and 2 start while the circuit is closed and 1 opens it.  Two minutes
later 3 is the probe; 2 ends with a request error; 4 is let in as well. -/
def lateRequestError : List ProbeOp :=
  [.failure 1 .credential "no key" [],
    .wait 120000000,
    .admits 3 false (some openedRow),
    .requestError 2 (some { openedRow with probeUntil := some (leaseEnd (secs 120)) }),
    .admits 4 false (some openedRow)]

theorem lateRequestError_second_probe : ¬ Along (probeStep ⟨"acc3", "m1"⟩) SingleProbe ⟨0, {}, []⟩ lateRequestError := by
  intro h
  have hsecond := h.2.2.2.2.1 (by decide) (3, secs 120) (by decide)
  exact hsecond (by decide)

end CisApp.Gateway
