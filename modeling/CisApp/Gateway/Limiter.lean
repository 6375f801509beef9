import CisApp.Gateway.Health
import CisApp.Lib.Window

/-!
# The limiter of a connection

`_Limiter`, `_limiter_for` and `limit` in `shared/llm_client/breaker.py`: each call
reads the connection row, fetches the limiter object of that configuration, takes
a permit of its semaphore, then a slot of its rolling minute, and runs.

The object in the dict is replaced when a call comes with another configuration.
Calls that hold the old object keep it, so permits and admissions of the old one
are unknown to the new one.  The limits hold for all calls of the connection in
every run that replaces the object only when it is idle and admits no call under
an `rpm_limit` that has been edited since (`limits_hold`).

A step is one thing that runs under a lock, or that one thread does on its own.
`past` and `admitted` are a record of what was in force and who was let in; the
code does not read them.
-/

namespace CisApp.Gateway

open List

def limitWaitS : Int := 30
def rateWindowS : Int := 60

/-- The columns of the connection row; NULL and 0 are no limit. -/
structure LimitRow where
  maxConcurrency : Option Nat
  rpmLimit : Option Nat

structure Config where
  maxConcurrency : Option Nat
  rpm : Option Nat
deriving Repr, DecidableEq

/-- `x or None`. -/
def orNone : Option Nat → Option Nat
  | some 0 => none
  | x => x

def LimitRow.config (r : LimitRow) : Config := ⟨orNone r.maxConcurrency, orNone r.rpmLimit⟩

def Config.unlimited : Config := ⟨none, none⟩

/-- A limiter object: the permits taken of its semaphore and the slots of its minute. -/
structure Limiter where
  config : Config
  taken : Nat
  calls : List Int

inductive Phase where
  /-- It has read its connection row. -/
  | resolved
  /-- At the semaphore of an object. -/
  | queued (o : Nat) (deadline : Int)
  /-- At the rolling minute of an object. -/
  | holding (o : Nat) (deadline : Int)
  /-- In flight. -/
  | running (o : Option Nat)
deriving Repr, DecidableEq

structure LimCall where
  started : Int
  config : Config
  phase : Phase
deriving Repr, DecidableEq

structure Admission where
  time : Int
  o : Option Nat
  rpm : Option Nat

structure Period where
  since : Int
  until_ : Int
  config : Config

structure LimSys where
  now : Int
  row : LimitRow
  since : Int
  objs : Nat → Limiter
  next : Nat
  current : Option Nat
  calls : List LimCall
  past : List Period
  admitted : List Admission

/-- The object of the configuration: the current one, or a new one in its place. -/
def limiterFor (s : LimSys) (config : Config) : LimSys × Nat :=
  let new : LimSys × Nat := ({ s with
      objs := Function.update s.objs s.next ⟨config, 0, []⟩
      next := s.next + 1
      current := some s.next }, s.next)
  match s.current with
  | none => new
  | some o => if (s.objs o).config = config then (s, o) else new

/-- The call goes in flight. -/
def goes (s : LimSys) (c : LimCall) (o : Option Nat) : LimSys :=
  { s with
    calls := { c with phase := .running o } :: s.calls
    admitted := s.admitted ++ [⟨s.now, o, c.config.rpm⟩] }

def setObj (s : LimSys) (o : Nat) (l : Limiter) : LimSys :=
  { s with objs := Function.update s.objs o l }

/-- The permit goes back, where there is a semaphore. -/
def released (s : LimSys) (o : Nat) : LimSys :=
  match (s.objs o).config.maxConcurrency with
  | none => s
  | some _ => setObj s o { s.objs o with taken := (s.objs o).taken - 1 }

/-- A permit can be had. -/
def free (l : Limiter) : Bool :=
  match l.config.maxConcurrency with
  | none => true
  | some m => decide (l.taken < m)

/-- The object with one more permit taken, where it has a semaphore. -/
def Limiter.take (l : Limiter) : Limiter :=
  match l.config.maxConcurrency with
  | none => l
  | some _ => { l with taken := l.taken + 1 }

def Limiter.purge (now : Int) (l : Limiter) : Limiter :=
  { l with calls := Window.purge id (secs rateWindowS) now l.calls }

inductive Act where
  | enter
  | acquire
  | timeout
  | rate
  | finish

/-- What a call does next; `s` is without it. -/
def act (s : LimSys) (c : LimCall) : Act → LimSys
  | .enter =>
    match c.phase with
    | .resolved =>
      if c.config = .unlimited then goes s c none
      else
        let (s', o) := limiterFor s c.config
        { s' with calls := { c with phase := .queued o (s.now + secs limitWaitS) } :: s'.calls }
    | _ => { s with calls := c :: s.calls }
  | .acquire =>
    match c.phase with
    | .queued o deadline =>
      if free (s.objs o) then
        let s' := setObj s o (s.objs o).take
        match c.config.rpm with
        | none => goes s' c (some o)
        | some _ => { s' with calls := { c with phase := .holding o deadline } :: s'.calls }
      else { s with calls := c :: s.calls }
    | _ => { s with calls := c :: s.calls }
  | .timeout =>
    match c.phase with
    | .queued o deadline =>
      if (s.objs o).config.maxConcurrency ≠ none ∧ deadline ≤ s.now then s
      else { s with calls := c :: s.calls }
    | _ => { s with calls := c :: s.calls }
  | .rate =>
    match c.phase with
    | .holding o deadline =>
      let l := (s.objs o).purge s.now
      let s' := setObj s o l
      if l.calls.length < l.config.rpm.getD 0 then
        goes (setObj s o { l with calls := l.calls ++ [s.now] }) c (some o)
      else if deadline < s.now + (secs rateWindowS - (s.now - l.calls.headD 0)) then released s' o
      else { s' with calls := c :: s'.calls }
    | _ => { s with calls := c :: s.calls }
  | .finish =>
    match c.phase with
    | .running none => s
    | .running (some o) => released s o
    | _ => { s with calls := c :: s.calls }

inductive LimOp where
  | tick (d : Nat)
  | edit (row : LimitRow)
  | resolve
  | call (i : Nat) (a : Act)

def limStep (s : LimSys) : LimOp → LimSys
  | .tick d => { s with now := s.now + d }
  | .edit row =>
    { s with row := row, since := s.now, past := ⟨s.since, s.now, s.row.config⟩ :: s.past }
  | .resolve => { s with calls := ⟨s.now, s.row.config, .resolved⟩ :: s.calls }
  | .call i a =>
    match s.calls[i]? with
    | none => s
    | some c => act { s with calls := s.calls.eraseIdx i } c a

def LimSys.init (now : Int) (row : LimitRow) : LimSys :=
  ⟨now, row, now, fun _ => ⟨.unlimited, 0, []⟩, 0, none, [], [], []⟩

/-! ## The property -/

/-- The configuration was in force at `t`. -/
def InForceAt (s : LimSys) (t : Int) (config : Config) : Prop :=
  (config = s.row.config ∧ s.since ≤ t) ∨
    ∃ p ∈ s.past, p.config = config ∧ p.since ≤ t ∧ t ≤ p.until_

def Within (n : Nat) (limit : Option Nat) : Prop := ∀ m, limit = some m → n ≤ m

def LimCall.inFlight (c : LimCall) : Bool :=
  match c.phase with
  | .running _ => true
  | _ => false

def LimSys.flying (s : LimSys) : List LimCall := s.calls.filter LimCall.inFlight

/-- The calls admitted in the 60 s from `a` on. -/
def LimSys.admittedIn (s : LimSys) (a : Int) : List Admission :=
  s.admitted.filter fun e => decide (a ≤ e.time ∧ e.time < a + secs rateWindowS)

/-- The calls in flight are within a `max_concurrency` in force since the oldest of
them started; those admitted in any 60 s within an `rpm_limit` in force in them. -/
structure LimitsHold (s : LimSys) : Prop where
  concurrency : ∀ c ∈ s.flying, (∀ c' ∈ s.flying, c.started ≤ c'.started) →
    ∃ t config, c.started ≤ t ∧ t ≤ s.now ∧ InForceAt s t config ∧
      Within s.flying.length config.maxConcurrency
  rate : ∀ a, s.admittedIn a ≠ [] →
    ∃ t config, a ≤ t ∧ t < a + secs rateWindowS ∧ t ≤ s.now ∧ InForceAt s t config ∧
      Within (s.admittedIn a).length config.rpm

/-! ## The runs in which it holds -/

/-- The call waits at a limiter or runs under a permit. -/
def LimCall.bound (c : LimCall) : Bool :=
  match c.phase with
  | .resolved => false
  | .queued _ _ => true
  | .holding _ _ => true
  | .running _ => c.config.maxConcurrency.isSome

/-- The call comes with another configuration than the limiter in the dict has. -/
def replaces (s : LimSys) (c : LimCall) : Bool :=
  match c.phase, s.current with
  | .resolved, some o => decide (c.config ≠ .unlimited ∧ (s.objs o).config ≠ c.config)
  | _, _ => false

/-- No call waits at a limiter or runs under a permit, and none was admitted under
an `rpm_limit` in the last 60 s. -/
def idle (s : LimSys) : Bool :=
  (s.calls.all fun c => !c.bound) &&
    s.admitted.all fun e => e.rpm.isNone || decide (secs rateWindowS ≤ s.now - e.time)

/-- The call goes in flight with this step. -/
def admitsNow (s : LimSys) (c : LimCall) : Act → Bool
  | .enter =>
    match c.phase with
    | .resolved => decide (c.config = .unlimited)
    | _ => false
  | .acquire =>
    match c.phase with
    | .queued o _ => free (s.objs o) && c.config.rpm.isNone
    | _ => false
  | .rate =>
    match c.phase with
    | .holding o _ =>
      decide (((s.objs o).purge s.now).calls.length < ((s.objs o).purge s.now).config.rpm.getD 0)
    | _ => false
  | _ => false

/-- A limiter is replaced only when idle, and a call goes in flight only under the
`rpm_limit` that is still the row's. -/
def EditSafe (s : LimSys) : LimOp → Prop
  | .call i a =>
    match s.calls[i]? with
    | none => True
    | some c =>
      (match a with
        | .enter => replaces s c = true → idle s = true
        | _ => True) ∧
      (admitsNow s c a = true → c.config.rpm = s.row.config.rpm)
  | _ => True

/-! ## The invariant of the calls -/

/-- The object the call is at. -/
def LimCall.obj (c : LimCall) : Option Nat :=
  match c.phase with
  | .resolved => none
  | .queued o _ => some o
  | .holding o _ => some o
  | .running o => o

/-- The call has been through the semaphore of the object. -/
def LimCall.holds (o : Nat) (c : LimCall) : Bool :=
  match c.phase with
  | .holding o' _ => decide (o' = o)
  | .running o' => decide (o' = some o)
  | _ => false

structure CallOk (s : LimSys) (c : LimCall) : Prop where
  obj : ∀ o, c.obj = some o → o < s.next ∧ (s.objs o).config = c.config
  unlimited : c.phase = .running none → c.config = .unlimited
  atCurrent : ∀ o, c.obj = some o → c.bound = true → s.current = some o
  started : c.started ≤ s.now
  inForce : InForceAt s c.started c.config

/-- The semaphore counts the calls that have been through it. -/
def TakenOk (s : LimSys) (cs : List LimCall) (o : Nat) : Prop :=
  ∀ m, (s.objs o).config.maxConcurrency = some m →
    (s.objs o).taken = cs.countP (LimCall.holds o) ∧ (s.objs o).taken ≤ m

/-- Admitted under an `rpm_limit` by the object. -/
def Admission.ofObj (o : Nat) (e : Admission) : Bool := decide (e.o = some o) && e.rpm.isSome

def LimSys.times (s : LimSys) (o : Nat) : List Int :=
  (s.admitted.filter (Admission.ofObj o)).map Admission.time

structure LogInv (s : LimSys) : Prop where
  ordered : Window.Ordered Admission.time s.now s.admitted
  deque : ∀ o, o < s.next →
    Window.Holds id (secs rateWindowS) s.now (s.times o) (s.objs o).calls
  limited : ∀ e ∈ s.admitted, e.rpm ≠ none →
    ∃ o, o < s.next ∧ e.o = some o ∧ (s.objs o).config.rpm = e.rpm
  rate : ∀ o, o < s.next → ∀ r, (s.objs o).config.rpm = some r →
    ∀ a, ((s.admittedIn a).filter (Admission.ofObj o)).length ≤ r
  apart : ∀ e ∈ s.admitted, ∀ e' ∈ s.admitted, e.rpm ≠ none → e'.rpm ≠ none → e.o ≠ e'.o →
    secs rateWindowS ≤ e.time - e'.time ∨ secs rateWindowS ≤ e'.time - e.time
  current : ∀ e ∈ s.admitted, e.rpm ≠ none → e.o ≠ s.current →
    secs rateWindowS ≤ s.now - e.time
  inForce : ∀ e ∈ s.admitted, ∃ config, InForceAt s e.time config ∧ config.rpm = e.rpm

structure LimInv (s : LimSys) : Prop where
  calls : ∀ c ∈ s.calls, CallOk s c
  taken : ∀ o, o < s.next → TakenOk s s.calls o
  currentLt : ∀ o, s.current = some o → o < s.next
  since : s.since ≤ s.now
  log : LogInv s

theorem LimInv.concurrency {s : LimSys} (h : LimInv s) : ∀ c ∈ s.flying, (∀ c' ∈ s.flying, c.started ≤ c'.started) →
      ∃ t config, c.started ≤ t ∧ t ≤ s.now ∧ InForceAt s t config ∧ Within s.flying.length config.maxConcurrency := by
  intro c hc hold
  by_cases hnone : ∃ c' ∈ s.flying, c'.config.maxConcurrency = none
  · -- a call in flight that read no limit
    obtain ⟨c', hc', hmax⟩ := hnone
    have hok := h.calls c' (List.mem_filter.1 hc').1
    exact ⟨c'.started, c'.config, hold c' hc', hok.started, hok.inForce, by simp [Within, hmax]⟩
  · push Not at hnone
    have hok := h.calls c (List.mem_filter.1 hc).1
    obtain ⟨m, hm⟩ := Option.ne_none_iff_exists'.1 (hnone c hc)
    -- all calls in flight are at the current object
    have hat : ∀ c' ∈ s.flying, ∃ o, c'.phase = .running (some o) ∧ s.current = some o := by
      intro c' hc'
      obtain ⟨hmem, hfly⟩ := List.mem_filter.1 hc'
      have hok' := h.calls c' hmem
      unfold LimCall.inFlight at hfly
      split at hfly
      · next o hp =>
        cases o with
        | none =>
          have := hok'.unlimited hp
          exact absurd (by rw [this]; rfl) (hnone c' hc')
        | some o =>
          refine ⟨o, hp, hok'.atCurrent o (by simp [LimCall.obj, hp]) ?_⟩
          simp [LimCall.bound, hp, Option.isSome_iff_ne_none, hnone c' hc']
      · cases hfly
    obtain ⟨o, hp, hcur⟩ := hat c hc
    obtain ⟨hlt, hcfg⟩ := hok.obj o (by simp [LimCall.obj, hp])
    obtain ⟨htaken, hle⟩ := h.taken o hlt m (by rw [hcfg, hm])
    have hcount : s.flying.length ≤ s.calls.countP (LimCall.holds o) := by
      unfold LimSys.flying
      rw [← countP_eq_length_filter]
      apply countP_mono_left
      intro c' hc' hfly
      obtain ⟨o', hp', hcur'⟩ := hat c' (List.mem_filter.2 ⟨hc', hfly⟩)
      obtain rfl : o' = o := Option.some.inj (hcur'.symm.trans hcur)
      simp [LimCall.holds, hp']
    refine ⟨c.started, c.config, le_rfl, hok.started, hok.inForce, ?_⟩
    intro m' hm'
    obtain rfl : m = m' := Option.some.inj (hm.symm.trans hm')
    omega

variable {e : Admission}

theorem mem_admittedIn {s : LimSys} {a : Int} :
    e ∈ s.admittedIn a ↔ e ∈ s.admitted ∧ a ≤ e.time ∧ e.time < a + secs rateWindowS := by
  simp [LimSys.admittedIn]

theorem LogInv.rates {s : LimSys} (h : LogInv s) :
    ∀ a, s.admittedIn a ≠ [] → ∃ t config, a ≤ t ∧ t < a + secs rateWindowS ∧ t ≤ s.now ∧
      InForceAt s t config ∧ Within (s.admittedIn a).length config.rpm := by
  intro a hne
  by_cases hnone : ∃ e ∈ s.admittedIn a, e.rpm = none
  · obtain ⟨e, he, hrpm⟩ := hnone
    obtain ⟨hmem, hle, hlt⟩ := mem_admittedIn.1 he
    obtain ⟨config, hf, hcfg⟩ := h.inForce e hmem
    exact ⟨e.time, config, hle, hlt, h.ordered.past e hmem, hf, by simp [Within, hcfg, hrpm]⟩
  · push Not at hnone
    obtain ⟨e, he⟩ := exists_mem_of_ne_nil _ hne
    obtain ⟨hmem, hle, hlt⟩ := mem_admittedIn.1 he
    obtain ⟨o, ho, heo, hrpm⟩ := h.limited e hmem (hnone e he)
    obtain ⟨r, hr⟩ := Option.ne_none_iff_exists'.1 (hnone e he)
    obtain ⟨config, hf, hcfg⟩ := h.inForce e hmem
    -- two limiters admit at least 60 s apart, so one admitted them all
    have hall : (s.admittedIn a).filter (Admission.ofObj o) = s.admittedIn a := by
      rw [filter_eq_self]
      intro e' he'
      obtain ⟨hmem', hle', hlt'⟩ := mem_admittedIn.1 he'
      have hsame : e'.o = e.o := by
        by_contra hdiff
        have := h.apart e' hmem' e hmem (hnone e' he') (hnone e he) hdiff
        omega
      simp [Admission.ofObj, hsame, heo, Option.isSome_iff_ne_none, hnone e' he']
    have hcount := h.rate o ho r (by rw [hrpm, hr]) a
    rw [hall] at hcount
    refine ⟨e.time, config, hle, hlt, h.ordered.past e hmem, hf, ?_⟩
    intro m hm
    obtain rfl : r = m := Option.some.inj ((hr.symm.trans hcfg.symm).trans hm)
    exact hcount

theorem LimInv.limitsHold {s : LimSys} (h : LimInv s) : LimitsHold s :=
  ⟨h.concurrency, h.log.rates⟩

/-! ## Steps that keep it -/

variable {s' : LimSys}

theorem CallOk.frame {s : LimSys} {c : LimCall} (h : CallOk s c) (hnext : s.next ≤ s'.next)
    (hcfg : ∀ o, o < s.next → (s'.objs o).config = (s.objs o).config)
    (hcur : c.bound = true → s'.current = s.current) (hnow : s.now ≤ s'.now)
    (hforce : ∀ t config, t ≤ s.now → InForceAt s t config → InForceAt s' t config) : CallOk s' c := by
  refine ⟨fun o ho => ?_, h.unlimited, fun o ho hb => ?_, le_trans h.started hnow, hforce _ _ h.started h.inForce⟩
  · obtain ⟨hlt, he⟩ := h.obj o ho
    exact ⟨lt_of_lt_of_le hlt hnext, (hcfg o hlt).trans he⟩
  · rw [hcur hb]
    exact h.atCurrent o ho hb

theorem LogInv.frame {s : LimSys} (h : LogInv s) (hadm : s'.admitted = s.admitted)
    (hnow : s'.now = s.now) (hnext : s'.next = s.next) (hcur : s'.current = s.current)
    (hcfg : ∀ o, (s'.objs o).config = (s.objs o).config) (hdeque : ∀ o, o < s.next →
      Window.Holds id (secs rateWindowS) s.now (s.times o) (s'.objs o).calls)
    (hforce : ∀ t config, InForceAt s t config → InForceAt s' t config) : LogInv s' := by
  refine ⟨?_, ?_, ?_, ?_, ?_, ?_, ?_⟩
  · rw [hadm, hnow]
    exact h.ordered
  · intro o ho
    unfold LimSys.times
    rw [hadm, hnow]
    exact hdeque o (hnext ▸ ho)
  · intro e he hr
    obtain ⟨o, ho, heo, hrpm⟩ := h.limited e (hadm ▸ he) hr
    exact ⟨o, hnext ▸ ho, heo, (congrArg _ (hcfg o)).trans hrpm⟩
  · intro o ho r hr a
    unfold LimSys.admittedIn
    rw [hadm]
    exact h.rate o (hnext ▸ ho) r (hcfg o ▸ hr) a
  · rw [hadm]
    exact h.apart
  · rw [hadm, hnow, hcur]
    exact h.current
  · intro e he
    obtain ⟨config, hf, hr⟩ := h.inForce e (hadm ▸ he)
    exact ⟨config, hforce _ _ hf, hr⟩

theorem LimInv.withLog {s : LimSys} (h : LimInv s) (hcalls : s'.calls = s.calls)
    (hnow : s'.now = s.now) (hsince : s'.since = s.since) (hnext : s'.next = s.next) (hcur : s'.current = s.current)
    (hobj : ∀ o, (s'.objs o).config = (s.objs o).config ∧ (s'.objs o).taken = (s.objs o).taken)
    (hforce : ∀ t config, InForceAt s t config → InForceAt s' t config) (hlog : LogInv s') : LimInv s' := by
  refine ⟨?_, ?_, ?_, ?_, hlog⟩
  · intro c hc
    exact (h.calls c (hcalls ▸ hc)).frame hnext.ge (fun o _ => (hobj o).1) (fun _ => hcur) hnow.ge
      fun t config _ => hforce t config
  · intro o ho m hm
    rw [(hobj o).2, hcalls]
    exact h.taken o (hnext ▸ ho) m ((hobj o).1 ▸ hm)
  · rw [hcur, hnext]
    exact h.currentLt
  · rw [hsince, hnow]
    exact h.since

theorem setObj_objs (s : LimSys) (o o' : Nat) (l : Limiter) : (setObj s o l).objs o' = if o' = o then l else s.objs o' := Function.update_apply ..

theorem LimInv.setDeque {s : LimSys} (h : LimInv s) (o : Nat) {l : Limiter}
    (hcfg : l.config = (s.objs o).config) (htaken : l.taken = (s.objs o).taken)
    (hdeque : o < s.next → Window.Holds id (secs rateWindowS) s.now (s.times o) l.calls) : LimInv (setObj s o l) := by
  have hobj : ∀ o', ((setObj s o l).objs o').config = (s.objs o').config ∧
      ((setObj s o l).objs o').taken = (s.objs o').taken := by
    intro o'
    rw [setObj_objs]
    split
    · next he => exact ⟨he ▸ hcfg, he ▸ htaken⟩
    · exact ⟨rfl, rfl⟩
  refine h.withLog rfl rfl rfl rfl rfl hobj (fun _ _ hf => hf) ?_
  refine h.log.frame rfl rfl rfl rfl (fun o' => (hobj o').1) ?_ fun _ _ hf => hf
  intro o' ho'
  rw [setObj_objs]
  split
  · next he => exact he ▸ hdeque (he ▸ ho')
  · exact h.log.deque o' ho'

theorem LimInv.purge {s : LimSys} (h : LimInv s) (o : Nat) : LimInv (setObj s o ((s.objs o).purge s.now)) :=
  h.setDeque o rfl rfl fun ho => (h.log.deque o ho).purge

theorem LimInv.perm {s : LimSys} {cs : List LimCall} (h : LimInv s) (hp : s.calls.Perm cs) :
    LimInv { s with calls := cs } := by
  refine ⟨fun c hc => (h.calls c (hp.mem_iff.2 hc)).frame le_rfl (fun _ _ => rfl) (fun _ => rfl)
    le_rfl (fun _ _ _ hf => hf), fun o ho m hm => ?_, h.currentLt, h.since,
    h.log.frame rfl rfl rfl rfl (fun _ => rfl) h.log.deque (fun _ _ hf => hf)⟩
  rw [← hp.countP_eq]
  exact h.taken o ho m hm

variable {s : LimSys} {c : LimCall}

theorem LimInv.move {c' : LimCall} (h : LimInv { s with calls := c :: s.calls })
    (hholds : ∀ o, c'.holds o = c.holds o) (hok : CallOk s c') :
    LimInv { s with calls := c' :: s.calls } := by
  refine ⟨?_, ?_, h.currentLt, h.since, h.log.frame rfl rfl rfl rfl (fun _ => rfl) h.log.deque (fun _ _ hf => hf)⟩
  · intro d hd
    have hframe : ∀ d, CallOk s d → CallOk { s with calls := c' :: s.calls } d := fun d hd =>
      hd.frame le_rfl (fun _ _ => rfl) (fun _ => rfl) le_rfl (fun _ _ _ hf => hf)
    rcases List.mem_cons.1 hd with rfl | hd
    · exact hframe _ hok
    · refine hframe d ?_
      exact (h.calls d (mem_cons_of_mem _ hd)).frame le_rfl (fun _ _ => rfl) (fun _ => rfl)
        le_rfl (fun _ _ _ hf => hf)
  · intro o ho m hm
    have := h.taken o ho m hm
    simp only [countP_cons] at this ⊢
    rw [hholds o]
    exact this

variable {o : Nat}

theorem LimInv.permits {l : Limiter} {cs : List LimCall}
    (h : LimInv { s with calls := c :: s.calls }) (hcfg : l.config = (s.objs o).config)
    (hdeque : l.calls = (s.objs o).calls) (hcalls : ∀ d ∈ cs, CallOk s d)
    (htaken : o < s.next → ∀ m, l.config.maxConcurrency = some m →
      l.taken = cs.countP (LimCall.holds o) ∧ l.taken ≤ m)
    (hother : ∀ o', o' ≠ o →
      cs.countP (LimCall.holds o') = (c :: s.calls).countP (LimCall.holds o')) :
    LimInv { setObj s o l with calls := cs } := by
  have hobj : ∀ o', ((setObj s o l).objs o').config = (s.objs o').config := by
    intro o'
    rw [setObj_objs]
    split
    · next he => rw [he, hcfg]
    · rfl
  refine ⟨?_, ?_, h.currentLt, h.since, ?_⟩
  · intro d hd
    exact (hcalls d hd).frame le_rfl (fun o' _ => hobj o') (fun _ => rfl) le_rfl
      fun _ _ _ hf => hf
  · intro o' ho' m hm
    show ((setObj s o l).objs o').taken = _ ∧ _
    have hm' : ((setObj s o l).objs o').config.maxConcurrency = some m := hm
    rw [setObj_objs] at hm' ⊢
    by_cases he : o' = o
    · rw [if_pos he] at hm' ⊢
      subst he
      exact htaken ho' m hm'
    · rw [if_neg he] at hm' ⊢
      rw [hother o' he]
      exact h.taken o' ho' m hm'
  · refine h.log.frame rfl rfl rfl rfl hobj ?_ fun _ _ hf => hf
    intro o' ho'
    show Window.Holds _ _ _ _ ((setObj s o l).objs o').calls
    rw [setObj_objs]
    split
    · next he =>
      rw [hdeque, ← he]
      exact h.log.deque o' ho'
    · exact h.log.deque o' ho'

theorem LimInv.rest (h : LimInv { s with calls := c :: s.calls }) : ∀ d ∈ s.calls, CallOk s d :=
  fun d hd => (h.calls d (mem_cons_of_mem _ hd)).frame le_rfl (fun _ _ => rfl) (fun _ => rfl)
    le_rfl (fun _ _ _ hf => hf)

theorem LimInv.self (h : LimInv { s with calls := c :: s.calls }) : CallOk s c :=
  (h.calls c mem_cons_self).frame le_rfl (fun _ _ => rfl) (fun _ => rfl) le_rfl
    (fun _ _ _ hf => hf)

theorem LimInv.drop (h : LimInv { s with calls := c :: s.calls })
    (hholds : ∀ o, (s.objs o).config.maxConcurrency ≠ none → c.holds o = false) : LimInv s := by
  refine ⟨h.rest, ?_, h.currentLt, h.since,
    h.log.frame rfl rfl rfl rfl (fun _ => rfl) h.log.deque (fun _ _ hf => hf)⟩
  intro o ho m hm
  have hm' : (s.objs o).config.maxConcurrency = some m := hm
  have := h.taken o ho m hm
  simpa [countP_cons, hholds o (by simp [hm'])] using this

theorem LimInv.giveBack (h : LimInv { s with calls := c :: s.calls })
    (hholds : ∀ o', c.holds o' = decide (o' = o)) : LimInv (released s o) := by
  unfold released
  cases hmax : (s.objs o).config.maxConcurrency with
  | none =>
    refine h.drop fun o' ho' => ?_
    rw [hholds, decide_eq_false_iff_not]
    rintro rfl
    exact ho' hmax
  | some m =>
    refine LimInv.permits h rfl rfl h.rest ?_ ?_
    · intro ho m' hm'
      have := h.taken o ho m' hm'
      simp only [countP_cons, hholds, decide_true, if_true] at this
      dsimp only
      omega
    · intro o' hne
      simp [hholds, hne]

theorem LimInv.take {c' : LimCall} (h : LimInv { s with calls := c :: s.calls })
    (hholds : ∀ o', c.holds o' = false) (hholds' : ∀ o', c'.holds o' = decide (o' = o))
    (hok : CallOk s c') (hfree : free (s.objs o) = true) :
    LimInv { setObj s o (s.objs o).take with calls := c' :: s.calls } := by
  have htake : (s.objs o).take.config = (s.objs o).config ∧
      (s.objs o).take.calls = (s.objs o).calls := by
    unfold Limiter.take
    split <;> exact ⟨rfl, rfl⟩
  refine LimInv.permits h htake.1 htake.2 ?_ ?_ ?_
  · intro d hd
    rcases List.mem_cons.1 hd with rfl | hd
    · exact hok
    · exact h.rest d hd
  · intro ho m hm
    rw [htake.1] at hm
    have := h.taken o ho m hm
    simp only [countP_cons, hholds, hholds', decide_true, if_true] at this ⊢
    unfold free at hfree
    unfold Limiter.take
    rw [hm] at hfree ⊢
    simp only [decide_eq_true_eq] at hfree
    dsimp only
    simp only [Bool.false_eq_true, if_false] at this
    omega
  · intro o' hne
    simp [hholds, hholds', hne]

/-! ## A call goes in flight -/

theorem times_append (h : s'.admitted = s.admitted ++ [e]) (o : Nat) :
    s'.times o = s.times o ++ if e.ofObj o then [e.time] else [] := by
  unfold LimSys.times
  rw [h, filter_append, map_append]
  by_cases he : e.ofObj o = true
  · simp [he]
  · simp [he]

theorem admittedIn_append (h : s'.admitted = s.admitted ++ [e]) (o : Nat) (a : Int) :
    ((s'.admittedIn a).filter (Admission.ofObj o)).length = ((s.admittedIn a).filter (Admission.ofObj o)).length +
        if e.ofObj o = true ∧ a ≤ e.time ∧ e.time < a + secs rateWindowS then 1 else 0 := by
  unfold LimSys.admittedIn
  rw [h, filter_append, filter_append, length_append]
  by_cases hw : a ≤ e.time ∧ e.time < a + secs rateWindowS
  · by_cases he : e.ofObj o = true
    · simp [hw, he]
    · simp [hw, he]
  · simp [hw]

theorem LogInv.unlimited (h : LogInv s) (o : Option Nat)
    (hlog : s'.admitted = s.admitted ++ [⟨s.now, o, none⟩]) (hnow : s'.now = s.now)
    (hnext : s'.next = s.next) (hcur : s'.current = s.current) (hobjs : s'.objs = s.objs)
    (hforce : ∀ t config, InForceAt s t config → InForceAt s' t config)
    (hrow : ∃ config, InForceAt s s.now config ∧ config.rpm = none) : LogInv s' := by
  have hmem : ∀ e ∈ s'.admitted, e.rpm ≠ none → e ∈ s.admitted := by
    intro e he hr
    rw [hlog, mem_append, mem_singleton] at he
    rcases he with he | rfl
    · exact he
    · exact absurd rfl hr
  have hof : ∀ o', Admission.ofObj o' ⟨s.now, o, none⟩ = false := by
    intro o'
    simp [Admission.ofObj]
  refine ⟨?_, ?_, ?_, ?_, ?_, ?_, ?_⟩
  · rw [hlog, hnow]
    exact h.ordered.append rfl
  · intro o' ho'
    rw [times_append hlog, hof, hnow, hobjs]
    simpa using h.deque o' (hnext ▸ ho')
  · intro e he hr
    rw [hnext, hobjs]
    exact h.limited e (hmem e he hr) hr
  · intro o' ho' r hr a
    rw [admittedIn_append hlog, hof]
    simpa using h.rate o' (hnext ▸ ho') r (hobjs ▸ hr) a
  · intro e he e' he' hr hr'
    exact h.apart e (hmem e he hr) e' (hmem e' he' hr') hr hr'
  · intro e he hr
    rw [hnow, hcur]
    exact h.current e (hmem e he hr) hr
  · intro e he
    rw [hlog, mem_append, mem_singleton] at he
    rcases he with he | rfl
    · obtain ⟨config, hf, hc⟩ := h.inForce e he
      exact ⟨config, hforce _ _ hf, hc⟩
    · obtain ⟨config, hf, hc⟩ := hrow
      exact ⟨config, hforce _ _ hf, hc⟩

theorem LogInv.window_le (h : LogInv s) (ho : o < s.next) {a : Int} (ha : s.now < a + secs rateWindowS) :
    ((s.admittedIn a).filter (Admission.ofObj o)).length ≤
      (Window.purge id (secs rateWindowS) s.now (s.objs o).calls).length := by
  have hordered : Window.Ordered id s.now (s.times o) := by
    have hsub : (s.admitted.filter (Admission.ofObj o)).Sublist s.admitted := filter_sublist
    refine ⟨?_, ?_⟩
    · exact List.pairwise_map.2 (h.ordered.sorted.sublist hsub)
    · intro t ht
      obtain ⟨e, he, rfl⟩ := List.mem_map.1 ht
      exact h.ordered.past e (hsub.subset he)
  rw [(h.deque o ho).purge_eq hordered]
  unfold LimSys.admittedIn LimSys.times Window.recent
  rw [filter_filter, ← countP_eq_length_filter, ← countP_eq_length_filter, countP_map, countP_filter]
  apply countP_mono_left
  intro e _ he
  simp only [Bool.and_eq_true, decide_eq_true_eq, Function.comp, id] at he ⊢
  exact ⟨by omega, he.1⟩

theorem LogInv.slot (h : LogInv s) {r : Nat} (ho : o < s.next) (hcur : s.current = some o)
    (hrpm : (s.objs o).config.rpm = some r)
    (hlen : (Window.purge id (secs rateWindowS) s.now (s.objs o).calls).length < r)
    (hrow : ∃ config, InForceAt s s.now config ∧ config.rpm = some r)
    (hlog : s'.admitted = s.admitted ++ [⟨s.now, some o, some r⟩]) (hnow : s'.now = s.now)
    (hnext : s'.next = s.next) (hcur' : s'.current = s.current)
    (hcfg : ∀ o', (s'.objs o').config = (s.objs o').config) (hdeque : (s'.objs o).calls =
      Window.purge id (secs rateWindowS) s.now (s.objs o).calls ++ [s.now])
    (hdeque' : ∀ o', o' ≠ o → (s'.objs o').calls = (s.objs o').calls)
    (hforce : ∀ t config, InForceAt s t config → InForceAt s' t config) : LogInv s' := by
  have hof : ∀ o', Admission.ofObj o' ⟨s.now, some o, some r⟩ = decide (o = o') := by
    intro o'
    simp [Admission.ofObj]
  have hmem : ∀ e ∈ s'.admitted, e ∈ s.admitted ∨ e = ⟨s.now, some o, some r⟩ := by
    intro e he
    rwa [hlog, mem_append, mem_singleton] at he
  -- the admissions of other limiters are at least 60 s old
  have hold : ∀ e ∈ s.admitted, e.rpm ≠ none → e.o ≠ some o → secs rateWindowS ≤ s.now - e.time :=
    fun e he hr hne => h.current e he hr (hcur ▸ hne)
  refine ⟨?_, ?_, ?_, ?_, ?_, ?_, ?_⟩
  · rw [hlog, hnow]
    exact h.ordered.append rfl
  · intro o' ho'
    rw [times_append hlog, hof, hnow]
    by_cases he : o = o'
    · subst he
      rw [hdeque, if_pos (by simp)]
      exact ((h.deque o ho).purge).append s.now
    · rw [hdeque' o' (Ne.symm he), if_neg (by simp [he]), append_nil]
      exact h.deque o' (hnext ▸ ho')
  · intro e he hr
    rcases hmem e he with he | rfl
    · obtain ⟨o', ho', heo, hc⟩ := h.limited e he hr
      exact ⟨o', hnext ▸ ho', heo, (congrArg _ (hcfg o')).trans hc⟩
    · exact ⟨o, hnext ▸ ho, rfl, (congrArg _ (hcfg o)).trans hrpm⟩
  · intro o' ho' r' hr' a
    rw [hcfg] at hr'
    have hrate := h.rate o' (hnext ▸ ho') r' hr' a
    rw [admittedIn_append hlog, hof]
    split
    · next he =>
      obtain ⟨heq, hle, hlt⟩ := he
      obtain rfl : o = o' := by simpa using heq
      obtain rfl : r = r' := Option.some.inj (hrpm.symm.trans hr')
      have := h.window_le ho hlt
      omega
    · exact hrate
  · intro e he e' he' hr hr' hne
    rcases hmem e he with he | rfl
    · rcases hmem e' he' with he' | rfl
      · exact h.apart e he e' he' hr hr' hne
      · exact Or.inr (hold e he hr hne)
    · rcases hmem e' he' with he' | rfl
      · exact Or.inl (hold e' he' hr' (Ne.symm hne))
      · exact absurd rfl hne
  · intro e he hr hne
    rw [hcur'] at hne
    rw [hnow]
    rcases hmem e he with he | rfl
    · exact h.current e he hr hne
    · exact absurd hcur.symm hne
  · intro e he
    rcases hmem e he with he | rfl
    · obtain ⟨config, hf, hc⟩ := h.inForce e he
      exact ⟨config, hforce _ _ hf, hc⟩
    · obtain ⟨config, hf, hc⟩ := hrow
      exact ⟨config, hforce _ _ hf, hc⟩

/-! ## The limiter of a configuration -/

theorem CallOk.obj_of_bound (h : CallOk s c) (hb : c.bound = true) : ∃ o, c.obj = some o := by
  unfold LimCall.bound at hb
  unfold LimCall.obj
  cases hp : c.phase with
  | resolved => simp [hp] at hb
  | queued o d => exact ⟨o, rfl⟩
  | holding o d => exact ⟨o, rfl⟩
  | running o =>
    cases o with
    | none =>
      rw [hp, h.unlimited hp] at hb
      cases hb
    | some o => exact ⟨o, rfl⟩

theorem holds_obj (h : c.holds o = true) : c.obj = some o := by
  unfold LimCall.holds at h
  unfold LimCall.obj
  cases hp : c.phase with
  | resolved => simp [hp] at h
  | queued o' d => simp [hp] at h
  | holding o' d => simpa [hp] using h
  | running o' => simpa [hp] using h

theorem LogInv.ofObj_next (h : LogInv s) : ∀ e ∈ s.admitted, Admission.ofObj s.next e = false := by
  intro e he
  by_contra hof
  simp only [Bool.not_eq_false, Admission.ofObj, Bool.and_eq_true, decide_eq_true_eq] at hof
  obtain ⟨o, ho, heo, -⟩ := h.limited e he (Option.isSome_iff_ne_none.1 hof.2)
  have : s.next = o := Option.some.inj (hof.1.symm.trans heo)
  exact Nat.lt_irrefl _ (this ▸ ho)

theorem LimInv.holds_next (h : LimInv { s with calls := c :: s.calls }) :
    s.calls.countP (LimCall.holds s.next) = 0 := by
  rw [countP_eq_zero]
  intro d hd hh
  obtain ⟨hlt, -⟩ := (h.rest d hd).obj s.next (holds_obj hh)
  exact Nat.lt_irrefl _ hlt

theorem LimInv.newLimiter {d : Int} (h : LimInv { s with calls := c :: s.calls })
    (hp : c.phase = .resolved) (hcalls : ∀ d ∈ s.calls, d.bound = false)
    (hlog : ∀ e ∈ s.admitted, e.rpm ≠ none → secs rateWindowS ≤ s.now - e.time) :
    LimInv { s with
      objs := Function.update s.objs s.next ⟨c.config, 0, []⟩
      next := s.next + 1
      current := some s.next
      calls := { c with phase := .queued s.next d } :: s.calls } := by
  have hold : ∀ o, o < s.next → Function.update s.objs s.next ⟨c.config, 0, []⟩ o = s.objs o :=
    fun o ho => Function.update_of_ne (Nat.ne_of_lt ho) ..
  have hnone : ∀ e ∈ s.admitted, Admission.ofObj s.next e = false := h.log.ofObj_next
  have hself := h.self
  refine ⟨?_, ?_, ?_, h.since, ?_⟩
  · intro d hd
    rcases List.mem_cons.1 hd with rfl | hd
    · refine ⟨fun o ho => ?_, fun hr => (by cases hr), fun o ho _ => ho, hself.started, hself.inForce⟩
      obtain rfl : s.next = o := Option.some.inj ho
      exact ⟨Nat.lt_succ_self _, by simp⟩
    · refine (h.rest d hd).frame (Nat.le_succ _) (fun o ho => congrArg Limiter.config (hold o ho)) ?_ le_rfl
        (fun _ _ _ hf => hf)
      intro hb
      rw [hcalls d hd] at hb
      cases hb
  · intro o ho m hm
    rcases Nat.lt_succ_iff_lt_or_eq.1 ho with ho | rfl
    · have hm' : (s.objs o).config.maxConcurrency = some m := by
        rw [← hold o ho]
        exact hm
      have := h.taken o ho m hm'
      simp only [hold o ho, countP_cons] at this ⊢
      simpa [LimCall.holds, hp] using this
    · simp [h.holds_next, LimCall.holds]
  · intro o ho
    obtain rfl : s.next = o := Option.some.inj ho
    exact Nat.lt_succ_self _
  · refine ⟨h.log.ordered, ?_, ?_, ?_, h.log.apart, fun e he hr _ => hlog e he hr, h.log.inForce⟩
    · intro o ho
      rcases Nat.lt_succ_iff_lt_or_eq.1 ho with ho | rfl
      · simp only [hold o ho]
        exact h.log.deque o ho
      · have : s.times s.next = [] := by
          unfold LimSys.times
          rw [List.filter_eq_nil_iff.2 fun e he => by simp [hnone e he]]
          rfl
        simp only [Function.update_self]
        exact this ▸ Window.Holds.refl
    · intro e he hr
      obtain ⟨o, ho, heo, hc⟩ := h.log.limited e he hr
      exact ⟨o, Nat.lt_succ_of_lt ho, heo, (congrArg (fun l => l.config.rpm) (hold o ho)).trans hc⟩
    · intro o ho r hr a
      rcases Nat.lt_succ_iff_lt_or_eq.1 ho with ho | rfl
      · exact h.log.rate o ho r ((congrArg (fun l => l.config.rpm) (hold o ho)).symm.trans hr) a
      · have : (s.admittedIn a).filter (Admission.ofObj s.next) = [] := by
          rw [filter_eq_nil_iff]
          intro e he
          simp [hnone e (mem_admittedIn.1 he).1]
        show ((s.admittedIn a).filter (Admission.ofObj s.next)).length ≤ r
        rw [this]
        exact Nat.zero_le _

theorem LimInv.enter (h : LimInv { s with calls := c :: s.calls }) (hp : c.phase = .resolved)
    (hidle : replaces s c = true → (∀ d ∈ s.calls, d.bound = false) ∧
      ∀ e ∈ s.admitted, e.rpm ≠ none → secs rateWindowS ≤ s.now - e.time)
    (hlim : c.config ≠ .unlimited) (d : Int) :
    LimInv { (limiterFor s c.config).1 with
      calls := { c with phase := .queued (limiterFor s c.config).2 d } ::
        (limiterFor s c.config).1.calls } := by
  unfold limiterFor
  cases hcur : s.current with
  | none =>
    -- no limiter yet: no call can be at one
    refine h.newLimiter hp ?_ ?_
    · intro d hd
      by_contra hb
      have hok := h.rest d hd
      obtain ⟨o, ho⟩ := hok.obj_of_bound (by simpa using hb)
      have := hok.atCurrent o ho (by simpa using hb)
      rw [hcur] at this
      cases this
    · intro e he hr
      refine h.log.current e he hr ?_
      obtain ⟨o, -, heo, -⟩ := h.log.limited e he hr
      rw [heo]
      simp [hcur]
  | some o =>
    by_cases hcfg : (s.objs o).config = c.config
    · simp only [if_pos hcfg]
      have hself := h.self
      refine h.move ?_ ⟨?_, ?_, ?_, hself.started, hself.inForce⟩
      · intro o'
        simp [LimCall.holds, hp]
      · intro o' ho'
        obtain rfl : o = o' := Option.some.inj ho'
        exact ⟨h.currentLt o hcur, hcfg⟩
      · intro hr
        cases hr
      · intro o' ho' _
        rw [hcur]
        exact ho'
    · simp only [if_neg hcfg]
      have hrep : replaces s c = true := by simp [replaces, hp, hcur, hlim, hcfg]
      exact h.newLimiter hp (hidle hrep).1 (hidle hrep).2

/-! ## Whole runs -/

theorem LimInv.rowInForce (h : LimInv s) : InForceAt s s.now s.row.config := Or.inl ⟨rfl, h.since⟩

theorem LimInv.goesUnlimited {o : Option Nat}
    (h : LimInv { s with calls := { c with phase := .running o } :: s.calls })
    (hrpm : c.config.rpm = none) (hrow : s.row.config.rpm = none) : LimInv (goes s c o) := by
  refine h.withLog rfl rfl rfl rfl rfl (fun _ => ⟨rfl, rfl⟩) (fun _ _ hf => hf) ?_
  refine h.log.unlimited o ?_ rfl rfl rfl rfl (fun _ _ hf => hf) ⟨_, h.rowInForce, hrow⟩
  simp [goes, hrpm]

theorem LimInv.goesLimited {r : Nat}
    (h : LimInv { s with calls := { c with phase := .running (some o) } :: s.calls })
    (ho : o < s.next) (hcur : s.current = some o) (hcfg : (s.objs o).config.rpm = some r)
    (hrpm : c.config.rpm = some r) (hrow : s.row.config.rpm = some r)
    (hlen : ((s.objs o).purge s.now).calls.length < r) :
    LimInv (goes (setObj s o { (s.objs o).purge s.now with
      calls := ((s.objs o).purge s.now).calls ++ [s.now] }) c (some o)) := by
  have hobj : ∀ o', ((setObj s o { (s.objs o).purge s.now with
      calls := ((s.objs o).purge s.now).calls ++ [s.now] }).objs o').config = (s.objs o').config ∧
      ((setObj s o { (s.objs o).purge s.now with
      calls := ((s.objs o).purge s.now).calls ++ [s.now] }).objs o').taken = (s.objs o').taken := by
    intro o'
    rw [setObj_objs]
    split
    · next he => exact ⟨he ▸ rfl, he ▸ rfl⟩
    · exact ⟨rfl, rfl⟩
  refine h.withLog rfl rfl rfl rfl rfl hobj (fun _ _ hf => hf) ?_
  refine h.log.slot ho hcur hcfg hlen ⟨_, h.rowInForce, hrow⟩ ?_ rfl rfl rfl (fun o' => (hobj o').1)
    ?_ ?_ (fun _ _ hf => hf)
  · show s.admitted ++ [⟨s.now, some o, c.config.rpm⟩] = _
    rw [hrpm]
  · show ((setObj s o _).objs o).calls = _
    rw [setObj_objs, if_pos rfl]
    rfl
  · intro o' hne
    show ((setObj s o _).objs o').calls = _
    rw [setObj_objs, if_neg hne]

theorem CallOk.onward (h : CallOk s c) (ho : c.obj = some o) (hb : c.bound = true)
    {phase : Phase} (hobj : LimCall.obj { c with phase := phase } = some o)
    (hrun : phase ≠ .running none) : CallOk s { c with phase := phase } := by
  have heq : ∀ o', LimCall.obj { c with phase := phase } = some o' → o' = o :=
    fun o' ho' => Option.some.inj (ho'.symm.trans hobj)
  refine ⟨fun o' ho' => ?_, fun hr => absurd hr hrun, fun o' ho' _ => ?_, h.started, h.inForce⟩
  · rw [heq o' ho']
    exact h.obj o ho
  · rw [heq o' ho']
    exact h.atCurrent o ho hb

theorem limInv_enter (h : LimInv { s with calls := c :: s.calls })
    (hidle : replaces s c = true → (∀ d ∈ s.calls, d.bound = false) ∧
      ∀ e ∈ s.admitted, e.rpm ≠ none → secs rateWindowS ≤ s.now - e.time)
    (hadm : admitsNow s c .enter = true → c.config.rpm = s.row.config.rpm) :
    LimInv (act s c .enter) := by
  have hself := h.self
  unfold act
  cases hp : c.phase with
  | resolved =>
    by_cases hlim : c.config = .unlimited
    · rw [if_pos hlim]
      have hnone : c.config.rpm = none := by rw [hlim]; rfl
      have hrow := hadm (by simp [admitsNow, hp, hlim])
      refine LimInv.goesUnlimited (h.move ?_ ⟨?_, fun _ => hlim, ?_, hself.started, hself.inForce⟩)
        hnone (hrow ▸ hnone)
      · simp [LimCall.holds, hp]
      · intro o ho
        cases ho
      · intro o ho
        cases ho
    · rw [if_neg hlim]
      exact h.enter hp hidle hlim _
  | _ => exact h

theorem limInv_acquire (h : LimInv { s with calls := c :: s.calls })
    (hadm : admitsNow s c .acquire = true → c.config.rpm = s.row.config.rpm) :
    LimInv (act s c .acquire) := by
  unfold act
  cases hp : c.phase with
  | queued o deadline =>
    dsimp only
    have hout : ∀ o', c.holds o' = false := by simp [LimCall.holds, hp]
    have honward : ∀ {phase : Phase}, LimCall.obj { c with phase := phase } = some o →
        phase ≠ .running none → CallOk s { c with phase := phase } := fun hobj hrun =>
      h.self.onward (by simp [LimCall.obj, hp]) (by simp [LimCall.bound, hp]) hobj hrun
    by_cases hfree : free (s.objs o) = true
    · rw [if_pos hfree]
      cases hrpm : c.config.rpm with
      | none =>
        have hrow := hadm (by simp [admitsNow, hp, hfree, hrpm])
        refine LimInv.goesUnlimited (h.take hout (fun o' => ?_) (honward rfl nofun) hfree) hrpm
          (hrow ▸ hrpm)
        simp [LimCall.holds, eq_comm]
      | some r =>
        refine h.take hout (fun o' => ?_) (honward rfl nofun) hfree
        simp [LimCall.holds, eq_comm]
    · rw [if_neg hfree]
      exact h
  | _ => exact h

theorem limInv_rate (h : LimInv { s with calls := c :: s.calls })
    (hadm : admitsNow s c .rate = true → c.config.rpm = s.row.config.rpm) :
    LimInv (act s c .rate) := by
  have hself := h.self
  unfold act
  cases hp : c.phase with
  | holding o deadline =>
    dsimp only
    have hobj : c.obj = some o := by simp [LimCall.obj, hp]
    have hbound : c.bound = true := by simp [LimCall.bound, hp]
    obtain ⟨hlt, hcfg⟩ := hself.obj o hobj
    have hin : ∀ o', c.holds o' = decide (o' = o) := by simp [LimCall.holds, hp, eq_comm]
    split
    · next hlen =>
      have hrow := hadm (by simpa [admitsNow, hp] using hlen)
      obtain ⟨r, hr⟩ : ∃ r, (s.objs o).config.rpm = some r := by
        rw [← Option.ne_none_iff_exists']
        intro hnone
        have hnone' : ((s.objs o).purge s.now).config.rpm = none := hnone
        simp [hnone'] at hlen
      have hr' : c.config.rpm = some r := by rw [← hcfg, hr]
      refine LimInv.goesLimited (h.move ?_ (hself.onward hobj hbound rfl nofun)) hlt
        (hself.atCurrent o hobj hbound) hr hr' (hrow ▸ hr') ?_
      · intro o'
        rw [hin]
        simp [LimCall.holds, eq_comm]
      · have hr'' : ((s.objs o).purge s.now).config.rpm = some r := hr
        rwa [hr''] at hlen
    · split
      · exact LimInv.giveBack (s := setObj s o ((s.objs o).purge s.now)) (h.purge o) hin
      · exact h.purge o
  | _ => exact h

theorem limInv_act (a : Act) (h : LimInv { s with calls := c :: s.calls })
    (hidle : a = .enter → replaces s c = true → (∀ d ∈ s.calls, d.bound = false) ∧
      ∀ e ∈ s.admitted, e.rpm ≠ none → secs rateWindowS ≤ s.now - e.time)
    (hadm : admitsNow s c a = true → c.config.rpm = s.row.config.rpm) : LimInv (act s c a) := by
  cases a with
  | enter => exact limInv_enter h (hidle rfl) hadm
  | acquire => exact limInv_acquire h hadm
  | timeout =>
    unfold act
    cases hp : c.phase with
    | queued o deadline =>
      dsimp only
      split
      · exact h.drop fun o' _ => by simp [LimCall.holds, hp]
      · exact h
    | _ => exact h
  | rate => exact limInv_rate h hadm
  | finish =>
    unfold act
    cases hp : c.phase with
    | running o =>
      cases o with
      | none => exact h.drop fun o' _ => by simp [LimCall.holds, hp]
      | some o => exact h.giveBack (by simp [LimCall.holds, hp, eq_comm])
    | _ => exact h

theorem LimInv.tick (h : LimInv s) (d : Nat) : LimInv { s with now := s.now + d } := by
  have hle : s.now ≤ s.now + d := by omega
  refine ⟨fun c hc => (h.calls c hc).frame le_rfl (fun _ _ => rfl) (fun _ => rfl) hle
    (fun _ _ _ hf => hf), h.taken, h.currentLt, le_trans h.since hle, ?_⟩
  refine ⟨h.log.ordered.later hle, fun o ho => (h.log.deque o ho).later hle, h.log.limited,
    h.log.rate, h.log.apart, ?_, h.log.inForce⟩
  intro e he hr hne
  have := h.log.current e he hr hne
  show _ ≤ s.now + d - e.time
  omega

theorem inForceAt_edit {row : LimitRow} {t : Int} {config : Config} (ht : t ≤ s.now)
    (h : InForceAt s t config) : InForceAt (limStep s (.edit row)) t config := by
  rcases h with ⟨rfl, hle⟩ | ⟨p, hp, hf⟩
  · exact Or.inr ⟨_, mem_cons_self, rfl, hle, ht⟩
  · exact Or.inr ⟨p, mem_cons_of_mem _ hp, hf⟩

theorem LimInv.edit (h : LimInv s) (row : LimitRow) : LimInv (limStep s (.edit row)) := by
  refine ⟨fun c hc => (h.calls c hc).frame le_rfl (fun _ _ => rfl) (fun _ => rfl) le_rfl
    (fun _ _ ht hf => inForceAt_edit ht hf), h.taken, h.currentLt, le_rfl, ?_⟩
  refine ⟨h.log.ordered, h.log.deque, h.log.limited, h.log.rate, h.log.apart, h.log.current, ?_⟩
  intro e he
  obtain ⟨config, hf, hr⟩ := h.log.inForce e he
  exact ⟨config, inForceAt_edit (h.log.ordered.past e he) hf, hr⟩

theorem LimInv.resolve (h : LimInv s) : LimInv (limStep s .resolve) := by
  refine ⟨?_, ?_, h.currentLt, h.since, h.log.frame rfl rfl rfl rfl (fun _ => rfl) h.log.deque (fun _ _ hf => hf)⟩
  · intro c hc
    rcases List.mem_cons.1 hc with rfl | hc
    · exact ⟨fun o ho => (by cases ho), fun hr => (by cases hr), fun o ho => (by cases ho), le_rfl, h.rowInForce⟩
    · exact (h.calls c hc).frame le_rfl (fun _ _ => rfl) (fun _ => rfl) le_rfl (fun _ _ _ hf => hf)
  · intro o ho m hm
    have := h.taken o ho m hm
    simpa [limStep, LimCall.holds] using this

theorem limInv_step (s : LimSys) (op : LimOp) (h : LimInv s) (hsafe : EditSafe s op) : LimInv (limStep s op) := by
  cases op with
  | tick d => exact h.tick d
  | edit row => exact h.edit row
  | resolve => exact h.resolve
  | call i a =>
    simp only [EditSafe] at hsafe
    simp only [limStep]
    cases hi : s.calls[i]? with
    | none => exact h
    | some c =>
      rw [hi] at hsafe
      obtain ⟨henter, hadm⟩ := hsafe
      obtain ⟨hlt, rfl⟩ := List.getElem?_eq_some_iff.1 hi
      refine limInv_act (s := { s with calls := s.calls.eraseIdx i }) a
        (h.perm (getElem_cons_eraseIdx_perm hlt).symm) ?_ hadm
      rintro rfl hrep
      have hidle := henter hrep
      simp only [idle, Bool.and_eq_true, all_eq_true, Bool.not_eq_true', Bool.or_eq_true,
        decide_eq_true_eq, Option.isNone_iff_eq_none] at hidle
      refine ⟨fun d hd => hidle.1 d (mem_of_mem_eraseIdx hd), fun e he hr => ?_⟩
      exact (hidle.2 e he).resolve_left hr

theorem limInv_init (now : Int) (row : LimitRow) : LimInv (LimSys.init now row) := by
  refine ⟨fun c hc => (by cases hc), fun o ho => absurd ho (Nat.not_lt_zero _),
    fun o ho => (by cases ho), le_rfl, ?_⟩
  refine ⟨⟨List.Pairwise.nil, fun e he => (by cases he)⟩, fun o ho => absurd ho (Nat.not_lt_zero _),
    fun e he => (by cases he), fun o ho => absurd ho (Nat.not_lt_zero _), fun e he => (by cases he),
    fun e he => (by cases he), fun e he => (by cases he)⟩

/-- **The limiter across edits.**  In a run that replaces a limiter only when it is
idle, and lets a call in flight only under the row's own `rpm_limit`, both limits
hold of all calls of the connection at every moment. -/
theorem limits_hold (now : Int) (row : LimitRow) (ops : List LimOp)
    (hsafe : Along limStep EditSafe (LimSys.init now row) ops) : Always limStep LimitsHold (LimSys.init now row) ops :=
  (Along.always limInv_step (limInv_init now row) hsafe).mono fun _ h => h.limitsHold

/-- Two calls under a limit of two, both ended before the limit is edited to one and
the next call comes. -/
def editWhenIdle : List LimOp :=
  [.resolve, .call 0 .enter, .call 0 .acquire, .resolve, .call 0 .enter, .call 0 .acquire,
    .call 0 .finish, .call 0 .finish, .edit ⟨some 1, none⟩, .resolve, .call 0 .enter, .call 0 .acquire]

theorem limits_hold_editWhenIdle : Always limStep LimitsHold (LimSys.init 0 ⟨some 2, none⟩) editWhenIdle := by
  apply limits_hold
  refine ⟨trivial, ?_, ?_, trivial, ?_, ?_, ?_, ?_, trivial, trivial, ?_, ?_, trivial⟩
  all_goals exact ⟨by decide, by decide⟩

/-- Two calls in flight under a limit of two; the limit is edited to one and one
more call comes: it has a semaphore of its own. -/
def editInFlight : List LimOp :=
  [.resolve, .call 0 .enter, .call 0 .acquire, .resolve, .call 0 .enter, .call 0 .acquire,
    .edit ⟨some 1, none⟩, .resolve, .call 0 .enter, .call 0 .acquire]

theorem editInFlight_three_in_flight : ¬ Always limStep LimitsHold (LimSys.init 0 ⟨some 2, none⟩) editInFlight := by
  intro h
  have hfly : (run limStep (LimSys.init 0 ⟨some 2, none⟩) editInFlight).flying.length = 3 := by
    decide
  obtain ⟨t, config, -, -, hforce, hwithin⟩ := h.run.concurrency
    ⟨0, ⟨some 1, none⟩, .running (some 1)⟩ (by decide) (by decide)
  rw [hfly] at hwithin
  -- a limit of one and a limit of two were in force
  rcases hforce with ⟨rfl, -⟩ | ⟨p, hp, rfl, -⟩
  · exact absurd (hwithin 1 rfl) (by decide)
  · obtain rfl : p = ⟨0, 0, ⟨some 2, none⟩⟩ := List.mem_singleton.1 hp
    exact absurd (hwithin 2 rfl) (by decide)

end CisApp.Gateway
