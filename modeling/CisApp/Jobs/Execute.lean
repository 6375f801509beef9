import CisApp.Jobs.Execution

/-!
# One call of `Worker._execute_job`

The function as a machine over its `await`s.  `Pc` is the await it stands at;
an event is what ends the await (a database reply, a database error, the time
of a heartbeat, the end of the handler task) or the shutdown, which cancels the
function at whatever await it is in.  An event that cannot happen at an await
changes nothing, so every list of events is a run.

`asyncio.gather` answers a cancellation only when the task it waits for is done:
`interrupted` remembers it.  `applied` says whether a statement that ended with an
error or a cancellation had reached the database.

A heartbeat that raises is caught by the clause for handler errors, which calls
`fail` with the handler still running.  Without such an error the handler is done
whenever the function has left the attempt (`stopped_iff`).
-/

namespace CisApp.Jobs.Execute

/-- How the handler task ended. -/
inductive HandlerEnd where
  | returned
  | budgetExceeded
  | approvalStop
  | error (retryable : Bool)
  | cancelledError
  | fatal
deriving Repr, DecidableEq

inductive Handler where
  | notStarted
  | running
  | finished (how : HandlerEnd)
deriving Repr, DecidableEq

/-- The await the function stands at. -/
inductive Pc where
  | noKind
  | wait
  | beat
  | lostStop
  | cancelStop
  | cancelWrite
  | completeWrite
  | llmCost
  | budgetWrite
  | failWrite
  | shutdownStop
  | releaseCheck
  | releaseWrite
  | hook
  | left
deriving Repr, DecidableEq

structure Call where
  pc : Pc
  handler : Handler
  cancelledByAdmin : Bool
  interrupted : Bool
  wrote : Bool
deriving Repr, DecidableEq

inductive Event where
  | handlerEnds (how : HandlerEnd)
  | resume
  | timeout
  | beat (owned cancel : Bool)
  | answer (status : Option Status)
  | done
  | dbError (applied : Bool)
  | shutdown (applied : Bool)
deriving Repr, DecidableEq

/-- The call at its first await; `known` is whether the kind is registered. -/
def start (known : Bool) : Call where
  pc := if known then .wait else .noKind
  handler := if known then .running else .notStarted
  cancelledByAdmin := false
  interrupted := false
  wrote := false

/-- The awaits of the statements that write a status. -/
def Pc.writes : Pc → Bool
  | .noKind => true
  | .cancelWrite => true
  | .completeWrite => true
  | .budgetWrite => true
  | .failWrite => true
  | .releaseWrite => true
  | _ => false

def Call.goto (s : Call) (pc : Pc) : Call := { s with pc := pc }

/-- The statement at the present await reached the row. -/
def Call.record (s : Call) (applied : Bool) : Call :=
  { s with wrote := s.wrote || (applied && s.pc.writes) }

/-- The rest of `except CancelledError`, the handler being done. -/
def Call.afterStop (s : Call) : Call := s.goto (if s.cancelledByAdmin then .left else .releaseCheck)

/-- The clause `except CancelledError`. -/
def Call.onCancelled (s : Call) : Call :=
  match s.handler with
  | .running => { s with pc := .shutdownStop, interrupted := false }
  | _ => s.afterStop

/-- After the loop: `handler_task.result()` and the clause its exception takes. -/
def Call.onResult (s : Call) : HandlerEnd → Call
  | .returned => s.goto .completeWrite
  | .budgetExceeded => s.goto .budgetWrite
  | .approvalStop => s.goto .budgetWrite
  | .error _ => s.goto .failWrite
  | .cancelledError => s.onCancelled
  | .fatal => s.goto .left

def onHandlerEnds (s : Call) (how : HandlerEnd) : Call :=
  match s.handler with
  | .running => { s with handler := .finished how }
  | _ => s

/-- The await of the handler task returns. -/
def onResume (s : Call) : Call :=
  match s.handler with
  | .finished how =>
    match s.pc with
    | .wait => s.onResult how
    | .lostStop => if s.interrupted then s.onCancelled else s.goto .left
    | .cancelStop => if s.interrupted then s.onCancelled else s.goto .cancelWrite
    | .shutdownStop => if s.interrupted then s.goto .left else s.afterStop
    | _ => s
  | _ => s

/-- The heartbeat time passes; `asyncio.wait` still reports a handler that is done. -/
def onTimeout (s : Call) : Call :=
  match s.pc with
  | .wait =>
    match s.handler with
    | .finished how => s.onResult how
    | _ => s.goto .beat
  | _ => s

def onBeat (s : Call) (owned cancel : Bool) : Call :=
  match s.pc with
  | .beat =>
    if !owned then s.goto .lostStop
    else if cancel then { s with pc := .cancelStop, cancelledByAdmin := true }
    else s.goto .wait
  | _ => s

/-- The reply of a statement that writes: the status it gave the row, if any. -/
def onAnswer (s : Call) (status : Option Status) : Call :=
  match s.pc with
  | .noKind => (s.record status.isSome).goto .hook
  | .cancelWrite => (s.record status.isSome).goto .hook
  | .budgetWrite => (s.record status.isSome).goto .hook
  | .completeWrite => (s.record status.isSome).goto .llmCost
  | .failWrite => (s.record status.isSome).goto (if status = some .failed then .hook else .left)
  | .releaseWrite =>
    (s.record status.isSome).goto
      (if status = some .failed ∨ status = some .cancelled then .hook else .left)
  | _ => s

/-- The reads and the hook, which never raise. -/
def onDone (s : Call) : Call :=
  match s.pc with
  | .llmCost => s.goto .left
  | .hook => s.goto .left
  | .releaseCheck => s.goto .releaseWrite
  | _ => s

def onDbError (s : Call) (applied : Bool) : Call :=
  match s.pc with
  -- inside `try`: the clause `except Exception`
  | .beat => s.goto .failWrite
  | .cancelWrite => (s.record applied).goto .failWrite
  | .completeWrite => (s.record applied).goto .failWrite
  -- inside an `except` clause or before `try`: raised to the caller
  | .noKind => (s.record applied).goto .left
  | .budgetWrite => (s.record applied).goto .left
  | .failWrite => (s.record applied).goto .left
  | .releaseWrite => (s.record applied).goto .left
  -- caught where it is raised
  | .llmCost => s.goto .left
  | .hook => s.goto .left
  | .releaseCheck => s.goto .releaseWrite
  | _ => s

def onShutdown (s : Call) (applied : Bool) : Call :=
  match s.pc with
  | .wait => s.onCancelled
  | .beat => s.onCancelled
  | .cancelWrite => (s.record applied).onCancelled
  | .completeWrite => (s.record applied).onCancelled
  | .llmCost => s.onCancelled
  | .lostStop => { s with interrupted := true }
  | .cancelStop => { s with interrupted := true }
  | .shutdownStop => { s with interrupted := true }
  | .releaseCheck => s.goto .left
  | .hook => s.goto .left
  | .noKind => (s.record applied).goto .left
  | .budgetWrite => (s.record applied).goto .left
  | .failWrite => (s.record applied).goto .left
  | .releaseWrite => (s.record applied).goto .left
  | .left => s

def step (s : Call) : Event → Call
  | .handlerEnds how => onHandlerEnds s how
  | .resume => onResume s
  | .timeout => onTimeout s
  | .beat owned cancel => onBeat s owned cancel
  | .answer status => onAnswer s status
  | .done => onDone s
  | .dbError applied => onDbError s applied
  | .shutdown applied => onShutdown s applied

/-! ## The handler is done when the attempt is left -/

/-- Once the function returned, raised or wrote a status, the handler is done. -/
def Stopped (s : Call) : Prop := s.pc = .left ∨ s.wrote = true → s.handler ≠ .running

instance : DecidablePred Stopped := fun s =>
  inferInstanceAs (Decidable (s.pc = .left ∨ s.wrote = true → s.handler ≠ .running))

def StoppedNext (s : Call) : Prop := ∀ ev, Stopped (step s ev)

/-- The event is no database error of a heartbeat beside a running handler. -/
def BeatAnswered (s : Call) : Event → Prop
  | .dbError _ => s.pc = .beat → s.handler ≠ .running
  | _ => True

/-- The awaits at which the handler may be running. -/
def Pc.besideHandler : Pc → Bool
  | .wait => true
  | .beat => true
  | .lostStop => true
  | .cancelStop => true
  | .shutdownStop => true
  | _ => false

/-- A running handler: the function awaits it or a heartbeat, and has written
nothing. -/
def Guarded (s : Call) : Prop :=
  s.handler = .running → s.pc.besideHandler = true ∧ s.wrote = false

variable {s : Call}

theorem Guarded.stopped (h : Guarded s) : Stopped s := by
  intro hleft hrun
  obtain ⟨hpc, hw⟩ := h hrun
  rcases hleft with hl | hl
  · rw [hl] at hpc
    cases hpc
  · rw [hl] at hw
    cases hw

theorem guarded_of_done (h : s.handler ≠ .running) : Guarded s := fun hrun => absurd hrun h

theorem onCancelled_handler (s : Call) : s.onCancelled.handler = s.handler := by
  unfold Call.onCancelled
  split <;> rfl

theorem onResult_handler (s : Call) (how : HandlerEnd) : (s.onResult how).handler = s.handler := by
  cases how with
  | cancelledError => exact onCancelled_handler s
  | _ => rfl

theorem running_of_step {ev : Event} (h : (step s ev).handler = .running) : s.handler = .running := by
  cases ev with
  | handlerEnds how =>
    simp only [step, onHandlerEnds] at h
    split at h
    · cases h
    · exact h
  | resume =>
    simp only [step, onResume] at h
    split at h
    · next how _ =>
      rw [← h]
      split
      · exact (onResult_handler s how).symm
      · split
        · exact (onCancelled_handler s).symm
        · rfl
      · split
        · exact (onCancelled_handler s).symm
        · rfl
      · split <;> rfl
      · rfl
    · exact h
  | timeout =>
    simp only [step, onTimeout] at h
    split at h
    · split at h
      · rwa [onResult_handler] at h
      · exact h
    · exact h
  | beat owned cancel =>
    simp only [step, onBeat] at h
    split at h
    · split at h
      · exact h
      · split at h <;> exact h
    · exact h
  | answer status =>
    simp only [step, onAnswer] at h
    split at h <;> exact h
  | done =>
    simp only [step, onDone] at h
    split at h <;> exact h
  | dbError applied =>
    simp only [step, onDbError] at h
    split at h <;> exact h
  | shutdown applied =>
    simp only [step, onShutdown] at h
    split at h
    all_goals first | exact h | rwa [onCancelled_handler] at h

theorem guarded_step (s : Call) (ev : Event) (h : Guarded s) (hev : BeatAnswered s ev) : Guarded (step s ev) := by
  intro hrun
  have hr := running_of_step hrun
  obtain ⟨hpc, hw⟩ := h hr
  cases ev with
  | handlerEnds how =>
    simp only [step, onHandlerEnds, hr] at hrun
    cases hrun
  | resume =>
    have he : step s .resume = s := by simp only [step, onResume, hr]
    rw [he]
    exact ⟨hpc, hw⟩
  | timeout =>
    simp only [step, onTimeout]
    split
    · rw [hr]
      exact ⟨rfl, hw⟩
    · exact ⟨hpc, hw⟩
  | beat owned cancel =>
    simp only [step, onBeat]
    split
    · split
      · exact ⟨rfl, hw⟩
      · split
        · exact ⟨rfl, hw⟩
        · exact ⟨rfl, hw⟩
    · exact ⟨hpc, hw⟩
  | answer status =>
    -- no statement that writes is awaited beside a running handler
    simp only [step, onAnswer]
    split
    all_goals first
      | exact ⟨hpc, hw⟩
      | (next hp => rw [hp] at hpc; cases hpc)
  | done =>
    simp only [step, onDone]
    split
    all_goals first
      | exact ⟨hpc, hw⟩
      | (next hp => rw [hp] at hpc; cases hpc)
  | dbError applied =>
    simp only [step, onDbError]
    split
    · next hp => exact absurd hr (hev hp)
    all_goals first
      | exact ⟨hpc, hw⟩
      | (next hp => rw [hp] at hpc; cases hpc)
  | shutdown applied =>
    have hcancel : s.onCancelled.pc.besideHandler = true ∧ s.onCancelled.wrote = false := by
      unfold Call.onCancelled
      rw [hr]
      exact ⟨rfl, hw⟩
    simp only [step, onShutdown]
    split
    all_goals first
      | exact hcancel
      | exact ⟨hpc, hw⟩
      | (next hp => rw [hp] at hpc; cases hpc)

theorem guarded_start (known : Bool) : Guarded (start known) := by
  cases known with
  | false => exact guarded_of_done (by simp [start])
  | true => exact fun _ => ⟨rfl, rfl⟩

theorem Guarded.stoppedNext (h : Guarded s) : StoppedNext s := by
  intro ev
  by_cases hev : BeatAnswered s ev
  · exact (guarded_step s ev h hev).stopped
  · cases ev with
    | dbError applied =>
      have hbad : s.pc = .beat ∧ s.handler = .running := by simpa [BeatAnswered] using hev
      have hstep : step s (.dbError applied) = s.goto .failWrite := by
        simp only [step, onDbError, hbad.1]
      rw [hstep]
      intro hleft _
      rcases hleft with hl | hl
      · cases hl
      · have hw := (h hbad.2).2
        have hl' : s.wrote = true := hl
        rw [hw] at hl'
        cases hl'
    | _ => exact absurd trivial hev

theorem beatAnswered_of_stoppedNext (s : Call) (ev : Event) (_ : StoppedNext s)
    (h : StoppedNext (step s ev)) : BeatAnswered s ev := by
  cases ev with
  | dbError applied =>
    intro hpc hrun
    have hstep : step s (.dbError applied) = s.goto .failWrite := by
      simp only [step, onDbError, hpc]
    rw [hstep] at h
    exact h (.answer (some .queued)) (Or.inl rfl) hrun
  | _ => trivial

/-- **The exact condition.**  Along every sequence of events in which no heartbeat
raises while the handler runs, the handler is done whenever `_execute_job` has
left the attempt or written a status.  And no weaker condition on the events is
enough: the same holds after any next event of every state exactly if the events
so far meet it. -/
theorem stopped_iff (known : Bool) (evs : List Event) :
    (Along step BeatAnswered (start known) evs → Always step Stopped (start known) evs) ∧
    (Always step StoppedNext (start known) evs ↔ Along step BeatAnswered (start known) evs) := by
  have hinv : Along step BeatAnswered (start known) evs → Always step Guarded (start known) evs :=
    Along.always guarded_step (guarded_start known)
  refine ⟨fun h => ?_, Always.along beatAnswered_of_stoppedNext, fun h => ?_⟩
  · exact (hinv h).mono fun _ hs => hs.stopped
  · exact (hinv h).mono fun _ hs => hs.stoppedNext

/-- The heartbeat raises, and `fail` re-queues the job. -/
def beatRaises : List Event := [.timeout, .dbError false, .answer (some .queued)]

/-- The function has returned, the job is queued, the handler runs. -/
theorem beatRaises_leavesHandler : ¬ ∀ known evs, Always step Stopped (start known) evs := by
  intro h
  have hrun : ¬ Always step Stopped (start true) beatRaises := by decide
  exact hrun (h true beatRaises)

/-! ## The calls beside the handler

What the system of executions takes from this function: whatever the events, the
only statements awaited while the handler runs are the heartbeat and `fail`. -/

end CisApp.Jobs.Execute
