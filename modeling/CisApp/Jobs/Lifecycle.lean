import CisApp.Jobs.Step

/-!
# The life of a job

`Edge` is the life cycle a job is meant to have: it waits in the queue, runs
under a lease, ends or goes back to the queue; an ended job without success can
be retried, a queued one cancelled, and so can one stopped on a budget.  A job
that succeeded stays so.  Every statement of the queue refines it
(`Touch.edge`): whatever the interleaving, a row's
status moves along these edges only.
-/

namespace CisApp.Jobs

inductive Edge : Status → Status → Prop
  | start : Edge .queued .running
  | finish (f : Finish) : Edge .running f.status
  | requeue : Edge .running .queued
  | cancelQueued : Edge .queued .cancelled
  | decline : Edge .stoppedBudget .cancelled
  | retry {s : Status} (h : s.unsuccessful = true) : Edge s .queued

theorem Edge.of_releaseStatus (c counted : Bool) (n : Int) : Edge .running (releaseStatus c counted n) := by
  unfold releaseStatus
  split
  · exact .finish .cancelled
  · split
    · exact .finish .failed
    · exact .requeue

theorem Edge.of_reapFailStatus (c : Bool) : Edge .running (reapFailStatus c) := by
  cases c
  · exact .finish .failed
  · exact .finish .cancelled

theorem Touch.kind_eq {t : JobTable} {k : JobId} {r r' : JobRow} {op : QueueOp}
    (h : Touch t k r op r') : r'.kind = r.kind := by
  cases h <;> rfl

theorem Touch.edge {t : JobTable} {k : JobId} {r r' : JobRow} {op : QueueOp}
    (h : Touch t k r op r') : r'.status = r.status ∨ Edge r.status r'.status := by
  have fin : ∀ {w : String} {s : Status}, r.ownedBy w = true → Edge .running s →
      Edge r.status s := by
    intro w s ho he
    rw [(ownedBy_iff.1 ho).1]
    exact he
  cases h with
  | claim h =>
    right
    rw [(eligible_iff.1 (claimable_spec h).2.1).1]
    exact .start
  | heartbeat h => exact Or.inl rfl
  | setProgress => exact Or.inl rfl
  | complete h => exact Or.inr (fin h (.finish .succeeded))
  | stopBudget h => exact Or.inr (fin h (.finish .stoppedBudget))
  | markCancelled h => exact Or.inr (fin h (.finish .cancelled))
  | failRequeue hid h hret => exact Or.inr (fin h .requeue)
  | failEnd hid h hret => exact Or.inr (fin h (.finish .failed))
  | release h hc => exact Or.inr (fin h (.of_releaseStatus _ _ _))
  | reapRequeue h =>
    simp only [reapRequeues, Bool.and_eq_true] at h
    rw [expired_running h.1.1]
    exact Or.inr .requeue
  | reapFail h =>
    rw [expired_running h]
    exact Or.inr (.of_reapFailStatus _)
  | requestCancel h =>
    show (if r.status.cancelsAtOnce then Status.cancelled else r.status) = r.status ∨
      Edge r.status (if r.status.cancelsAtOnce then Status.cancelled else r.status)
    cases hs : r.status with
    | queued => exact Or.inr .cancelQueued
    | stoppedBudget => exact Or.inr .decline
    | _ => exact Or.inl rfl
  | retired h =>
    simp only [retires, Bool.and_eq_true, Bool.or_eq_true, beq_iff_eq] at h
    rcases h.2 with hs | hs <;> rw [hs]
    · exact Or.inr .cancelQueued
    · exact Or.inr (.finish .cancelled)
  | retry h =>
    simp only [retriable, Bool.and_eq_true] at h
    exact Or.inr (.retry h.2)
  | @retryOne now delay stopped h =>
    simp only [retriableOne, Bool.and_eq_true, beq_iff_eq] at h
    right
    rw [h.2]
    cases stopped
    · exact .retry rfl
    · exact .retry rfl

theorem Touch.running {t : JobTable} {k : JobId} {r r' : JobRow} {op : QueueOp}
    (h : Touch t k r op r') (hs : r'.status = .running) : r.status = .running ∨ ∃ now worker caps lease locked,
      op = .claim now worker caps lease locked ∧ claimable t now caps locked = some (k, r) := by
  rcases h.edge with he | he
  · exact Or.inl (he ▸ hs)
  · cases h with
    | claim h => exact Or.inr ⟨_, _, _, _, _, rfl, h⟩
    | heartbeat h => exact Or.inl hs
    | setProgress => exact Or.inl hs
    | complete h => cases hs
    | stopBudget h => cases hs
    | markCancelled h => cases hs
    | failRequeue hid h hret => cases hs
    | failEnd hid h hret => cases hs
    | release h hc => exact absurd hs (releaseStatus_ne_running _ _ _)
    | reapRequeue h => cases hs
    | reapFail h => exact Or.inl (expired_running h)
    | requestCancel h =>
      have hs' : (if r.status.cancelsAtOnce then Status.cancelled else r.status) = .running := hs
      split at hs'
      · cases hs'
      · exact Or.inl hs'
    | retired h => cases hs
    | retry h => cases hs
    | retryOne h => cases hs

end CisApp.Jobs
