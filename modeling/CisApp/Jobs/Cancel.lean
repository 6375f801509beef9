import CisApp.Jobs.Step

/-!
# A queued row whose cancel was requested

`claim` skips a queued row with `cancel_requested`, the reaper and the workers'
statements only match running rows: such a row never finishes by itself.
Every writer but one keeps the queue free of them.  The
exception is the re-queuing branch of `fail`, which does not read the flag an
admin may have set since the claim: a run is free of stuck rows exactly if none
of its `fail` calls re-queues a row whose cancel was requested
(`noStuck_iff`).
-/

namespace CisApp.Jobs

/-- Queued, and an admin asked to cancel it. -/
def JobRow.stuck (r : JobRow) : Prop := r.status = .queued ∧ r.cancelRequested = true

instance (r : JobRow) : Decidable r.stuck := inferInstanceAs (Decidable (_ ∧ _))

def NoStuck (t : JobTable) : Prop := t.All fun _ r => ¬ r.stuck

instance : DecidablePred NoStuck := fun t => inferInstanceAs (Decidable (t.All fun _ r => ¬ r.stuck))

/-- The step is no `fail` that re-queues a row whose cancel was requested. -/
def RequeuesUncancelled (t : JobTable) : QueueOp → Prop
  | .fail _ job worker _ retryable _ _ _ =>
    job.retries retryable = true → ∀ r, t.get? job.id = some r → r.ownedBy worker = true →
      r.cancelRequested = false
  | _ => True

theorem releaseStatus_queued {c counted : Bool} {n : Int} (h : releaseStatus c counted n = .queued) : c = false := by
  cases c with
  | false => rfl
  | true => simp [releaseStatus] at h

theorem reapFailStatus_ne_queued (c : Bool) : reapFailStatus c ≠ .queued := by
  cases c <;> simp [reapFailStatus]

theorem Touch.not_stuck {t : JobTable} {k : JobId} {r r' : JobRow} {op : QueueOp}
    (h : Touch t k r op r') (hr : t.get? k = some r) (hs : ¬ r.stuck) (hop : RequeuesUncancelled t op) : ¬ r'.stuck := by
  rintro ⟨hq, hc⟩
  cases h with
  | claim h => cases hq
  | heartbeat h => exact hs ⟨hq, hc⟩
  | setProgress => exact hs ⟨hq, hc⟩
  | complete h => cases hq
  | stopBudget h => cases hq
  | markCancelled h => cases hq
  | failRequeue hid h hret =>
    have hfalse := hop hret r (hid ▸ hr) h
    have htrue : r.cancelRequested = true := hc
    rw [hfalse] at htrue
    cases htrue
  | failEnd hid h hret => cases hq
  | release h hcnt =>
    have hfalse : r.cancelRequested = false := releaseStatus_queued hq
    have htrue : r.cancelRequested = true := hc
    rw [hfalse] at htrue
    cases htrue
  | reapRequeue h =>
    simp only [reapRequeues, Bool.and_eq_true, Bool.not_eq_true'] at h
    have htrue : r.cancelRequested = true := hc
    rw [h.2] at htrue
    cases htrue
  | reapFail h => exact reapFailStatus_ne_queued _ hq
  | requestCancel h =>
    have hq' : (if r.status.cancelsAtOnce then Status.cancelled else r.status) = .queued := hq
    split at hq'
    · cases hq'
    · next hn => exact hn (by rw [hq']; rfl)
  | retired h => cases hq
  | retry h => cases hc
  | retryOne h => cases hc

theorem noStuck_step (t : JobTable) (op : QueueOp) (ht : NoStuck t)
    (hop : RequeuesUncancelled t op) : NoStuck (step t op) := by
  refine All.step ht (fun k r' hi => ?_) (fun k r r' hr hs h => h.not_stuck hr hs hop)
  cases hi with
  | enqueue hmax hkind hkey hfree =>
    rintro ⟨-, hc⟩
    cases hc

theorem requeuesUncancelled_of_noStuck (t : JobTable) (op : QueueOp) (_ : NoStuck t)
    (h : NoStuck (step t op)) : RequeuesUncancelled t op := by
  cases op with
  | fail now job worker error retryable cost result rand =>
    intro hret r hr ho
    by_contra hc
    have ht : Touch t job.id r (.fail now job worker error retryable cost result rand)
        (requeueRow now error (backoffSeconds job.attempt rand) cost r) := .failRequeue rfl ho hret
    have htrue : r.cancelRequested = true := by simpa using hc
    exact h job.id _ (step_touch hr ht) ⟨rfl, htrue⟩
  | _ => trivial

/-- **The exact condition.**  No row is ever both queued and cancel-requested in
a run of any operations, exactly if no `fail` of the run re-queues a row whose
cancel was requested. -/
theorem noStuck_iff (ops : List QueueOp) :
    Always step NoStuck Table.empty ops ↔ Along step RequeuesUncancelled Table.empty ops :=
  ⟨Always.along requeuesUncancelled_of_noStuck, Along.always noStuck_step Table.All.empty⟩

/-- A worker claims the job, an admin cancels it, and the handler's retryable
error re-queues it. -/
def cancelThenFail : List QueueOp :=
  [.enqueue 0 7 "s1_rewrite" [] none 3 none none none,
   .claim 1 "w" [("s1_rewrite", 1)] 90 [],
   .requestCancel 2 7,
   .fail 3 { id := 7, kind := "s1_rewrite", payload := [], status := .running, attempt := 1,
             maxAttempts := 3, progress := [], costUsd := 0, createdBy := none,
             parentJobId := none } "w" "boom" true none none 0]

theorem cancelThenFail_stuck : ¬ ∀ ops, Always step NoStuck Table.empty ops := by
  intro h
  have hrun : ¬ Always step NoStuck Table.empty cancelThenFail := by decide +kernel
  exact hrun (h cancelThenFail)

end CisApp.Jobs
