import CisApp.Jobs.Step

/-!
# The reaper's two statements

`reap` runs two `UPDATE`s, each with its own `now()`.  The first re-queues the
expired rows that have attempts left and no cancel request; the second ends
every expired row it finds, without repeating the test of the attempts.  So it
also fails a job with attempts left whose lease ends between the two statements
(`lapsed_job_failed`).  `reapRight_iff` gives the exact condition: at the
second statement no such row's lease has ended, which for an undisturbed `reap`
means that no lease ends in `[now₁, now₂)`.
-/

namespace CisApp.Jobs

/-- What the reaper may make of a row it touches. -/
def ReapedRight (r r' : JobRow) : Prop :=
  (r'.status = .failed → r.maxAttempts ≤ r.attempt ∧ r.cancelRequested = false) ∧
  (r'.status = .cancelled → r.cancelRequested = true) ∧
  (r'.status ≠ .failed → r'.status ≠ .cancelled → r'.status = .queued)

/-- The table the second statement of `reap` finds, when the operations
`between` ran after the first. -/
def betweenReaps (t : JobTable) (now₁ : Int) (between : List QueueOp) : JobTable :=
  run step (reapRequeue t now₁).1 between

/-- Each of the two statements does the right thing to every row it touches. -/
def ReapRight (t : JobTable) (now₁ : Int) (between : List QueueOp) (now₂ : Int) : Prop :=
  (∀ k r r', t.get? k = some r → reapRequeues now₁ k r = true →
    (reapRequeue t now₁).1.get? k = some r' → ReapedRight r r') ∧
  (∀ k r r', (betweenReaps t now₁ between).get? k = some r → reapFails now₂ k r = true →
    (reapFail (betweenReaps t now₁ between) now₂).1.get? k = some r' → ReapedRight r r')

/-- Running with attempts left and no cancel request: a job the reaper must
re-queue once its lease ends. -/
def JobRow.mustRequeue (r : JobRow) : Prop :=
  r.status = .running ∧ r.attempt < r.maxAttempts ∧ r.cancelRequested = false

/-- No lease of a job that must be re-queued has ended before `now`. -/
def LeasesLast (t : JobTable) (now : Int) : Prop :=
  ∀ k r u, t.get? k = some r → r.mustRequeue → r.lockedUntil = some u → now ≤ u

/-- No such lease ends in `[now₁, now₂)`. -/
def NoLeaseEnds (t : JobTable) (now₁ now₂ : Int) : Prop :=
  ∀ k r u, t.get? k = some r → r.mustRequeue → r.lockedUntil = some u → now₁ ≤ u → now₂ ≤ u

theorem expired_iff {r : JobRow} {now : Int} :
    r.expired now = true ↔ r.status = .running ∧ ∃ u, r.lockedUntil = some u ∧ u < now := by
  unfold JobRow.expired
  cases r.lockedUntil <;> simp

theorem reapRequeues_iff {r : JobRow} {now : Int} {k : JobId} : reapRequeues now k r = true ↔
      r.mustRequeue ∧ ∃ u, r.lockedUntil = some u ∧ u < now := by
  simp only [reapRequeues, Bool.and_eq_true, expired_iff, decide_eq_true_eq, Bool.not_eq_true', JobRow.mustRequeue]
  tauto

theorem reapRequeueRow_right (now : Int) (r : JobRow) : ReapedRight r (reapRequeueRow now r) := by
  refine ⟨fun h => ?_, fun h => ?_, fun _ _ => rfl⟩
  · cases h
  · cases h

theorem reapFailRow_right (now : Int) (r : JobRow) (h : r.cancelRequested = false →
    r.maxAttempts ≤ r.attempt) : ReapedRight r (reapFailRow now r) := by
  cases hc : r.cancelRequested with
  | false =>
    have hs : (reapFailRow now r).status = .failed := by simp [reapFailRow, reapFailStatus, hc]
    refine ⟨fun _ => ⟨h hc, hc⟩, fun hs' => ?_, fun hs' => absurd hs hs'⟩
    rw [hs] at hs'
    cases hs'
  | true =>
    have hs : (reapFailRow now r).status = .cancelled := by simp [reapFailRow, reapFailStatus, hc]
    refine ⟨fun hs' => ?_, fun _ => hc, fun _ hs' => absurd hs hs'⟩
    rw [hs] at hs'
    cases hs'

theorem reapFail_right_iff (t : JobTable) (now : Int) : (∀ k r r', t.get? k = some r → reapFails now k r = true →
      (reapFail t now).1.get? k = some r' → ReapedRight r r') ↔ LeasesLast t now := by
  constructor
  · intro h k r u hr hm hu
    by_contra hlt
    have hf : reapFails now k r = true := expired_iff.2 ⟨hm.1, u, hu, by omega⟩
    have hr' : (reapFail t now).1.get? k = some (reapFailRow now r) := step_touch hr (.reapFail hf)
    have hs : (reapFailRow now r).status = .failed := by
      simp [reapFailRow, reapFailStatus, hm.2.2]
    have := ((h k r _ hr hf hr').1 hs).1
    have := hm.2.1
    omega
  · intro h k r r' hr hf hr'
    have hrow : (reapFail t now).1.get? k = some (reapFailRow now r) := step_touch hr (.reapFail hf)
    obtain rfl : reapFailRow now r = r' := Option.some.inj (hrow.symm.trans hr')
    obtain ⟨hrun, u, hu, hlt⟩ := expired_iff.1 hf
    refine reapFailRow_right now r fun hc => ?_
    by_contra hatt
    have := h k r u hr ⟨hrun, by omega, hc⟩ hu
    omega

theorem leasesLast_reapRequeue_iff (t : JobTable) (now₁ now₂ : Int) :
    LeasesLast (reapRequeue t now₁).1 now₂ ↔ NoLeaseEnds t now₁ now₂ := by
  constructor
  · intro h k r u hr hm hu hle
    refine h k r u ?_ hm hu
    have hn : reapRequeues now₁ k r ≠ true := by
      intro hq
      obtain ⟨-, u', hu', hlt⟩ := reapRequeues_iff.1 hq
      rw [hu] at hu'
      cases hu'
      omega
    simp only [reapRequeue]
    rw [get?_update_some hr, if_neg hn]
  · intro h k r' u hr' hm hu
    obtain ⟨r, hr, rfl | ⟨hq, rfl⟩⟩ := update_cases hr'
    · refine h k r' u hr hm hu ?_
      by_contra hlt
      have hq : reapRequeues now₁ k r' = true := reapRequeues_iff.2 ⟨hm, u, hu, by omega⟩
      have hrow := get?_update_some hr (reapRequeues now₁) (fun _ r => reapRequeueRow now₁ r)
      rw [if_pos hq] at hrow
      have he : reapRequeueRow now₁ r' = r' := Option.some.inj (hrow.symm.trans hr')
      rw [← he] at hm
      cases hm.1
    · cases hm.1

theorem reapRight_iff_leasesLast (t : JobTable) (now₁ now₂ : Int) (between : List QueueOp) :
    ReapRight t now₁ between now₂ ↔ LeasesLast (betweenReaps t now₁ between) now₂ := by
  rw [← reapFail_right_iff]
  refine ⟨fun h => h.2, fun h => ⟨fun k r r' hr hq hr' => ?_, h⟩⟩
  have hrow : (reapRequeue t now₁).1.get? k = some (reapRequeueRow now₁ r) :=
    step_touch hr (.reapRequeue hq)
  obtain rfl : reapRequeueRow now₁ r = r' := Option.some.inj (hrow.symm.trans hr')
  exact reapRequeueRow_right now₁ r

/-- **The exact condition.**  With any operations between its two statements,
`reap` does the right thing exactly if the second finds no ended lease of a job
with attempts left; undisturbed, exactly if no such lease ends between the two
times. -/
theorem reapRight_iff (t : JobTable) (now₁ now₂ : Int) (between : List QueueOp) :
    (ReapRight t now₁ between now₂ ↔ LeasesLast (betweenReaps t now₁ between) now₂) ∧
    (ReapRight t now₁ [] now₂ ↔ NoLeaseEnds t now₁ now₂) :=
  ⟨reapRight_iff_leasesLast t now₁ now₂ between,
    (reapRight_iff_leasesLast t now₁ now₂ []).trans (leasesLast_reapRequeue_iff t now₁ now₂)⟩

def claimedOnce : JobTable :=
  run step Table.empty
    [.enqueue 0 7 "s1_rewrite" [] none 3 none none none,
     .claim 0 "w" [("s1_rewrite", 1)] 90 []]

/-- The lease ends just after the first statement: the second fails the job on
its first attempt of three. -/
theorem lapsed_job_failed : ¬ ∀ t now₁ between now₂, now₁ ≤ now₂ → ReapRight t now₁ between now₂ := by
  intro h
  have hlast := (reapRight_iff_leasesLast claimedOnce 89999999 90000001 []).1
    (h claimedOnce 89999999 [] 90000001 (by omega))
  have hcond := (leasesLast_reapRequeue_iff claimedOnce 89999999 90000001).1 hlast
  have hrow : (claimedOnce.get? 7).any (fun r => r.status == .running && r.attempt == 1 &&
      r.maxAttempts == 3 && !r.cancelRequested && r.lockedUntil == some 90000000) = true := by
    decide +kernel
  cases hr : claimedOnce.get? 7 with
  | none => simp [hr] at hrow
  | some r =>
    simp only [hr, Option.any_some, Bool.and_eq_true, beq_iff_eq, Bool.not_eq_true'] at hrow
    obtain ⟨⟨⟨⟨h1, h2⟩, h3⟩, h4⟩, h5⟩ := hrow
    have := hcond 7 r 90000000 hr ⟨h1, by omega, h4⟩ h5 (by omega)
    omega

end CisApp.Jobs
