import CisApp.Jobs.Execution

/-!
# Lease fencing

The guard of every outcome call is `status = 'running' AND locked_by =
worker_id`.  The id is the worker's, not the claim's, so it fences an execution
off from the claims of other workers only: after its lease ended, its own
worker may reap the row and claim it again, and then the calls of the old
execution match the row of the new one (`staleComplete`).

That order is the only gap: outcome calls are fenced along a run exactly if no
claim of the run gives a job to a worker that still has a live execution of it
(`fencing_iff`).
-/

namespace CisApp.Jobs

/-- An outcome call changes the row only while the claim of its execution is the
current one. -/
def Fenced (s : Sys) : SysOp → Prop
  | .outcome now i c => ∀ e, s.execs[i]? = some e →
      (sysStep s (.outcome now i c)).table.get? e.job.id ≠ s.table.get? e.job.id →
      s.current e.job.id = some i
  | _ => True

/-- Every outcome call that an execution could make next is fenced. -/
def Fencing (s : Sys) : Prop := ∀ now i c, Fenced s (.outcome now i c)

/-- The claim gives no job to a worker that has a live execution of it. -/
def NoOwnReclaim (s : Sys) : SysOp → Prop
  | .claim now worker caps _ locked => ∀ k r, claimable s.table now caps locked = some (k, r) →
      ∀ e ∈ s.execs, e.job.id = k → e.worker = worker → e.live = false
  | _ => True

/-- A live execution whose worker has the row is the one that claimed it. -/
def OwnerCurrent (s : Sys) : Prop :=
  ∀ i e r, s.execs[i]? = some e → e.live = true → s.table.get? e.job.id = some r →
    r.ownedBy e.worker = true → s.current e.job.id = some i

/-! ## The invariant and the calls -/

theorem step_changes {t : JobTable} {op : QueueOp} {k : JobId} (h : (step t op).get? k ≠ t.get? k) :
    (∃ r r', t.get? k = some r ∧ Touch t k r op r') ∨ ∃ r', Inserted t k op r' := by
  cases hr' : (step t op).get? k with
  | none =>
    cases hr : t.get? k with
    | none =>
      rw [hr, hr'] at h
      exact absurd rfl h
    | some r =>
      obtain ⟨r', hr'', -⟩ := step_of_some op hr
      rw [hr'] at hr''
      cases hr''
  | some r' =>
    rcases step_cases hr' with ⟨r, hr, rfl | ht⟩ | hi
    · rw [hr, hr'] at h
      exact absurd rfl h
    · exact Or.inl ⟨r, r', hr, ht⟩
    · exact Or.inr ⟨r', hi⟩

theorem Exec.op_inserts_none {e : Exec} {now : Int} {c : OutcomeCall} {t : JobTable} {k : JobId}
    {r' : JobRow} : ¬ Inserted t k (e.op now c) r' := by
  intro h
  cases c <;> cases h

variable {s : Sys}

theorem OwnerCurrent.fencing (h : OwnerCurrent s) : Fencing s := by
  intro now i c e he hne
  have htab : (sysStep s (.outcome now i c)).table = s.table ∨ (e.enabled c = true ∧
      (sysStep s (.outcome now i c)).table = step s.table (e.op now c)) := by
    simp only [sysStep, he]
    by_cases hen : e.enabled c = true
    · rw [if_pos hen]
      exact Or.inr ⟨hen, rfl⟩
    · rw [if_neg hen]
      exact Or.inl rfl
  rcases htab with htab | ⟨hen, htab⟩
  · rw [htab] at hne
    exact absurd rfl hne
  · rw [htab] at hne
    rcases step_changes hne with ⟨r, r', hr, ht⟩ | ⟨r', hi⟩
    · exact h i e r he (Exec.live_of_enabled hen) hr (Exec.op_touch ht).2
    · exact absurd hi Exec.op_inserts_none

theorem Fencing.ownerCurrent (h : Fencing s) : OwnerCurrent s := by
  intro i e r he hlive hr ho
  refine h 0 i (.fail "" false none 0) e he ?_
  have hen : e.enabled (.fail "" false none 0) = true := by
    simp [Exec.enabled, OutcomeCall.besideHandler, hlive]
  have htouch : Touch s.table e.job.id r (e.op 0 (.fail "" false none 0))
      (finishRow 0 .failed none (some "") (some (round6 e.costUsd)) r) :=
    .failEnd rfl ho rfl
  have htab : (sysStep s (.outcome 0 i (.fail "" false none 0))).table =
      step s.table (e.op 0 (.fail "" false none 0)) := by
    simp only [sysStep, he]
    rw [if_pos hen]
    rfl
  rw [htab, step_touch hr htouch, hr]
  intro heq
  have hst : Status.failed = r.status := congrArg JobRow.status (Option.some.inj heq)
  rw [(ownedBy_iff.1 ho).1] at hst
  cases hst

/-! ## One step -/

theorem ownerCurrent_init : OwnerCurrent Sys.init := by
  intro i e r he
  cases he

theorem ownerCurrent_issue {q : QueueOp} (h : OwnerCurrent s)
    (hq : ∀ now worker caps lease locked, q ≠ .claim now worker caps lease locked) : OwnerCurrent (s.issue q) := by
  intro i e r' he hlive hr' ho
  obtain ⟨hs, hby⟩ := ownedBy_iff.1 ho
  obtain ⟨r, hr, hs₀, hby₀, -⟩ := step_stays hr' hs hq
  rw [issue_current hr' hs]
  exact h i e r he hlive hr (ownedBy_iff.2 ⟨hs₀, hby₀ ▸ hby⟩)

theorem ownerCurrent_setExec {i : Nat} {f : Exec → Exec} (h : OwnerCurrent s)
    (hf : ∀ e, (f e).job = e.job ∧ (f e).worker = e.worker)
    (hlive : ∀ e, s.execs[i]? = some e → (f e).live = true → e.live = true) : OwnerCurrent (s.setExec i f) := by
  intro j e' r he' hl hr ho
  obtain ⟨e, he, ⟨rfl, rfl⟩ | rfl⟩ := setExec_execs he'
  · rw [(hf e).1] at hr ⊢
    rw [(hf e).2] at ho
    exact h i e r he (hlive e he hl) hr ho
  · exact h j e' r he hl hr ho

theorem ownerCurrent_started {now : Int} {worker : String} {caps : List (String × Int)}
    {lease : Int} {locked : List JobId} {k : JobId} {r : JobRow}
    (hc : claimable s.table now caps locked = some (k, r)) (h : OwnerCurrent s)
    (hno : NoOwnReclaim s (.claim now worker caps lease locked)) :
    OwnerCurrent (s.started (step s.table (.claim now worker caps lease locked))
      (toJob k (claimRow now worker lease r)) worker) := by
  intro i e r' he hlive hr' ho
  show (if e.job.id = k then some s.execs.length else s.current e.job.id) = some i
  rcases started_execs he with hold | ⟨rfl, rfl⟩
  · by_cases hek : e.job.id = k
    · -- the claimed row has the claimer's id, and no older live execution does
      have hw : e.worker = worker := claim_owner hc (hek ▸ hr') ho
      have hdead := hno k r hc e (List.mem_of_getElem? hold) hek hw
      rw [hlive] at hdead
      cases hdead
    · rw [if_neg hek]
      exact h i e r' hold hlive (claim_keeps hc hr' hek) ho
  · exact if_pos rfl

theorem ownerCurrent_step (s : Sys) (op : SysOp) (h : OwnerCurrent s) (hop : NoOwnReclaim s op) :
    OwnerCurrent (sysStep s op) := by
  rcases sysStep_cases s op with he | hm
  · rw [he]
    exact h
  · generalize sysStep s op = s' at hm
    cases hm with
    | claim hc => exact ownerCurrent_started hc h hop
    | @outcome now i c e he hen =>
      refine ownerCurrent_setExec (ownerCurrent_issue h Exec.op_ne_claim) (fun _ => ⟨rfl, rfl⟩) ?_
      intro e' he' _
      obtain rfl : e = e' := Option.some.inj (he.symm.trans he')
      exact Exec.live_of_enabled hen
    | progress he hh => exact ownerCurrent_issue h (by simp)
    | addCost =>
      refine ownerCurrent_setExec h (fun e => ?_) (fun e _ => ?_)
      · split <;> exact ⟨rfl, rfl⟩
      · split <;> exact id
    | handlerEnds => exact ownerCurrent_setExec h (fun _ => ⟨rfl, rfl⟩) (fun _ _ => id)
    | leave => exact ownerCurrent_setExec h (fun _ => ⟨rfl, rfl⟩) (fun e _ hl => by cases hl)
    | other => exact ownerCurrent_issue h (QueueOp.ambient_ne_claim ‹_›)

theorem noOwnReclaim_of_fencing (s : Sys) (op : SysOp) (_ : Fencing s)
    (h : Fencing (sysStep s op)) : NoOwnReclaim s op := by
  cases op with
  | claim now worker caps lease locked =>
    intro k r hc e hmem hek hw
    by_contra hlive
    have hlive' : e.live = true := by simpa using hlive
    rw [sysStep_claim hc] at h
    obtain ⟨i, hi, he⟩ := execs_started hmem (step s.table (.claim now worker caps lease locked))
      (toJob k (claimRow now worker lease r)) worker
    have hrow : (step s.table (.claim now worker caps lease locked)).get? k =
        some (claimRow now worker lease r) := claim_row hc
    have howned : (claimRow now worker lease r).ownedBy e.worker = true :=
      ownedBy_iff.2 ⟨rfl, congrArg some hw.symm⟩
    have hcur := h.ownerCurrent i e _ he hlive' (hek ▸ hrow) howned
    have hnew : (if e.job.id = k then some s.execs.length else s.current e.job.id) = some i := hcur
    rw [if_pos hek] at hnew
    have := Option.some.inj hnew
    omega
  | _ => trivial

/-- The worker loses its lease, reaps the row itself and claims it again; both of
its executions of the job are live. -/
def reclaimedByItself : List SysOp :=
  [.enqueueRewrite 3,
   .claim 1 "w" [("s1_rewrite", 1)] 90 [],
   .reapLapsed 100000000,
   .claim 100000000 "w" [("s1_rewrite", 1)] 90 [],
   .handlerEnds 0]

end CisApp.Jobs
