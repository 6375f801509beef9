import CisApp.Jobs.Fencing

/-!
# Attempt accounting

`claim` counts an attempt without looking at the bound, `release` takes one
back, a retry starts again at 0.  `runs k` is a history variable: the handler
runs of job `k` since it was enqueued or last retried, released runs not
counted; it is the row's `attempt` in every state (`RunsCounted`).

The bound rests on the re-queuing statements.  The reaper tests the row; `fail`
tests the snapshot its execution got at claim time, which is older than the row
when the worker has claimed its own lapsed job again.  So the accounting holds
along a run exactly if no `fail` re-queues a row without attempts left
(`attemptOk_iff`), and it does wherever outcome calls are fenced.
-/

namespace CisApp.Jobs

structure Counted where
  sys : Sys
  runs : JobId → Int

def Counted.init : Counted := ⟨Sys.init, fun _ => 0⟩

/-- The runs after one statement: a claim counts, a release takes it back, a retry
starts again. -/
def runsAfter (t : JobTable) (runs : JobId → Int) : QueueOp → JobId → Int
  | .claim now _ caps _ locked, k =>
    if (claimable t now caps locked).any (fun x => x.1 == k) then runs k + 1 else runs k
  | .release now job worker cost counted delay, k =>
    if k = job ∧ (release t now job worker cost counted delay).2.join.isSome = true then runs k - 1
    else runs k
  | .retry now job, k => if k = job ∧ (retry t now job).2 = true then 0 else runs k
  | .retryOne now job delay stopped, k =>
    if k = job ∧ (retryOne t now job delay stopped).2 = true then 0 else runs k
  | _, k => runs k

def countStep (c : Counted) (op : SysOp) : Counted where
  sys := sysStep c.sys op
  runs := ((op.issues c.sys).map (runsAfter c.sys.table c.runs)).getD c.runs

/-- The accounting of one row. -/
structure RowOk (r : JobRow) : Prop where
  nonneg : 0 ≤ r.attempt
  le_max : r.attempt ≤ r.maxAttempts
  queued_lt : r.status = .queued → r.attempt < r.maxAttempts

/-- The accounting of every row, and no job ran more often than it may. -/
def AttemptOk (c : Counted) : Prop :=
  c.sys.table.All fun k r => RowOk r ∧ c.runs k ≤ r.maxAttempts

/-- The statement is no `fail` that re-queues a row without attempts left. -/
def RequeuesInBudget (t : JobTable) : QueueOp → Prop
  | .fail _ job worker _ retryable _ _ _ =>
    job.retries retryable = true → ∀ r, t.get? job.id = some r → r.ownedBy worker = true →
      r.attempt < r.maxAttempts
  | _ => True

/-- The same of the statement a step of the system issues. -/
def FailsInBudget (c : Counted) (op : SysOp) : Prop :=
  ∀ q, op.issues c.sys = some q → RequeuesInBudget c.sys.table q

/-! ## The history variable is the column -/

structure RunsCounted (t : JobTable) (runs : JobId → Int) : Prop where
  eq : ∀ k r, t.get? k = some r → runs k = r.attempt
  pos : ∀ k r, t.get? k = some r → r.status = .running → 1 ≤ r.attempt
  absent : ∀ k, t.get? k = none → runs k = 0

variable {t : JobTable} {op : QueueOp} {k : JobId} {r : JobRow}

variable {runs : JobId → Int}

theorem runsAfter_of_touch {r' : JobRow} (h : Touch t k r op r') (hr : t.get? k = some r)
    (hruns : runs k = r.attempt) (hpos : r.status = .running → 1 ≤ r.attempt) : runsAfter t runs op k = r'.attempt := by
  cases h with
  | claim hc =>
    simp only [runsAfter, hc, Option.any_some, beq_self_eq_true, if_true]
    show runs k + 1 = r.attempt + 1
    omega
  | @release now worker cost counted delay releases shutdown ho hc =>
    simp only [runsAfter]
    rw [if_pos ⟨trivial, release_answered_iff.2 ⟨r, _, hr, ho, hc⟩⟩]
    show runs k - 1 = max (r.attempt - 1) 0
    have := hpos (ownedBy_iff.1 ho).1
    omega
  | retry h =>
    simp only [runsAfter]
    rw [if_pos ⟨trivial, retry_answered_iff.2 ⟨r, hr, h⟩⟩]
    rfl
  | retryOne h =>
    simp only [runsAfter]
    rw [if_pos ⟨trivial, retryOne_answered_iff.2 ⟨r, hr, h⟩⟩]
    rfl
  | _ => exact hruns

theorem runsAfter_of_not_touched
    (h : ∀ r r', t.get? k = some r → ¬ Touch t k r op r') : runsAfter t runs op k = runs k := by
  cases op with
  | claim now worker caps lease locked =>
    refine if_neg fun hany => ?_
    cases hc : claimable t now caps locked with
    | none => simp [hc] at hany
    | some x =>
      obtain ⟨k', r⟩ := x
      obtain rfl : k' = k := by simpa [hc] using hany
      exact h r (claimRow now worker lease r) (claimable_spec hc).1 (.claim hc)
  | release now job worker cost counted delay =>
    refine if_neg ?_
    rintro ⟨rfl, hans⟩
    obtain ⟨r, x, hr, ho, hc⟩ := release_answered_iff.1 hans
    exact h r _ hr (.release ho hc)
  | retry now job =>
    refine if_neg ?_
    rintro ⟨rfl, hans⟩
    obtain ⟨r, hr, hret⟩ := retry_answered_iff.1 hans
    exact h r _ hr (.retry hret)
  | retryOne now job delay stopped =>
    refine if_neg ?_
    rintro ⟨rfl, hans⟩
    obtain ⟨r, hr, hret⟩ := retryOne_answered_iff.1 hans
    exact h r _ hr (.retryOne hret)
  | _ => rfl

theorem Touch.running_pos {r' : JobRow}
    (h : Touch t k r op r') (hs : r'.status = .running) (hpos : r.status = .running → 1 ≤ r.attempt) : 1 ≤ r'.attempt := by
  by_cases hop : ∃ now worker caps lease locked, op = .claim now worker caps lease locked
  · obtain ⟨now, worker, caps, lease, locked, rfl⟩ := hop
    cases h with
    | claim hc =>
      show 1 ≤ r.attempt + 1
      have := r.attemptsChk.1
      omega
  · obtain ⟨hs₀, -, ha⟩ := h.stays hs fun now worker caps lease locked he =>
      hop ⟨now, worker, caps, lease, locked, he⟩
    rw [ha]
    exact hpos hs₀

theorem runsCounted_step (op : QueueOp) (h : RunsCounted t runs) : RunsCounted (step t op) (runsAfter t runs op) := by
  -- a row of after is one of before, touched or not, or a new one, which no run counts yet
  have hrow : ∀ k r', (step t op).get? k = some r' → runsAfter t runs op k = r'.attempt ∧
      (r'.status = .running → 1 ≤ r'.attempt) := by
    intro k r' hr'
    rcases step_split hr' with ⟨r, hr, ht⟩ | ⟨hr, hnone⟩ | hi
    · exact ⟨runsAfter_of_touch ht hr (h.eq k r hr) (h.pos k r hr), fun hs => ht.running_pos hs (h.pos k r hr)⟩
    · rw [runsAfter_of_not_touched hnone]
      exact ⟨h.eq k r' hr, h.pos k r' hr⟩
    · cases hi with
      | enqueue hmax hkind hkey hfree =>
        refine ⟨h.absent k hfree, fun hs => ?_⟩
        cases hs
  refine ⟨fun k r' hr' => (hrow k r' hr').1, fun k r' hr' => (hrow k r' hr').2, fun k hk => ?_⟩
  have hk₀ : t.get? k = none := by
    cases hr : t.get? k with
    | none => rfl
    | some r =>
      obtain ⟨r', hr', -⟩ := step_of_some op hr
      rw [hk] at hr'
      cases hr'
  rw [runsAfter_of_not_touched (fun r r' hr => by rw [hk₀] at hr; cases hr)]
  exact h.absent k hk₀

/-! ## One step -/

theorem Touch.rowOk {r' : JobRow} (h : Touch t k r op r') (hr : t.get? k = some r) (hok : RowOk r)
    (hop : RequeuesInBudget t op) : RowOk r' := by
  have hle := hok.le_max
  have hmax := r.attemptsChk.2
  -- most touches keep the attempt and leave a row that is not queued
  have ended : ∀ {r' : JobRow}, r'.attempt = r.attempt → r'.maxAttempts = r.maxAttempts →
      (r'.status = .queued → r.status = .queued) → RowOk r' := by
    intro r' ha hm hq
    refine ⟨by rw [ha]; exact hok.nonneg, by omega, fun hs => ?_⟩
    have := hok.queued_lt (hq hs)
    omega
  cases h with
  | claim hc =>
    have hlt := hok.queued_lt (eligible_iff.1 (claimable_spec hc).2.1).1
    refine ⟨(claimRow _ _ _ r).attemptsChk.1, ?_, nofun⟩
    show r.attempt + 1 ≤ r.maxAttempts
    omega
  | heartbeat h => exact ended rfl rfl id
  | setProgress => exact ended rfl rfl id
  | complete h => exact ended rfl rfl (fun hs => by cases hs)
  | stopBudget h => exact ended rfl rfl (fun hs => by cases hs)
  | markCancelled h => exact ended rfl rfl (fun hs => by cases hs)
  | failRequeue hid h hret =>
    have hlt := hop hret r (hid ▸ hr) h
    exact ⟨hok.nonneg, hok.le_max, fun _ => hlt⟩
  | failEnd hid h hret => exact ended rfl rfl (fun hs => by cases hs)
  | release h hc =>
    refine ⟨le_max_right _ _, ?_, fun _ => ?_⟩
    · show max (r.attempt - 1) 0 ≤ r.maxAttempts
      omega
    · show max (r.attempt - 1) 0 < r.maxAttempts
      omega
  | reapRequeue h =>
    simp only [reapRequeues, Bool.and_eq_true, decide_eq_true_eq] at h
    exact ⟨hok.nonneg, hok.le_max, fun _ => h.1.2⟩
  | reapFail h =>
    refine ended rfl rfl fun hs => ?_
    have hs' : reapFailStatus r.cancelRequested = .queued := hs
    cases hc : r.cancelRequested <;> simp [reapFailStatus, hc] at hs'
  | requestCancel h =>
    refine ended rfl rfl fun hs => ?_
    have hs' : (if r.status.cancelsAtOnce then Status.cancelled else r.status) = .queued := hs
    split at hs'
    · cases hs'
    · exact hs'
  | retired h => exact ended rfl rfl (fun hs => by cases hs)
  | retry h => exact ⟨le_refl _, by show (0 : Int) ≤ r.maxAttempts; omega, fun _ => hmax⟩
  | retryOne h => exact ⟨le_refl _, by show (0 : Int) ≤ r.maxAttempts; omega, fun _ => hmax⟩

theorem rowOk_step (op : QueueOp) (h : t.All fun _ r => RowOk r)
    (hop : RequeuesInBudget t op) : (step t op).All fun _ r => RowOk r := by
  refine All.step h (fun k r' hi => ?_) (fun k r r' hr hok ht => ht.rowOk hr hok hop)
  cases hi with
  | enqueue hmax hkind hkey hfree =>
    exact ⟨le_refl _, zero_le_one.trans hmax, fun _ => hmax⟩

theorem requeuesInBudget_of_rowOk {q : QueueOp} (h : (step t q).All fun _ r => RowOk r) : RequeuesInBudget t q := by
  cases q with
  | fail now job worker error retryable cost result rand =>
    intro hret r hr ho
    have ht : Touch t job.id r (.fail now job worker error retryable cost result rand)
        (requeueRow now error (backoffSeconds job.attempt rand) cost r) := .failRequeue rfl ho hret
    exact (h job.id _ (step_touch hr ht)).queued_lt rfl
  | _ => trivial

/-- The invariant of a counted run. -/
structure CountedInv (c : Counted) : Prop where
  rows : c.sys.table.All fun _ r => RowOk r
  counted : RunsCounted c.sys.table c.runs

theorem CountedInv.attemptOk {c : Counted} (h : CountedInv c) : AttemptOk c := by
  intro k r hr
  have hok := h.rows k r hr
  refine ⟨hok, ?_⟩
  rw [h.counted.eq k r hr]
  exact hok.le_max

variable (c : Counted)

theorem runsCounted_countStep (op : SysOp) (h : RunsCounted c.sys.table c.runs) :
    RunsCounted (countStep c op).sys.table (countStep c op).runs := by
  have htab := sysStep_table c.sys op
  show RunsCounted (sysStep c.sys op).table
    (((op.issues c.sys).map (runsAfter c.sys.table c.runs)).getD c.runs)
  rw [htab]
  cases hq : op.issues c.sys with
  | none => exact h
  | some q => exact runsCounted_step q h

theorem countedInv_step (op : SysOp) (h : CountedInv c) (hop : FailsInBudget c op) : CountedInv (countStep c op) := by
  refine ⟨?_, runsCounted_countStep c op h.counted⟩
  show (sysStep c.sys op).table.All fun _ r => RowOk r
  rw [sysStep_table]
  cases hq : op.issues c.sys with
  | none => exact h.rows
  | some q => exact rowOk_step q h.rows (hop q hq)

theorem failsInBudget_of_attemptOk (op : SysOp) (_ : AttemptOk c)
    (h : AttemptOk (countStep c op)) : FailsInBudget c op := by
  intro q hq
  refine requeuesInBudget_of_rowOk fun k r hr => ?_
  have htab : (sysStep c.sys op).table = step c.sys.table q := by
    rw [sysStep_table, hq]
    rfl
  exact (h k r (by show (sysStep c.sys op).table.get? k = _; rw [htab]; exact hr)).1

theorem countedInv_init : CountedInv Counted.init where
  rows := Table.All.empty
  counted := ⟨fun _ _ h => (by cases h), fun _ _ h => (by cases h), fun _ _ => rfl⟩

/-! ## Fenced executions have fresh snapshots -/

/-- An execution's snapshot has the row's bound, and while its claim is the current
one also the row's attempt. -/
structure Snapshots (s : Sys) : Prop where
  bound : ∀ (i : Nat) (e : Exec), s.execs[i]? = some e →
    ∃ r, s.table.get? e.job.id = some r ∧ e.job.maxAttempts = r.maxAttempts
  fresh : ∀ (i : Nat) (e : Exec) (r : JobRow), s.execs[i]? = some e →
    s.table.get? e.job.id = some r → r.status = .running → s.current e.job.id = some i →
    e.job.attempt = r.attempt

theorem snapshots_init : Snapshots Sys.init where
  bound := fun _ _ h => (by cases h)
  fresh := fun _ _ _ h => (by cases h)

theorem snapshots_issue {s : Sys} {q : QueueOp} (h : Snapshots s)
    (hq : ∀ now worker caps lease locked, q ≠ .claim now worker caps lease locked) : Snapshots (s.issue q) := by
  constructor
  · intro i e he
    obtain ⟨r, hr, hm⟩ := h.bound i e he
    obtain ⟨r', hr', hcase⟩ := step_of_some q hr
    refine ⟨r', hr', ?_⟩
    rcases hcase with rfl | ht
    · exact hm
    · rw [ht.maxAttempts_eq]
      exact hm
  · intro i e r' he hr' hs hcur
    rw [issue_current hr' hs] at hcur
    obtain ⟨r, hr, hs₀, -, ha⟩ := step_stays hr' hs hq
    rw [ha]
    exact h.fresh i e r he hr hs₀ hcur

theorem snapshots_setExec {s : Sys} {i : Nat} {f : Exec → Exec} (h : Snapshots s)
    (hf : ∀ e, (f e).job = e.job) : Snapshots (s.setExec i f) := by
  constructor
  · intro j e' he'
    obtain ⟨e, he, ⟨rfl, rfl⟩ | rfl⟩ := setExec_execs he'
    · rw [hf e]
      exact h.bound i e he
    · exact h.bound j e' he
  · intro j e' r he' hr hs hcur
    obtain ⟨e, he, ⟨rfl, rfl⟩ | rfl⟩ := setExec_execs he'
    · rw [hf e] at hr hcur ⊢
      exact h.fresh i e r he hr hs hcur
    · exact h.fresh j e' r he hr hs hcur

theorem snapshots_started {s : Sys} {now : Int} {worker : String} {caps : List (String × Int)}
    {lease : Int} {locked : List JobId} (hc : claimable s.table now caps locked = some (k, r)) (h : Snapshots s) :
    Snapshots (s.started (step s.table (.claim now worker caps lease locked))
      (toJob k (claimRow now worker lease r)) worker) := by
  have hrow : (step s.table (.claim now worker caps lease locked)).get? k =
      some (claimRow now worker lease r) := claim_row hc
  constructor
  · intro i e he
    rcases started_execs he with hold | ⟨rfl, rfl⟩
    · obtain ⟨r₀, hr₀, hm⟩ := h.bound i e hold
      obtain ⟨r', hr', hcase⟩ := step_of_some (.claim now worker caps lease locked) hr₀
      refine ⟨r', hr', ?_⟩
      rcases hcase with rfl | ht
      · exact hm
      · rw [ht.maxAttempts_eq]
        exact hm
    · exact ⟨_, hrow, rfl⟩
  · intro i e r' he hr' hs hcur
    have hcur' : (if e.job.id = k then some s.execs.length else s.current e.job.id) = some i := hcur
    rcases started_execs he with hold | ⟨rfl, rfl⟩
    · have hi : i < s.execs.length := (List.getElem?_eq_some_iff.1 hold).1
      by_cases hek : e.job.id = k
      · rw [if_pos hek] at hcur'
        have := Option.some.inj hcur'
        omega
      · rw [if_neg hek] at hcur'
        exact h.fresh i e r' hold (claim_keeps hc hr' hek) hs hcur'
    · have hr'' : (step s.table (.claim now worker caps lease locked)).get? k = some r' := hr'
      rw [hrow] at hr''
      cases hr''
      rfl

theorem snapshots_step (s : Sys) (op : SysOp) (h : Snapshots s) : Snapshots (sysStep s op) := by
  rcases sysStep_cases s op with he | hm
  · rw [he]
    exact h
  · generalize sysStep s op = s' at hm
    cases hm with
    | claim hc => exact snapshots_started hc h
    | outcome he hen => exact snapshots_setExec (snapshots_issue h Exec.op_ne_claim) (fun _ => rfl)
    | progress he hh => exact snapshots_issue h (by simp)
    | addCost =>
      refine snapshots_setExec h fun e => ?_
      split <;> rfl
    | handlerEnds => exact snapshots_setExec h (fun _ => rfl)
    | leave => exact snapshots_setExec h (fun _ => rfl)
    | other => exact snapshots_issue h (QueueOp.ambient_ne_claim ‹_›)

theorem failsInBudget_of_current (op : SysOp) (hown : OwnerCurrent c.sys)
    (hsnap : Snapshots c.sys) : FailsInBudget c op := by
  have hfail : ∀ (i : Nat) (e : Exec) (retryable : Bool) (r : JobRow), c.sys.execs[i]? = some e →
      e.live = true → e.job.retries retryable = true → c.sys.table.get? e.job.id = some r →
      r.ownedBy e.worker = true → r.attempt < r.maxAttempts := by
    intro i e retryable r he hlive hret hr ho
    have hcur := hown i e r he hlive hr ho
    have hatt := hsnap.fresh i e r he hr (ownedBy_iff.1 ho).1 hcur
    obtain ⟨r₁, hr₁, hmax⟩ := hsnap.bound i e he
    obtain rfl : r₁ = r := Option.some.inj (hr₁.symm.trans hr)
    simp only [Job.retries, Bool.and_eq_true, decide_eq_true_eq] at hret
    omega
  intro q hq
  cases op with
  | outcome now i call =>
    obtain ⟨e, he, hen, rfl⟩ := issues_outcome hq
    have hlive := Exec.live_of_enabled hen
    cases call with
    | fail error retryable result rand =>
      exact fun hret r hr ho => hfail i e retryable r he hlive hret hr ho
    | noHandler => exact fun hret r hr ho => hfail i e false r he hlive hret hr ho
    | _ => trivial
  | progress now i fields =>
    obtain ⟨e, -, -, rfl⟩ := issues_progress hq
    trivial
  | claim now worker caps lease locked =>
    cases hq
    trivial
  | other q' hamb =>
    cases hq
    cases q with
    | fail => cases hamb
    | _ => trivial
  | addCost i usd => cases hq
  | handlerEnds i => cases hq
  | leave i => cases hq

/-- A job of two attempts.  The worker claims its own lapsed job again, and the
first execution, whose snapshot says attempt 1, re-queues the row at attempt 2. -/
def staleFail : List SysOp :=
  [.enqueueRewrite 2,
   .claim 1 "w" [("s1_rewrite", 1)] 90 [],
   .reapLapsed 100000000,
   .claim 100000000 "w" [("s1_rewrite", 1)] 90 [],
   .outcome 100000001 0 (.fail "boom" true none 0),
   .claim 200000000 "w" [("s1_rewrite", 1)] 90 []]

end CisApp.Jobs
