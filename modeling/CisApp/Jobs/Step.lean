import CisApp.Jobs.Queue

/-!
# One step of the queue

`QueueOp` labels one statement of `queue.py` with its arguments and the time it
runs at; `step` applies it.  Workers, reapers and admins interleave freely, so
a run of the queue is a list of labels.

`Touch t k r op r'` says that `op` rewrites the row `k` from `r` to `r'`, with
the guard that let it.  It says all a step can do to an existing row:
`step_touch` (a touched row is what the step leaves) and `step_cases` (a row
after a step was touched, kept or inserted).  Every invariant below is a case
analysis over `Touch`.
-/

namespace CisApp.Jobs

inductive QueueOp where
  | enqueue (now : Int) (id : JobId) (kind : String) (payload : JObj)
      (idempotencyKey : Option String) (maxAttempts : Int) (parentJobId : Option JobId)
      (createdBy : Option String) (runAfter : Option Int)
  | claim (now : Int) (worker : String) (caps : List (String × Int)) (leaseSeconds : Int)
      (locked : List JobId)
  | heartbeat (now : Int) (job : JobId) (worker : String) (leaseSeconds : Int)
  | setProgress (now : Int) (job : JobId) (fields : JObj) (cost : Option ℚ)
  | complete (now : Int) (job : JobId) (worker : String) (result : Option Json) (cost : Option ℚ)
  | stopBudget (now : Int) (job : JobId) (worker : String) (error : String)
      (result : Option Json) (cost : Option ℚ)
  | markCancelled (now : Int) (job : JobId) (worker : String) (cost : Option ℚ)
  | fail (now : Int) (job : Job) (worker : String) (error : String) (retryable : Bool)
      (cost : Option ℚ) (result : Option Json) (rand : ℚ)
  | release (now : Int) (job : JobId) (worker : String) (cost : Option ℚ) (countRelease : Bool)
      (delaySeconds : Int)
  | reapRequeue (now : Int)
  | reapFail (now : Int)
  | requestCancel (now : Int) (job : JobId)
  | cancelRetiredKinds (now : Int) (retired : List (String × String))
  | retry (now : Int) (job : JobId)
  | retryOne (now : Int) (job : JobId) (delay : Int) (stopped : Bool)

/-- The table after one operation. -/
def step (t : JobTable) : QueueOp → JobTable
  | .enqueue now id kind payload key maxAttempts parent createdBy runAfter =>
    (enqueue t now id kind payload key maxAttempts parent createdBy runAfter).1
  | .claim now worker caps lease locked => (claim t now worker caps lease locked).1
  | .heartbeat now job worker lease => (heartbeat t now job worker lease).1
  | .setProgress now job fields cost => setProgress t now job fields cost
  | .complete now job worker result cost => (complete t now job worker result cost).1
  | .stopBudget now job worker error result cost =>
    (stopBudget t now job worker error result cost).1
  | .markCancelled now job worker cost => (markCancelled t now job worker cost).1
  | .fail now job worker error retryable cost result rand =>
    (fail t now job worker error retryable cost result rand).1
  | .release now job worker cost counted delay => (release t now job worker cost counted delay).1
  | .reapRequeue now => (reapRequeue t now).1
  | .reapFail now => (reapFail t now).1
  | .requestCancel now job => (requestCancel t now job).1
  | .cancelRetiredKinds now retired => (cancelRetiredKinds t now retired).1
  | .retry now job => (retry t now job).1
  | .retryOne now job delay stopped => (retryOne t now job delay stopped).1

/-- The operation rewrites row `k` from `r`. -/
inductive Touch (t : JobTable) (k : JobId) (r : JobRow) : QueueOp → JobRow → Prop
  | claim {now worker caps lease locked} (h : claimable t now caps locked = some (k, r)) :
      Touch t k r (.claim now worker caps lease locked) (claimRow now worker lease r)
  | heartbeat {now worker lease} (h : r.ownedBy worker = true) :
      Touch t k r (.heartbeat now k worker lease) (heartbeatRow now lease r)
  | setProgress {now fields cost} :
      Touch t k r (.setProgress now k fields cost) (setProgressRow now fields cost r)
  | complete {now worker result cost} (h : r.ownedBy worker = true) :
      Touch t k r (.complete now k worker result cost) (finishRow now .succeeded result none cost r)
  | stopBudget {now worker error result cost} (h : r.ownedBy worker = true) :
      Touch t k r (.stopBudget now k worker error result cost)
        (finishRow now .stoppedBudget result (some error) cost r)
  | markCancelled {now worker cost} (h : r.ownedBy worker = true) :
      Touch t k r (.markCancelled now k worker cost)
        (finishRow now .cancelled none (some "cancelled by admin") cost r)
  | failRequeue {now job worker error retryable cost result rand} (hid : k = job.id)
      (h : r.ownedBy worker = true) (hr : job.retries retryable = true) :
      Touch t k r (.fail now job worker error retryable cost result rand)
        (requeueRow now error (backoffSeconds job.attempt rand) cost r)
  | failEnd {now job worker error retryable cost result rand} (hid : k = job.id)
      (h : r.ownedBy worker = true) (hr : job.retries retryable = false) :
      Touch t k r (.fail now job worker error retryable cost result rand)
        (finishRow now .failed result (some error) cost r)
  | release {now worker cost counted delay releases shutdown} (h : r.ownedBy worker = true)
      (hc : releaseCounters counted r.progress = some (releases, shutdown)) :
      Touch t k r (.release now k worker cost counted delay)
        (releaseRow now worker cost counted (max delay 0) releases shutdown r)
  | reapRequeue {now} (h : reapRequeues now k r = true) :
      Touch t k r (.reapRequeue now) (reapRequeueRow now r)
  | reapFail {now} (h : reapFails now k r = true) :
      Touch t k r (.reapFail now) (reapFailRow now r)
  | requestCancel {now} (h : cancellable k k r = true) :
      Touch t k r (.requestCancel now k) (requestCancelRow now r)
  | retired {now retired} (h : retires retired k r = true) :
      Touch t k r (.cancelRetiredKinds now retired)
        (retiredRow now ((retired.lookup r.kind).getD "") r)
  | retry {now} (h : retriable k k r = true) : Touch t k r (.retry now k) (retryRow now 0 r)
  | retryOne {now delay stopped}
      (h : retriableOne k (if stopped then .stoppedBudget else .failed) k r = true) :
      Touch t k r (.retryOne now k delay stopped) (retryRow now delay r)

/-! ## The guarded updates -/

variable {t : JobTable} {k : JobId} {r : JobRow}

theorem get?_update_some (hr : t.get? k = some r) (p : JobId → JobRow → Bool) (f : JobId → JobRow → JobRow) :
    (t.update p f).get? k = some (if p k r then f k r else r) := by
  rw [Table.get?_update, hr]
  rfl

variable {job : JobId} {worker : String}

theorem guardOwned_iff : guardOwned job worker k r = true ↔ k = job ∧ r.ownedBy worker = true := by
  simp [guardOwned]

theorem ownedBy_iff : r.ownedBy worker = true ↔ r.status = .running ∧ r.lockedBy = some worker := by
  simp [JobRow.ownedBy]

theorem owns_iff : owns t job worker = true ↔ ∃ r, t.get? job = some r ∧ r.ownedBy worker = true := by
  unfold owns
  cases t.get? job <;> simp

variable {now : Int}

theorem expired_running (h : r.expired now = true) : r.status = .running := by
  simp only [JobRow.expired, Bool.and_eq_true, beq_iff_eq] at h
  exact h.1

variable {caps : List (String × Int)}

theorem eligible_iff : eligible t now caps k r = true ↔ r.status = .queued ∧ r.runAfter ≤ now ∧
      r.cancelRequested = false ∧ ∃ cap, caps.lookup r.kind = some cap ∧ (runningCount t r.kind : Int) < cap := by
  unfold eligible
  cases caps.lookup r.kind <;> simp [and_assoc]

theorem dueBefore_iff {a b : JobRow} : dueBefore a b = true ↔ a.runAfter < b.runAfter ∨
      (a.runAfter = b.runAfter ∧ a.createdAt ≤ b.createdAt) := by
  simp [dueBefore]

theorem claimable_spec {locked : List JobId} (h : claimable t now caps locked = some (k, r)) :
    t.get? k = some r ∧ eligible t now caps k r = true ∧ k ∉ locked ∧
      ∀ k' r', t.get? k' = some r' → eligible t now caps k' r' = true → k' ∉ locked → dueBefore r r' = true := by
  obtain ⟨hr, hp, hmin⟩ := Table.first?_spec t dueBefore _
    (fun a b => by simp only [dueBefore_iff]; omega)
    (fun a b c => by simp only [dueBefore_iff]; omega) k r h
  simp only [Bool.and_eq_true, Bool.not_eq_true', List.contains_eq_mem, decide_eq_false_iff_not]
    at hp hmin
  exact ⟨hr, hp.1, hp.2, fun k' r' h1 h2 h3 => hmin k' r' h1 ⟨h2, h3⟩⟩

/-! ## What a step does to a row -/

/-- The operation inserts the row `k`. -/
inductive Inserted (t : JobTable) (k : JobId) : QueueOp → JobRow → Prop
  | enqueue {now kind payload key maxAttempts parent createdBy runAfter}
      (hmax : 1 ≤ maxAttempts) (hkind : kindChk kind = true) (hkey : keyed t key = none)
      (hfree : t.get? k = none) :
      Inserted t k (.enqueue now k kind payload key maxAttempts parent createdBy runAfter)
        (newRow now kind payload key maxAttempts hmax parent createdBy runAfter)

variable {r' : JobRow}

theorem update_cases {p : JobId → JobRow → Bool} {f : JobId → JobRow → JobRow} (h : (t.update p f).get? k = some r') :
    ∃ r, t.get? k = some r ∧ (r' = r ∨ (p k r = true ∧ r' = f k r)) := by
  rw [Table.get?_update, Option.map_eq_some_iff] at h
  obtain ⟨r, hr, rfl⟩ := h
  refine ⟨r, hr, ?_⟩
  split
  · next hp => exact Or.inr ⟨hp, rfl⟩
  · exact Or.inl rfl

variable {op : QueueOp}

theorem update_touch {p : JobId → JobRow → Bool} {f : JobId → JobRow → JobRow} (h : (t.update p f).get? k = some r')
    (htouch : ∀ r, p k r = true → Touch t k r op (f k r)) : ∃ r, t.get? k = some r ∧ (r' = r ∨ Touch t k r op r') := by
  obtain ⟨r, hr, he | ⟨hp, rfl⟩⟩ := update_cases h
  · exact ⟨r, hr, Or.inl he⟩
  · exact ⟨r, hr, Or.inr (htouch r hp)⟩

theorem enqueue_cases (t : JobTable) (now : Int) (id : JobId) (kind : String) (payload : JObj)
    (key : Option String) (maxAttempts : Int) (parent : Option JobId) (createdBy : Option String)
    (runAfter : Option Int) : (enqueue t now id kind payload key maxAttempts parent createdBy runAfter).1 = t ∨
      ∃ hmax, kindChk kind = true ∧ keyed t key = none ∧ t.get? id = none ∧
        enqueue t now id kind payload key maxAttempts parent createdBy runAfter =
          (t.insert id (newRow now kind payload key maxAttempts hmax parent createdBy runAfter), some (id, true)) := by
  unfold enqueue
  split
  · next h =>
    cases hk : keyed t key with
    | some existing => exact Or.inl rfl
    | none =>
      dsimp only
      split
      · next hc =>
        simp only [Bool.and_eq_true, Option.isNone_iff_eq_none] at hc
        exact Or.inr ⟨h.2, h.1, rfl, hc.2, rfl⟩
      · exact Or.inl rfl
  · exact Or.inl rfl

theorem enqueue_row {id : JobId} {kind : String} {payload : JObj}
    {key : Option String} {maxAttempts : Int} {parent : Option JobId} {createdBy : Option String}
    {runAfter : Option Int} (h : (enqueue t now id kind payload key maxAttempts parent createdBy runAfter).1.get? k =
      some r') : t.get? k = some r' ∨
      Inserted t k (.enqueue now id kind payload key maxAttempts parent createdBy runAfter) r' := by
  rcases enqueue_cases t now id kind payload key maxAttempts parent createdBy runAfter
    with he | ⟨hmax, hkind, hkey, hfree, he⟩
  · rw [he] at h
    exact Or.inl h
  · simp only [he, Table.get?_insert] at h
    split at h
    · next hk =>
      obtain ⟨rfl, -⟩ := hk
      cases h
      exact Or.inr (.enqueue hmax hkind hkey hfree)
    · exact Or.inl h

theorem claim_touch {lease : Int} {locked : List JobId}
    (h : (claim t now worker caps lease locked).1.get? k = some r') :
    ∃ r, t.get? k = some r ∧ (r' = r ∨ Touch t k r (.claim now worker caps lease locked) r') := by
  unfold claim at h
  cases hc : claimable t now caps locked with
  | none =>
    rw [hc] at h
    exact ⟨r', h, Or.inl rfl⟩
  | some x =>
    obtain ⟨id, r₀⟩ := x
    rw [hc] at h
    obtain ⟨r, hr, he | ⟨hp, rfl⟩⟩ := update_cases h
    · exact ⟨r, hr, Or.inl he⟩
    · obtain rfl : k = id := by simpa using hp
      obtain rfl : r₀ = r := Option.some.inj ((claimable_spec hc).1.symm.trans hr)
      exact ⟨r₀, hr, Or.inr (.claim hc)⟩

theorem release_touch {cost : Option ℚ} {counted : Bool} {delay : Int}
    (h : (release t now job worker cost counted delay).1.get? k = some r') : ∃ r, t.get? k = some r ∧
      (r' = r ∨ Touch t k r (.release now job worker cost counted delay) r') := by
  unfold release at h
  cases hg : t.get? job with
  | none =>
    rw [hg] at h
    exact ⟨r', h, Or.inl rfl⟩
  | some r₀ =>
    rw [hg] at h
    dsimp only at h
    split at h
    · next ho =>
      cases hc : releaseCounters counted r₀.progress with
      | none =>
        rw [hc] at h
        exact ⟨r', h, Or.inl rfl⟩
      | some x =>
        rw [hc] at h
        obtain ⟨r, hr, he | ⟨hp, rfl⟩⟩ := update_cases h
        · exact ⟨r, hr, Or.inl he⟩
        · obtain rfl : k = job := by simpa using hp
          obtain rfl : r₀ = r := Option.some.inj (hg.symm.trans hr)
          exact ⟨r₀, hr, Or.inr (.release ho hc)⟩
    · exact ⟨r', h, Or.inl rfl⟩

theorem step_cases (h : (step t op).get? k = some r') :
    (∃ r, t.get? k = some r ∧ (r' = r ∨ Touch t k r op r')) ∨ Inserted t k op r' := by
  cases op with
  | enqueue now id kind payload key maxAttempts parent createdBy runAfter =>
    exact (enqueue_row h).imp_left fun hr => ⟨r', hr, Or.inl rfl⟩
  | claim now worker caps lease locked => exact Or.inl (claim_touch h)
  | heartbeat now job worker lease =>
    refine Or.inl (update_touch h fun r hp => ?_)
    obtain ⟨rfl, ho⟩ := guardOwned_iff.1 hp
    exact .heartbeat ho
  | setProgress now job fields cost =>
    refine Or.inl (update_touch h fun r hp => ?_)
    obtain rfl : k = job := by simpa using hp
    exact .setProgress
  | complete now job worker result cost =>
    refine Or.inl (update_touch h fun r hp => ?_)
    obtain ⟨rfl, ho⟩ := guardOwned_iff.1 hp
    exact .complete ho
  | stopBudget now job worker error result cost =>
    refine Or.inl (update_touch h fun r hp => ?_)
    obtain ⟨rfl, ho⟩ := guardOwned_iff.1 hp
    exact .stopBudget ho
  | markCancelled now job worker cost =>
    refine Or.inl (update_touch h fun r hp => ?_)
    obtain ⟨rfl, ho⟩ := guardOwned_iff.1 hp
    exact .markCancelled ho
  | fail now job worker error retryable cost result rand =>
    left
    simp only [step, fail] at h
    by_cases hr : job.retries retryable = true
    · rw [if_pos hr] at h
      refine update_touch h fun r hp => ?_
      obtain ⟨hid, ho⟩ := guardOwned_iff.1 hp
      exact .failRequeue hid ho hr
    · rw [if_neg hr] at h
      refine update_touch h fun r hp => ?_
      obtain ⟨hid, ho⟩ := guardOwned_iff.1 hp
      exact .failEnd hid ho (by simpa using hr)
  | release now job worker cost counted delay => exact Or.inl (release_touch h)
  | reapRequeue now => exact Or.inl (update_touch h fun r hp => .reapRequeue hp)
  | reapFail now => exact Or.inl (update_touch h fun r hp => .reapFail hp)
  | requestCancel now job =>
    refine Or.inl (update_touch h fun r hp => ?_)
    obtain rfl : k = job := by
      simp only [cancellable, Bool.and_eq_true, beq_iff_eq] at hp
      exact hp.1
    exact .requestCancel hp
  | cancelRetiredKinds now retired => exact Or.inl (update_touch h fun r hp => .retired hp)
  | retry now job =>
    refine Or.inl (update_touch h fun r hp => ?_)
    obtain rfl : k = job := by
      simp only [retriable, Bool.and_eq_true, beq_iff_eq] at hp
      exact hp.1
    exact .retry hp
  | retryOne now job delay stopped =>
    refine Or.inl (update_touch h fun r hp => ?_)
    obtain rfl : k = job := by
      simp only [retriableOne, Bool.and_eq_true, beq_iff_eq] at hp
      exact hp.1
    exact .retryOne hp

theorem step_touch (hr : t.get? k = some r) (h : Touch t k r op r') : (step t op).get? k = some r' := by
  cases h with
  | claim h =>
    simp only [step, claim, h]
    rw [get?_update_some hr, if_pos (by simp)]
  | heartbeat h =>
    simp only [step, heartbeat]
    rw [get?_update_some hr, if_pos (guardOwned_iff.2 ⟨rfl, h⟩)]
  | setProgress =>
    simp only [step, setProgress]
    rw [get?_update_some hr, if_pos (by simp)]
  | complete h =>
    simp only [step, complete, finish]
    rw [get?_update_some hr, if_pos (guardOwned_iff.2 ⟨rfl, h⟩)]
  | stopBudget h =>
    simp only [step, stopBudget, finish]
    rw [get?_update_some hr, if_pos (guardOwned_iff.2 ⟨rfl, h⟩)]
  | markCancelled h =>
    simp only [step, markCancelled, finish]
    rw [get?_update_some hr, if_pos (guardOwned_iff.2 ⟨rfl, h⟩)]
  | failRequeue hid h hret =>
    simp only [step, fail, hret, if_true]
    rw [get?_update_some hr, if_pos (guardOwned_iff.2 ⟨hid, h⟩)]
  | failEnd hid h hret =>
    simp only [step, fail, hret, Bool.false_eq_true, if_false, finish]
    rw [get?_update_some hr, if_pos (guardOwned_iff.2 ⟨hid, h⟩)]
  | release h hc =>
    simp only [step, release, hr, h, hc, if_true]
    rw [get?_update_some hr, if_pos (by simp)]
  | reapRequeue h =>
    simp only [step, reapRequeue]
    rw [get?_update_some hr, if_pos h]
  | reapFail h =>
    simp only [step, reapFail]
    rw [get?_update_some hr, if_pos h]
  | requestCancel h =>
    simp only [step, requestCancel]
    rw [get?_update_some hr, if_pos h]
  | retired h =>
    simp only [step, cancelRetiredKinds]
    rw [get?_update_some hr, if_pos h]
  | retry h =>
    simp only [step, retry]
    rw [get?_update_some hr, if_pos h]
  | retryOne h =>
    simp only [step, retryOne]
    rw [get?_update_some hr, if_pos h]

/-! ## The answers

A release, a retry and a bulk retry answer that they found their row exactly when
they touch it. -/

theorem release_answered_iff {cost : Option ℚ} {counted : Bool} {delay : Int} :
    (release t now job worker cost counted delay).2.join.isSome = true ↔
      ∃ r x, t.get? job = some r ∧ r.ownedBy worker = true ∧ releaseCounters counted r.progress = some x := by
  unfold release
  cases hr : t.get? job with
  | none => simp
  | some r =>
    by_cases ho : r.ownedBy worker = true
    · cases hc : releaseCounters counted r.progress with
      | none => simp [ho, hc]
      | some x =>
        obtain ⟨releases, shutdown⟩ := x
        simp [ho, hc]
    · simp [ho]

theorem retry_answered_iff : (retry t now job).2 = true ↔ ∃ r, t.get? job = some r ∧ retriable job job r = true := by
  unfold retry
  cases hr : t.get? job <;> simp

theorem retryOne_answered_iff {delay : Int} {stopped : Bool} :
    (retryOne t now job delay stopped).2 = true ↔ ∃ r, t.get? job = some r ∧
      retriableOne job (if stopped then .stoppedBudget else .failed) job r = true := by
  unfold retryOne
  cases hr : t.get? job <;> simp

theorem All.step {P : JobId → JobRow → Prop} (h : t.All P) (hnew : ∀ k r', Inserted t k op r' → P k r')
    (htouch : ∀ k r r', t.get? k = some r → P k r → Touch t k r op r' → P k r') : (step t op).All P := by
  intro k r' hr'
  rcases step_cases hr' with ⟨r, hr, rfl | ht⟩ | hi
  · exact h k r' hr
  · exact htouch k r r' hr (h k r hr) ht
  · exact hnew k r' hi

theorem step_shape (t : JobTable) (op : QueueOp) :
    (∃ p f, step t op = t.update p f) ∨ ∃ id r, step t op = t.insert id r := by
  have same : ∃ p f, t = t.update p f := ⟨fun _ _ => false, fun _ r => r, by simp [Table.update]⟩
  cases op with
  | enqueue now id kind payload key maxAttempts parent createdBy runAfter =>
    rcases enqueue_cases t now id kind payload key maxAttempts parent createdBy runAfter
      with he | ⟨_, _, _, _, he⟩
    · left
      simpa only [step, he] using same
    · right
      simp only [step, he]
      exact ⟨_, _, rfl⟩
  | claim now worker caps lease locked =>
    left
    simp only [step, claim]
    split
    · exact same
    · dsimp only
      exact ⟨_, _, rfl⟩
  | fail now job worker error retryable cost result rand =>
    left
    simp only [step, fail, finish]
    split
    · dsimp only
      exact ⟨_, _, rfl⟩
    · dsimp only
      exact ⟨_, _, rfl⟩
  | release now job worker cost counted delay =>
    left
    simp only [step, release]
    split
    · exact same
    · split
      · split
        · exact same
        · dsimp only
          exact ⟨_, _, rfl⟩
      · exact same
  | _ =>
    left
    simp only [step, heartbeat, setProgress, complete, stopBudget, markCancelled, finish,
      reapRequeue, reapFail, requestCancel, cancelRetiredKinds, retry, retryOne]
    exact ⟨_, _, rfl⟩

theorem step_split (hr' : (step t op).get? k = some r') : (∃ r, t.get? k = some r ∧ Touch t k r op r') ∨
    (t.get? k = some r' ∧ ∀ r₀ r₁, t.get? k = some r₀ → ¬ Touch t k r₀ op r₁) ∨ Inserted t k op r' := by
  rcases step_cases hr' with ⟨r, hr, hcase⟩ | hi
  · by_cases ht : ∃ r₁, Touch t k r op r₁
    · obtain ⟨r₁, ht⟩ := ht
      obtain rfl : r₁ = r' := Option.some.inj ((step_touch hr ht).symm.trans hr')
      exact Or.inl ⟨r, hr, ht⟩
    · obtain rfl : r' = r := hcase.resolve_right fun h' => ht ⟨r', h'⟩
      refine Or.inr (Or.inl ⟨hr, fun r₀ r₁ hr₀ ht₀ => ht ⟨r₁, ?_⟩⟩)
      obtain rfl : r' = r₀ := Option.some.inj (hr.symm.trans hr₀)
      exact ht₀
  · exact Or.inr (Or.inr hi)

theorem step_of_some (op : QueueOp) (hr : t.get? k = some r) :
    ∃ r', (step t op).get? k = some r' ∧ (r' = r ∨ Touch t k r op r') := by
  have hsome : ∃ r', (step t op).get? k = some r' := by
    rcases step_shape t op with ⟨p, f, he⟩ | ⟨id, r0, he⟩
    · exact ⟨_, by rw [he, get?_update_some hr]⟩
    · rw [he, Table.get?_insert]
      split
      · exact ⟨_, rfl⟩
      · exact ⟨r, hr⟩
  obtain ⟨r', hr'⟩ := hsome
  refine ⟨r', hr', ?_⟩
  rcases step_cases hr' with ⟨r1, hr1, h⟩ | hi
  · obtain rfl : r1 = r := Option.some.inj (hr1.symm.trans hr)
    exact h
  · cases hi with
    | enqueue _ _ _ hfree =>
      rw [hr] at hfree
      cases hfree

end CisApp.Jobs
