import CisApp.Jobs.Lifecycle

/-!
# The terminal hook

When a job ends without success, the caller that ended it runs
`run_terminal_hook`, which reads the row again and calls the kind's `on_terminal`
if it finds it failed, stopped or cancelled.  Here every statement is paired with
the hook calls its caller makes after it (`hooks`), an end is what the tables
before and after a statement show (`newEnds`), and a hook call under way is in
`pending` until it has read the row.

A hook call carries the end it is for: the number of that end among the ends of
its job, or `none` when its caller's statement ended nothing.  The latter is what
`stop_budget`, `mark_cancelled` and the failure of an unknown kind produce when
the execution no longer owns the row, since their callers do not look at the
answer (`hook_without_end`).
-/

namespace CisApp.Jobs

open List Option

/-! ## Tenant offboarding -/

def offboardRow (now : Int) (r : JobRow) : JobRow where
  __ := r
  status := .cancelled
  finishedAt := some now
  error := some "cancelled: tenant offboarded"
  cancelRequested := true
  updatedAt := now
  attemptsChk := r.attemptsChk
  leaseChk := by simp

def offboards (tenant : String) (_ : JobId) (r : JobRow) : Bool :=
  r.status == .queued && (r.payload.at? "tenant_id").bind Json.text? == some tenant

/-- The queued jobs of a tenant are cancelled; their ids. -/
def offboard (t : JobTable) (now : Int) (tenant : String) : JobTable × List JobId :=
  (t.update (offboards tenant) (fun _ r => offboardRow now r), t.matching (offboards tenant))

/-! ## Statements and the hooks of their callers -/

def noHandlerFail (now : Int) (job : Job) (worker : String) : QueueOp :=
  .fail now job worker ("no handler for kind '" ++ job.kind ++ "'") false none none 0

inductive EndOp where
  | queue (op : QueueOp)
  | noHandler (now : Int) (job : Job) (worker : String)
  | offboard (now : Int) (tenant : String)

def EndOp.apply (t : JobTable) : EndOp → JobTable
  | .queue op => step t op
  | .noHandler now job worker => step t (noHandlerFail now job worker)
  | .offboard now tenant => (Jobs.offboard t now tenant).1

/-- The jobs whose hook the caller of a statement runs after it. -/
def hooks (t : JobTable) : EndOp → List JobId
  | .queue (.stopBudget _ job _ _ _ _) => [job]
  | .queue (.markCancelled _ job _ _) => [job]
  | .queue (.fail now job worker error retryable cost result rand) =>
    if (fail t now job worker error retryable cost result rand).2 = some .failed then [job.id] else []
  | .queue (.release now job worker cost counted delay) =>
    let status := (release t now job worker cost counted delay).2
    if status = some (some .failed) ∨ status = some (some .cancelled) then [job] else []
  | .queue (.reapFail now) => (reapFail t now).2
  | .queue (.requestCancel now job) =>
    if (requestCancel t now job).2 = some .cancelled then [job] else []
  | .noHandler _ job _ => [job.id]
  | .offboard now tenant => (Jobs.offboard t now tenant).2
  | _ => []

/-- The statements whose ends are reported; a retired kind has no hook left to call. -/
def EndOp.reports : EndOp → Bool
  | .queue (.cancelRetiredKinds ..) => false
  | _ => true

/-- The rows that changed into failed, stopped or cancelled. -/
def ended (t t' : JobTable) : List JobId :=
  t'.matching fun k r' => r'.status.unsuccessful && (t.get? k).any fun r => r.status != r'.status

def newEnds (t : JobTable) (op : EndOp) : List JobId :=
  if op.reports then ended t (op.apply t) else []

/-- The test of `run_terminal_hook`; `hooked` are the kinds with an `on_terminal`. -/
def callsOnTerminal (hooked : String → Bool) (t : JobTable) (k : JobId) : Bool :=
  (t.get? k).any fun r => r.status.unsuccessful && hooked r.kind

/-! ## The system -/

abbrev Hook := JobId × Option Nat

structure HookSys where
  table : JobTable
  ends : JobId → Nat
  pending : List Hook
  calls : List Hook

def HookSys.init : HookSys := ⟨Table.empty, fun _ => 0, [], []⟩

inductive HookOp where
  | table (op : EndOp)
  | runHook (i : Nat)
  | lose (i : Nat)

/-- The hook call for job `k` after the statement. -/
def HookSys.hookFor (s : HookSys) (op : EndOp) (k : JobId) : Hook :=
  (k, if k ∈ newEnds s.table op then some (s.ends k) else none)

/-- A statement with its caller's hooks, one hook call that reads the row, or one
that is cut off before it does (a shutdown, an error of the read). -/
def hookStep (hooked : String → Bool) (s : HookSys) : HookOp → HookSys
  | .table op =>
    { s with
      table := op.apply s.table
      ends := fun k => if k ∈ newEnds s.table op then s.ends k + 1 else s.ends k
      pending := s.pending ++ (hooks s.table op).map (s.hookFor op) }
  | .runHook i =>
    match s.pending[i]? with
    | none => s
    | some h =>
      { s with
        pending := s.pending.eraseIdx i
        calls := if callsOnTerminal hooked s.table h.1 then s.calls ++ [h] else s.calls }
  | .lose i => { s with pending := s.pending.eraseIdx i }

/-- Every end of a hooked kind has one hook call, made or under way, and every call
of `on_terminal` is for an end its caller made. -/
structure HookOk (hooked : String → Bool) (s : HookSys) : Prop where
  once : ∀ k r n, s.table.get? k = some r → hooked r.kind = true → n < s.ends k →
    s.pending.count (k, some n) + s.calls.count (k, some n) = 1
  owned : ∀ h ∈ s.calls, h.2 ≠ none

/-- A hook call for an end finds the row still ended without success, one for no
end finds it otherwise, and no hook call for an end is cut off. -/
def HookSound (hooked : String → Bool) (s : HookSys) : HookOp → Prop
  | .table _ => True
  | .runHook i => ∀ h r, s.pending[i]? = some h → s.table.get? h.1 = some r → hooked r.kind = true →
      (h.2.isSome = true ↔ r.status.unsuccessful = true)
  | .lose i => ∀ h r, s.pending[i]? = some h → s.table.get? h.1 = some r → hooked r.kind = true →
      h.2 = none

/-! ## What a statement does to a row -/

inductive EndTouch (t : JobTable) (k : JobId) (r : JobRow) : EndOp → JobRow → Prop
  | queue {q r'} (h : Touch t k r q r') : EndTouch t k r (.queue q) r'
  | noHandler {now job worker r'} (h : Touch t k r (noHandlerFail now job worker) r') :
      EndTouch t k r (.noHandler now job worker) r'
  | offboard {now tenant} (h : offboards tenant k r = true) :
      EndTouch t k r (.offboard now tenant) (offboardRow now r)

variable {t : JobTable} {k : JobId} {r r' : JobRow} {op : EndOp}

theorem EndTouch.kind_eq (h : EndTouch t k r op r') : r'.kind = r.kind := by
  cases h with
  | queue h => exact h.kind_eq
  | noHandler h => exact h.kind_eq
  | offboard h => rfl

theorem apply_cases (h : (op.apply t).get? k = some r') :
    (∃ r, t.get? k = some r ∧ (r' = r ∨ EndTouch t k r op r')) ∨ t.get? k = none := by
  cases op with
  | queue q =>
    rcases step_cases h with ⟨r, hr, hcase⟩ | hi
    · exact Or.inl ⟨r, hr, hcase.imp id .queue⟩
    · cases hi with
      | enqueue hmax hkind hkey hfree => exact Or.inr hfree
  | noHandler now job worker =>
    rcases step_cases h with ⟨r, hr, hcase⟩ | hi
    · exact Or.inl ⟨r, hr, hcase.imp id .noHandler⟩
    · cases hi
  | offboard now tenant =>
    obtain ⟨r, hr, he | ⟨hp, rfl⟩⟩ := update_cases h
    · exact Or.inl ⟨r, hr, Or.inl he⟩
    · exact Or.inl ⟨r, hr, Or.inr (.offboard hp)⟩

theorem apply_some (op : EndOp) (hr : t.get? k = some r) : ∃ r', (op.apply t).get? k = some r' ∧ r'.kind = r.kind := by
  have hsome : ∃ r', (op.apply t).get? k = some r' := by
    cases op with
    | queue q => exact (step_of_some q hr).imp fun _ h => h.1
    | noHandler now job worker => exact (step_of_some _ hr).imp fun _ h => h.1
    | offboard now tenant => exact ⟨_, get?_update_some hr _ _⟩
  obtain ⟨r', hr'⟩ := hsome
  refine ⟨r', hr', ?_⟩
  rcases apply_cases hr' with ⟨r₀, hr₀, hcase⟩ | hnone
  · obtain rfl : r₀ = r := Option.some.inj (hr₀.symm.trans hr)
    rcases hcase with rfl | ht
    · rfl
    · exact ht.kind_eq
  · rw [hr] at hnone
    cases hnone

theorem mem_ended {t' : JobTable} : k ∈ ended t t' ↔ ∃ r r', t.get? k = some r ∧ t'.get? k = some r' ∧
      r'.status.unsuccessful = true ∧ r.status ≠ r'.status := by
  unfold ended
  rw [Table.mem_matching]
  constructor
  · rintro ⟨r', hr', hp⟩
    simp only [Bool.and_eq_true] at hp
    cases hr : t.get? k with
    | none => simp [hr] at hp
    | some r => exact ⟨r, r', rfl, hr', hp.1, by simpa [hr] using hp.2⟩
  · rintro ⟨r, r', hr, hr', hu, hne⟩
    refine ⟨r', hr', ?_⟩
    simp only [hr, hu, any_some, Bool.true_and]
    simpa using hne

/-! ## Ends and hooks -/

variable {worker : String}

theorem fail_answer {job : Job} {retryable : Bool} (hr : t.get? job.id = some r) (ho : r.ownedBy worker = true)
    (hret : job.retries retryable = false) (now : Int) (error : String) (cost : Option ℚ)
    (result : Option Json) (rand : ℚ) : (fail t now job worker error retryable cost result rand).2 = some .failed := by
  have howns : owns t job.id worker = true := owns_iff.2 ⟨r, hr, ho⟩
  simp [fail, hret, finish, howns]

theorem Touch.mem_hooks {q : QueueOp}
    (h : Touch t k r q r') (hr : t.get? k = some r) (hu : r'.status.unsuccessful = true)
    (hne : r.status ≠ r'.status) (hrep : (EndOp.queue q).reports = true) : k ∈ hooks t (.queue q) := by
  cases h with
  | claim h => cases hu
  | heartbeat h => exact absurd rfl hne
  | setProgress => exact absurd rfl hne
  | complete h => cases hu
  | stopBudget h => exact mem_singleton.2 rfl
  | markCancelled h => exact mem_singleton.2 rfl
  | failRequeue hid h hret => cases hu
  | failEnd hid h hret =>
    subst hid
    simp only [hooks]
    rw [if_pos (fail_answer hr h hret _ _ _ _ _)]
    exact mem_singleton.2 rfl
  | @release now worker cost counted delay releases shutdown ho hc =>
    have hans : (Jobs.release t now k worker cost counted delay).2 =
        some (some (releaseStatus r.cancelRequested counted releases)) := by
      simp only [Jobs.release, hr, ho, hc, if_true]
    have hstat : releaseStatus r.cancelRequested counted releases = .failed ∨
        releaseStatus r.cancelRequested counted releases = .cancelled := by
      have hu' : (releaseStatus r.cancelRequested counted releases).unsuccessful = true := hu
      unfold releaseStatus at hu' ⊢
      split
      · exact Or.inr rfl
      · split
        · exact Or.inl rfl
        · next h1 h2 =>
          rw [if_neg h1, if_neg h2] at hu'
          cases hu'
    simp only [hooks, hans]
    rw [if_pos (by rcases hstat with hs | hs <;> simp [hs])]
    exact mem_singleton.2 rfl
  | reapRequeue h => cases hu
  | reapFail h => exact (Table.mem_matching t _ k).2 ⟨r, hr, h⟩
  | @requestCancel now h =>
    have hans : (Jobs.requestCancel t now k).2 = some (requestCancelRow now r).status := by
      simp only [Jobs.requestCancel, hr, h, if_true]
    have hstat : (requestCancelRow now r).status = .cancelled := by
      by_cases hc : r.status.cancelsAtOnce = true
      · exact if_pos hc
      · exact absurd (if_neg hc).symm hne
    simp only [hooks, hans, hstat, if_true]
    exact mem_singleton.2 rfl
  | retired h => cases hrep
  | retry h => cases hu
  | retryOne h => cases hu

theorem touch_of_mem_newEnds (h : k ∈ newEnds t op) :
    op.reports = true ∧ ∃ r r', t.get? k = some r ∧ EndTouch t k r op r' ∧
      r'.status.unsuccessful = true ∧ r.status ≠ r'.status := by
  unfold newEnds at h
  split at h
  · next hrep =>
    obtain ⟨r, r', hr, hr', hu, hne⟩ := mem_ended.1 h
    refine ⟨hrep, r, r', hr, ?_, hu, hne⟩
    rcases apply_cases hr' with ⟨r₀, hr₀, hcase⟩ | hnone
    · obtain rfl : r₀ = r := Option.some.inj (hr₀.symm.trans hr)
      rcases hcase with rfl | ht
      · exact absurd rfl hne
      · exact ht
    · rw [hr] at hnone
      cases hnone
  · cases h

theorem newEnds_subset_hooks (h : k ∈ newEnds t op) : k ∈ hooks t op := by
  obtain ⟨hrep, r, r', hr, ht, hu, hne⟩ := touch_of_mem_newEnds h
  cases ht with
  | queue ht => exact ht.mem_hooks hr hu hne hrep
  | noHandler ht =>
    cases ht with
    | failRequeue hid h hret => cases hu
    | failEnd hid h hret => exact mem_singleton.2 hid
  | offboard hp => exact (Table.mem_matching t _ k).2 ⟨r, hr, hp⟩

theorem hooks_nodup (t : JobTable) (op : EndOp) : (hooks t op).Nodup := by
  cases op with
  | queue q =>
    cases q with
    | stopBudget => exact nodup_singleton _
    | markCancelled => exact nodup_singleton _
    | fail =>
      simp only [hooks]
      split
      · exact nodup_singleton _
      · exact nodup_nil
    | release =>
      simp only [hooks]
      split
      · exact nodup_singleton _
      · exact nodup_nil
    | reapFail now => exact Table.matching_nodup t _
    | requestCancel =>
      simp only [hooks]
      split
      · exact nodup_singleton _
      · exact nodup_nil
    | _ => exact nodup_nil
  | noHandler => exact nodup_singleton _
  | offboard now tenant => exact Table.matching_nodup t _

/-- The callers that run the hook whatever their statement answered, with the
worker whose row it should be. -/
def EndOp.blind : EndOp → Option (JobId × String)
  | .queue (.stopBudget _ job worker _ _ _) => some (job, worker)
  | .queue (.markCancelled _ job worker _) => some (job, worker)
  | .noHandler _ job worker => some (job.id, worker)
  | _ => none

theorem mem_newEnds_of_touch {q : QueueOp}
    (hr : t.get? k = some r) (ht : Touch t k r q r') (hu : r'.status.unsuccessful = true)
    (hne : r.status ≠ r'.status) (hrep : (EndOp.queue q).reports = true) : k ∈ newEnds t (.queue q) := by
  unfold newEnds
  rw [if_pos hrep]
  exact mem_ended.2 ⟨r, r', hr, step_touch hr ht, hu, hne⟩

theorem ne_of_owned {status : Status} (ho : r.ownedBy worker = true) (hne : status ≠ .running) : r.status ≠ status := by
  rw [(ownedBy_iff.1 ho).1]
  exact hne.symm

/-! The callers that look at the answer of their statement run the hook for an end
only. -/

variable {now : Int}

theorem fail_hook_ends {job : Job} {error : String}
    {retryable : Bool} {cost : Option ℚ} {result : Option Json} {rand : ℚ}
    (hk : k ∈ hooks t (.queue (.fail now job worker error retryable cost result rand))) :
    k ∈ newEnds t (.queue (.fail now job worker error retryable cost result rand)) := by
  simp only [hooks] at hk
  split at hk
  · next hans =>
    obtain rfl : k = job.id := mem_singleton.1 hk
    by_cases hret : job.retries retryable = true
    · simp [fail, hret] at hans
    · have howns : owns t job.id worker = true := by
        by_contra hn
        simp [fail, hret, finish, hn] at hans
      obtain ⟨r, hr, ho⟩ := owns_iff.1 howns
      exact mem_newEnds_of_touch hr (.failEnd rfl ho (by simpa using hret)) rfl
        (ne_of_owned ho (by simp [finishRow])) rfl
  · cases hk

theorem release_hook_ends {job : JobId} {cost : Option ℚ} {counted : Bool} {delay : Int}
    (hk : k ∈ hooks t (.queue (.release now job worker cost counted delay))) :
    k ∈ newEnds t (.queue (.release now job worker cost counted delay)) := by
  simp only [hooks] at hk
  split at hk
  · next hans =>
    obtain rfl : k = job := mem_singleton.1 hk
    have hsome : (release t now k worker cost counted delay).2.join.isSome = true := by
      rcases hans with h | h <;> rw [h] <;> rfl
    obtain ⟨r, ⟨n, m⟩, hr, ho, hc⟩ := release_answered_iff.1 hsome
    have hstat : (release t now k worker cost counted delay).2 =
        some (some (releaseStatus r.cancelRequested counted n)) := by
      simp only [release, hr, ho, hc, if_true]
    refine mem_newEnds_of_touch hr (.release ho hc) ?_
      (ne_of_owned ho (releaseStatus_ne_running _ _ _)) rfl
    show (releaseStatus r.cancelRequested counted n).unsuccessful = true
    rw [hstat] at hans
    rcases hans with h | h <;> rw [Option.some.inj (Option.some.inj h)] <;> rfl
  · cases hk

theorem reapFail_hook_ends (hk : k ∈ hooks t (.queue (.reapFail now))) : k ∈ newEnds t (.queue (.reapFail now)) := by
  obtain ⟨r, hr, hf⟩ := (Table.mem_matching t _ k).1 hk
  have hstat : (reapFailStatus r.cancelRequested).unsuccessful = true ∧
      reapFailStatus r.cancelRequested ≠ .running := by
    unfold reapFailStatus
    split <;> simp [Status.unsuccessful]
  refine mem_newEnds_of_touch hr (.reapFail hf) hstat.1 ?_ rfl
  rw [expired_running hf]
  exact hstat.2.symm

theorem requestCancel_hook_ends {job : JobId} (hk : k ∈ hooks t (.queue (.requestCancel now job))) :
    k ∈ newEnds t (.queue (.requestCancel now job)) := by
  simp only [hooks] at hk
  split at hk
  · next hans =>
    obtain rfl : k = job := mem_singleton.1 hk
    cases hr : t.get? k with
    | none => simp [requestCancel, hr] at hans
    | some r =>
      by_cases hc : cancellable k k r = true
      · have hstat : (requestCancelRow now r).status = .cancelled := by
          simpa [requestCancel, hr, hc] using hans
        refine mem_newEnds_of_touch hr (.requestCancel hc) (by rw [hstat]; rfl) ?_ rfl
        rw [hstat]
        intro hcan
        simp [cancellable, hcan] at hc
      · simp [requestCancel, hr, hc] at hans
  · cases hk

theorem offboard_hook_ends {tenant : String}
    (hk : k ∈ hooks t (.offboard now tenant)) : k ∈ newEnds t (.offboard now tenant) := by
  obtain ⟨r, hr, hp⟩ := (Table.mem_matching t _ k).1 hk
  have hrow : ((EndOp.offboard now tenant).apply t).get? k = some (offboardRow now r) := by
    show (t.update _ _).get? k = _
    rw [get?_update_some hr, if_pos hp]
  refine mem_ended.2 ⟨r, _, hr, hrow, rfl, ?_⟩
  simp only [offboards, Bool.and_eq_true, beq_iff_eq] at hp
  rw [hp.1]
  simp [offboardRow]

theorem hook_without_end (hk : k ∈ hooks t op)
    (hno : k ∉ newEnds t op) : ∃ worker, op.blind = some (k, worker) ∧ owns t k worker = false := by
  -- a caller that owned the row ended it
  have key : ∀ worker, (∀ r, t.get? k = some r → r.ownedBy worker = true → k ∈ newEnds t op) →
      owns t k worker = false := by
    intro worker h
    by_contra howns
    obtain ⟨r, hr, ho⟩ := owns_iff.1 (by simpa using howns)
    exact hno (h r hr ho)
  cases op with
  | queue q =>
    cases q with
    | stopBudget now job worker error result cost =>
      obtain rfl : k = job := mem_singleton.1 hk
      refine ⟨worker, rfl, key worker fun r hr ho => ?_⟩
      exact mem_newEnds_of_touch hr (.stopBudget ho) rfl (ne_of_owned ho (by simp [finishRow])) rfl
    | markCancelled now job worker cost =>
      obtain rfl : k = job := mem_singleton.1 hk
      refine ⟨worker, rfl, key worker fun r hr ho => ?_⟩
      exact mem_newEnds_of_touch hr (.markCancelled ho) rfl (ne_of_owned ho (by simp [finishRow])) rfl
    | fail => exact absurd (fail_hook_ends hk) hno
    | release => exact absurd (release_hook_ends hk) hno
    | reapFail now => exact absurd (reapFail_hook_ends hk) hno
    | requestCancel now job => exact absurd (requestCancel_hook_ends hk) hno
    | _ => cases hk
  | noHandler now job worker =>
    obtain rfl : k = job.id := mem_singleton.1 hk
    refine ⟨worker, rfl, key worker fun r hr ho => ?_⟩
    have ht : Touch t job.id r (noHandlerFail now job worker)
        (finishRow now .failed none _ none r) := .failEnd rfl ho rfl
    exact mem_ended.2 ⟨r, _, hr, step_touch hr ht, rfl, ne_of_owned ho (by simp [finishRow])⟩
  | offboard now tenant => exact absurd (offboard_hook_ends hk) hno

theorem not_mem_newEnds_of_blind
    (hb : op.blind = some (k, worker)) (howns : owns t k worker = false) : k ∉ newEnds t op := by
  intro hk
  have hown : ∃ r, t.get? k = some r ∧ r.ownedBy worker = true := by
    obtain ⟨-, r, r', hr, ht, -, -⟩ := touch_of_mem_newEnds hk
    refine ⟨r, hr, ?_⟩
    cases ht with
    | queue ht =>
      cases ht with
      | stopBudget h =>
        cases hb
        exact h
      | markCancelled h =>
        cases hb
        exact h
      | _ => cases hb
    | noHandler ht =>
      cases hb
      cases ht with
      | failRequeue hid h hret => exact h
      | failEnd hid h hret => exact h
    | offboard hp => cases hb
  rw [owns_iff.2 hown] at howns
  cases howns

theorem hook_without_end_iff (hk : k ∈ hooks t op) :
    k ∉ newEnds t op ↔ ∃ worker, op.blind = some (k, worker) ∧ owns t k worker = false :=
  ⟨hook_without_end hk, fun ⟨_, hb, ho⟩ => not_mem_newEnds_of_blind hb ho⟩

/-! ## The invariant -/

section
variable (hooked : String → Bool)

/-- What holds of every run: hook calls are for ends that were, and only jobs that
are there have ends. -/
structure HookInv (s : HookSys) : Prop where
  pending : ∀ k n, (k, some n) ∈ s.pending → n < s.ends k
  calls : ∀ k n, (k, some n) ∈ s.calls → n < s.ends k
  rows : ∀ k, 0 < s.ends k → ∃ r, s.table.get? k = some r

theorem hookInv_init : HookInv HookSys.init where
  pending := nofun
  calls := nofun
  rows := fun _ h => absurd h (Nat.lt_irrefl 0)

theorem hookOk_init : HookOk hooked HookSys.init where
  once := fun _ _ _ h => (by cases h)
  owned := fun _ h => (by cases h)

theorem mem_newEnds_row {t : JobTable} {op : EndOp} {k : JobId} (h : k ∈ newEnds t op) : ∃ r, t.get? k = some r := by
  obtain ⟨-, r, -, hr, -⟩ := touch_of_mem_newEnds h
  exact ⟨r, hr⟩

variable (s : HookSys)

theorem ends_le (op : EndOp) (k : JobId) : s.ends k ≤ (hookStep hooked s (.table op)).ends k := by
  show s.ends k ≤ if k ∈ newEnds s.table op then s.ends k + 1 else s.ends k
  split <;> omega

theorem hookInv_step (op : HookOp) (h : HookInv s) : HookInv (hookStep hooked s op) := by
  cases op with
  | table op =>
    constructor
    · intro k n hm
      have hm' : (k, some n) ∈ s.pending ++ (hooks s.table op).map (s.hookFor op) := hm
      rcases mem_append.1 hm' with hold | hnew
      · exact (h.pending k n hold).trans_le (ends_le hooked s op k)
      · obtain ⟨k', -, he⟩ := mem_map.1 hnew
        simp only [HookSys.hookFor, Prod.mk.injEq] at he
        obtain ⟨rfl, he⟩ := he
        show n < if k' ∈ newEnds s.table op then s.ends k' + 1 else s.ends k'
        split at he
        · next hin =>
          rw [if_pos hin]
          have := Option.some.inj he
          omega
        · cases he
    · intro k n hm
      exact (h.calls k n hm).trans_le (ends_le hooked s op k)
    · intro k hpos
      have hpos' : 0 < if k ∈ newEnds s.table op then s.ends k + 1 else s.ends k := hpos
      have hrow : ∃ r, s.table.get? k = some r := by
        split at hpos'
        · next hin => exact mem_newEnds_row hin
        · exact h.rows k hpos'
      obtain ⟨r, hr⟩ := hrow
      obtain ⟨r', hr', -⟩ := apply_some op hr
      exact ⟨r', hr'⟩
  | runHook i =>
    simp only [hookStep]
    cases hi : s.pending[i]? with
    | none => exact h
    | some x =>
      refine ⟨fun k n hm => h.pending k n (mem_of_mem_eraseIdx hm), fun k n hm => ?_, h.rows⟩
      dsimp only at hm
      split at hm
      · rcases mem_append.1 hm with hold | hnew
        · exact h.calls k n hold
        · rw [← mem_singleton.1 hnew] at hi
          exact h.pending k n (mem_of_getElem? hi)
      · exact h.calls k n hm
  | lose i => exact ⟨fun k n hm => h.pending k n (mem_of_mem_eraseIdx hm), h.calls, h.rows⟩

/-! ## One step -/

theorem count_eraseIdx {l : List Hook} {i : Nat} {h : Hook} (hi : l[i]? = some h) (a : Hook) :
    (l.eraseIdx i).count a + (if h = a then 1 else 0) = l.count a := by
  obtain ⟨hlt, rfl⟩ := List.getElem?_eq_some_iff.1 hi
  rw [← (getElem_cons_eraseIdx_perm hlt).count_eq a, count_cons]
  simp

theorem count_newHooks (op : EndOp) (k : JobId) (n : Nat) :
    ((hooks s.table op).map (s.hookFor op)).count (k, some n) = if k ∈ newEnds s.table op ∧ n = s.ends k then 1 else 0 := by
  have hinj : Function.Injective (s.hookFor op) := fun a b hab => congrArg Prod.fst hab
  split
  · next hc =>
    obtain ⟨hin, rfl⟩ := hc
    have he : (k, some (s.ends k)) = s.hookFor op k := by
      unfold HookSys.hookFor
      rw [if_pos hin]
    rw [he, count_map_of_injective _ _ hinj]
    exact count_eq_one_of_mem (hooks_nodup s.table op) (newEnds_subset_hooks hin)
  · next hc =>
    refine count_eq_zero.2 fun hm => hc ?_
    obtain ⟨k', -, he⟩ := mem_map.1 hm
    simp only [HookSys.hookFor, Prod.mk.injEq] at he
    obtain ⟨rfl, he⟩ := he
    split at he
    · next hin => exact ⟨hin, (Option.some.inj he).symm⟩
    · cases he

theorem hookOk_table {s : HookSys} {op : EndOp} (hinv : HookInv s) (h : HookOk hooked s) :
    HookOk hooked (hookStep hooked s (.table op)) := by
  refine ⟨fun k r' n hr' hh hn => ?_, h.owned⟩
  show (s.pending ++ (hooks s.table op).map (s.hookFor op)).count (k, some n) +
    s.calls.count (k, some n) = 1
  rw [count_append, count_newHooks]
  have hn' : n < if k ∈ newEnds s.table op then s.ends k + 1 else s.ends k := hn
  have hold : ∀ r, s.table.get? k = some r → n < s.ends k →
      s.pending.count (k, some n) + s.calls.count (k, some n) = 1 := by
    intro r hr hlt
    obtain ⟨r₁, hr₁, hkind⟩ := apply_some op hr
    obtain rfl : r₁ = r' := Option.some.inj (hr₁.symm.trans hr')
    exact h.once k r n hr (hkind ▸ hh) hlt
  by_cases hin : k ∈ newEnds s.table op
  · rw [if_pos hin] at hn'
    by_cases heq : n = s.ends k
    · -- the new end: no older hook call is for it
      rw [if_pos ⟨hin, heq⟩]
      have hp : s.pending.count (k, some n) = 0 := by
        refine count_eq_zero.2 fun hm => ?_
        have := hinv.pending k n hm
        omega
      have hc : s.calls.count (k, some n) = 0 := by
        refine count_eq_zero.2 fun hm => ?_
        have := hinv.calls k n hm
        omega
      omega
    · rw [if_neg fun hc => heq hc.2]
      obtain ⟨r, hr⟩ := mem_newEnds_row hin
      have := hold r hr (by omega)
      omega
  · rw [if_neg hin] at hn'
    rw [if_neg fun hc => hin hc.1]
    obtain ⟨r, hr⟩ := hinv.rows k (by omega)
    have := hold r hr hn'
    omega

theorem callsOnTerminal_iff {t : JobTable} {k : JobId} {r : JobRow} (hr : t.get? k = some r)
    (hh : hooked r.kind = true) : callsOnTerminal hooked t k = true ↔ r.status.unsuccessful = true := by
  simp [callsOnTerminal, hr, hh]

theorem hookOk_runHook {s : HookSys} {i : Nat} (h : HookOk hooked s)
    (hop : HookSound hooked s (.runHook i)) : HookOk hooked (hookStep hooked s (.runHook i)) := by
  simp only [hookStep]
  cases hi : s.pending[i]? with
  | none => exact h
  | some x =>
    dsimp only
    constructor
    · intro k r n hr hh hn
      have hsum := h.once k r n hr hh hn
      have hcount := count_eraseIdx hi (k, some n)
      dsimp only
      by_cases hx : x = (k, some n)
      · rw [if_pos hx] at hcount
        have hun : r.status.unsuccessful = true :=
          (hop x r hi (by rw [hx]; exact hr) hh).1 (by rw [hx]; rfl)
        rw [hx, if_pos ((callsOnTerminal_iff hooked hr hh).2 hun), count_append, count_singleton_self]
        omega
      · rw [if_neg hx] at hcount
        split
        · have hzero : [x].count (k, some n) = 0 := count_eq_zero.2 (by simpa using Ne.symm hx)
          rw [count_append, hzero]
          omega
        · omega
    · intro y hy
      split at hy
      · next hcall =>
        rcases mem_append.1 hy with hold | hnew
        · exact h.owned y hold
        · obtain rfl := mem_singleton.1 hnew
          unfold callsOnTerminal at hcall
          cases hr : s.table.get? y.1 with
          | none => simp [hr] at hcall
          | some r =>
            simp only [hr, any_some, Bool.and_eq_true] at hcall
            have hsome := (hop y r hi hr hcall.2).2 hcall.1
            intro hnone
            rw [hnone] at hsome
            cases hsome
      · exact h.owned y hy

theorem hookOk_lose {s : HookSys} {i : Nat} (h : HookOk hooked s)
    (hop : HookSound hooked s (.lose i)) : HookOk hooked (hookStep hooked s (.lose i)) := by
  refine ⟨fun k r n hr hh hn => ?_, h.owned⟩
  have hsum := h.once k r n hr hh hn
  show (s.pending.eraseIdx i).count (k, some n) + s.calls.count (k, some n) = 1
  cases hi : s.pending[i]? with
  | none => rwa [eraseIdx_of_length_le (by simpa using hi)]
  | some x =>
    have hcount := count_eraseIdx hi (k, some n)
    have hx : x ≠ (k, some n) := by
      rintro rfl
      have := hop _ r hi hr hh
      cases this
    rw [if_neg hx] at hcount
    omega

theorem hookOk_step (op : HookOp) (h : HookInv s ∧ HookOk hooked s)
    (hop : HookSound hooked s op) : HookInv (hookStep hooked s op) ∧ HookOk hooked (hookStep hooked s op) := by
  refine ⟨hookInv_step hooked s op h.1, ?_⟩
  cases op with
  | table op => exact hookOk_table hooked h.1 h.2
  | runHook i => exact hookOk_runHook hooked h.2 hop
  | lose i => exact hookOk_lose hooked h.2 hop

theorem hookSound_of_hookOk (op : HookOp) (h : HookInv s ∧ HookOk hooked s)
    (h' : HookInv (hookStep hooked s op) ∧ HookOk hooked (hookStep hooked s op)) : HookSound hooked s op := by
  cases op with
  | table op => trivial
  | runHook i =>
    rintro ⟨k, e⟩ r hi hr hh
    have hok := h'.2
    simp only [hookStep, hi] at hok
    constructor
    · intro hsome
      obtain ⟨n, rfl⟩ := isSome_iff_exists.1 hsome
      by_contra hun
      have hn := h.1.pending k n (mem_of_getElem? hi)
      have hbefore := h.2.once k r n hr hh hn
      have hafter := hok.once k r n hr hh hn
      have hcount := count_eraseIdx hi (k, some n)
      rw [if_pos rfl] at hcount
      have hno : ¬ callsOnTerminal hooked s.table k = true := fun hc =>
        hun ((callsOnTerminal_iff hooked hr hh).1 hc)
      dsimp only at hafter
      rw [if_neg hno] at hafter
      omega
    · intro hun
      have hcall := (callsOnTerminal_iff hooked hr hh).2 hun
      rw [if_pos hcall] at hok
      have hne := hok.owned (k, e) (mem_append_right _ (mem_singleton.2 rfl))
      exact isSome_iff_ne_none.2 hne
  | lose i =>
    rintro ⟨k, e⟩ r hi hr hh
    show e = none
    cases e with
    | none => rfl
    | some n =>
      exfalso
      have hn := h.1.pending k n (mem_of_getElem? hi)
      have hbefore := h.2.once k r n hr hh hn
      have hafter : (s.pending.eraseIdx i).count (k, some n) + s.calls.count (k, some n) = 1 :=
        h'.2.once k r n hr hh hn
      have hcount := count_eraseIdx hi (k, some n)
      rw [if_pos rfl] at hcount
      omega

/-- **The exact condition.**  Along a run every end of a hooked kind has exactly one
hook call, and `on_terminal` is called only for ends the caller made, exactly if
every hook call for an end gets to read the row before a retry, and every hook call
of a blind caller that did not own the row finds it not ended without success. -/
theorem hookOk_iff (ops : List HookOp) : (Always (hookStep hooked) (HookOk hooked) HookSys.init ops ↔
      Along (hookStep hooked) (HookSound hooked) HookSys.init ops) ∧
    ∀ (t : JobTable) (op : EndOp) (k : JobId), k ∈ hooks t op →
      (k ∉ newEnds t op ↔ ∃ worker, op.blind = some (k, worker) ∧ owns t k worker = false) := by
  have hinv : Always (hookStep hooked) HookInv HookSys.init ops :=
    always_of_step (hookInv_step hooked) ops hookInv_init
  refine ⟨⟨fun h => ?_, fun h => ?_⟩, fun t op k hk => hook_without_end_iff hk⟩
  · exact Always.along (hookSound_of_hookOk hooked) (hinv.and h)
  · exact (Along.always (hookOk_step hooked) ⟨hookInv_init, hookOk_init hooked⟩ h).mono
      fun _ hs => hs.2

end

/-- The reaper fails a job of one attempt and runs its hook; then the execution that
lost the lease stops on its budget and runs it again. -/
def endedTwice : List HookOp :=
  [.table (.queue (.enqueue 0 7 "t9_write" [] none 1 none none none)),
   .table (.queue (.claim 1 "w" [("t9_write", 4)] 90 [])),
   .table (.queue (.reapFail 100000000)),
   .runHook 0,
   .table (.queue (.stopBudget 100000001 7 "w" "budget" none none)),
   .runHook 0]

/-- `on_terminal` is called twice for the one end, the second time by an execution
whose `_finish` returned `False`. -/
theorem endedTwice_not_ok : ¬ ∀ (hooked : String → Bool) (ops : List HookOp),
    Always (hookStep hooked) (HookOk hooked) HookSys.init ops := by
  intro h
  have hok := (h (fun _ => true) endedTwice).run
  have hcalls : (run (hookStep fun _ => true) HookSys.init endedTwice).calls =
      [(7, some 0), (7, none)] := by decide +kernel
  refine hok.owned (7, none) ?_ rfl
  rw [hcalls]
  exact mem_cons_of_mem _ (List.mem_singleton.2 rfl)

end CisApp.Jobs
