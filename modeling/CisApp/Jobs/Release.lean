import CisApp.Jobs.Step

/-!
# The release budget

A release on shutdown does not use up an attempt, so the releases are counted by
themselves, in `progress.releases`: the counted release that brings the counter to
`MAX_RELEASES` fails the job.  `counted k` and `entries k` are history variables:
the counted releases of job `k` since it was enqueued or last retried, and the log
entry of every release it ever had.

Uncounted releases never fail a job, and `progress.release_log` always is the end
of `entries` (`LogOk`).  The counter, however, is a key of `progress`, and neither
retry clears it: "a fresh set of attempts" comes with a used release budget.  The
budget is as fresh as that of an enqueued job exactly if the counter is 0 at every
retry (`releaseBudget_iff`).

The keys of the counters are the queue's own: no caller of `set_progress` passes
one (`KeepsReleaseKeys`).
-/

namespace CisApp.Jobs

open List

structure Released where
  table : JobTable
  counted : JobId → Nat
  entries : JobId → List Json

def Released.init : Released := ⟨Table.empty, fun _ => 0, fun _ => []⟩

/-- The counted releases after a step. -/
def countedAfter (t : JobTable) (counted : JobId → Nat) : QueueOp → JobId → Nat
  | .release now job worker cost counts delay, k =>
    if k = job ∧ (release t now job worker cost counts delay).2.join.isSome = true then
      counted k + (if counts then 1 else 0)
    else counted k
  | .retry now job, k => if k = job ∧ (retry t now job).2 = true then 0 else counted k
  | .retryOne now job delay stopped, k =>
    if k = job ∧ (retryOne t now job delay stopped).2 = true then 0 else counted k
  | _, k => counted k

/-- The log entries after a step. -/
def entriesAfter (t : JobTable) (entries : JobId → List Json) : QueueOp → JobId → List Json
  | .release now job worker cost counts delay, k =>
    if k = job ∧ (release t now job worker cost counts delay).2.join.isSome = true then
      entries k ++ [releaseEntry now worker counts]
    else entries k
  | _, k => entries k

def relStep (s : Released) (op : QueueOp) : Released where
  table := step s.table op
  counted := countedAfter s.table s.counted op
  entries := entriesAfter s.table s.entries op

/-! ## The properties -/

/-- A release that does not count never ends its job failed. -/
def UncountedNeverFails (s : Released) : QueueOp → Prop
  | .release now job worker cost false delay =>
    (release s.table now job worker cost false delay).2 ≠ some (some .failed)
  | _ => True

/-- A counted release of an owned row without a cancel request answers `queued`,
as long as it is one of the first `MAX_RELEASES - 1` since the job was enqueued or
retried. -/
def ReleaseSurvived (s : Released) : QueueOp → Prop
  | .release now job worker cost true delay =>
    ∀ r, s.table.get? job = some r → r.ownedBy worker = true → r.cancelRequested = false →
      (s.counted job : Int) < maxReleases - 1 →
      (release s.table now job worker cost true delay).2 = some (some .queued)
  | _ => True

/-- The log is the newest entries, oldest first, and within its bound. -/
def LogOk (s : Released) : Prop :=
  s.table.All fun k r => releaseLog r.progress = keepNewest (s.entries k) ∧
    (releaseLog r.progress).length ≤ releaseLogKeep

/-- The keys of `progress` that a release reads. -/
def releaseKeys : List String := ["releases", "shutdown_releases", "release_log"]

def KeepsReleaseKeys : QueueOp → Prop
  | .setProgress _ _ fields _ => ∀ key ∈ releaseKeys, fields.at? key = none
  | _ => True

/-- A retry finds the counter at 0. -/
def RetriesUnreleased (s : Released) : QueueOp → Prop
  | .retry _ job => ∀ r, s.table.get? job = some r → retriable job job r = true →
      r.progress.intAt "releases" 0 = some 0
  | .retryOne _ job _ stopped => ∀ r, s.table.get? job = some r →
      retriableOne job (if stopped then .stoppedBudget else .failed) job r = true →
      r.progress.intAt "releases" 0 = some 0
  | _ => True

def QueueOp.isRetry : QueueOp → Bool
  | .retry .. => true
  | .retryOne .. => true
  | _ => false

/-- Whatever happens until the next retry, every counted release within the budget
is survived. -/
def BudgetSafe (s : Released) : Prop :=
  ∀ more : List QueueOp, (∀ op ∈ more, op.isRetry = false ∧ KeepsReleaseKeys op) →
    Along relStep ReleaseSurvived s more

/-! ## The kept entries -/

theorem keepNewest_length (l : List Json) : (keepNewest l).length ≤ releaseLogKeep := by
  unfold keepNewest
  rw [length_drop]
  omega

theorem keepNewest_concat (l : List Json) (x : Json) : keepNewest (keepNewest l ++ [x]) = keepNewest (l ++ [x]) := by
  have hlen : (keepNewest l).length = l.length - (l.length - releaseLogKeep) := length_drop
  have hpos : 0 < releaseLogKeep := by decide
  by_cases hle : l.length ≤ releaseLogKeep
  · have hl : keepNewest l = l := by
      unfold keepNewest
      rw [Nat.sub_eq_zero_of_le hle, drop_zero]
    rw [hl]
  · have hk : (keepNewest l).length = releaseLogKeep := by omega
    show (keepNewest l ++ [x]).drop ((keepNewest l ++ [x]).length - releaseLogKeep) =
      (l ++ [x]).drop ((l ++ [x]).length - releaseLogKeep)
    have h1 : (keepNewest l ++ [x]).length - releaseLogKeep = 1 := by
      rw [length_append, hk, length_singleton]
      omega
    have h2 : (l ++ [x]).length - releaseLogKeep = l.length - releaseLogKeep + 1 := by
      rw [length_append, length_singleton]
      omega
    rw [h1, h2, drop_append_of_le_length (by omega), drop_append_of_le_length (by omega)]
    show (l.drop (l.length - releaseLogKeep)).drop 1 ++ [x] = _
    rw [drop_drop]

/-! ## What a step does to the keys -/

theorem releaseLog_congr {o o' : JObj} (h : o.at? "release_log" = o'.at? "release_log") : releaseLog o = releaseLog o' := by
  unfold releaseLog
  rw [h]

theorem releaseLog_of_arr {o : JObj} {l : List Json} (h : o.at? "release_log" = some (.arr l)) : releaseLog o = l := by
  unfold releaseLog
  rw [h]

variable {t : JobTable} {k : JobId} {op : QueueOp}

theorem Touch.progress_at? {r r' : JobRow} (h : Touch t k r op r') (hkeys : KeepsReleaseKeys op)
    (hop : ∀ now job worker cost counted delay, op ≠ .release now job worker cost counted delay)
    (key : String) (hkey : key ∈ releaseKeys) : r'.progress.at? key = r.progress.at? key := by
  cases h with
  | @claim now worker caps lease locked hc =>
    show (r.progress.merge [("attempt_started_at", timeJson now)]).at? key = _
    have hnone : JObj.at? [("attempt_started_at", timeJson now)] key = none := by
      simp only [releaseKeys, mem_cons, not_mem_nil, or_false] at hkey
      rcases hkey with rfl | rfl | rfl <;> rfl
    rw [JObj.at?_merge, hnone, Option.none_or]
  | @setProgress now fields cost =>
    show (r.progress.merge fields).at? key = _
    rw [JObj.at?_merge, hkeys key hkey, Option.none_or]
  | release ho hc => exact absurd rfl (hop _ _ _ _ _ _)
  | _ => rfl

variable {n m : Int}

theorem releaseCounters_eq (counted : Bool) {progress : JObj}
    (hn : progress.intAt "releases" 0 = some n) (hm : progress.intAt "shutdown_releases" 0 = some m) :
    releaseCounters counted progress = some (n + (if counted then 1 else 0), m) := by
  simp only [releaseCounters, hn, hm]

theorem releaseCounters_inv {counted : Bool} {progress : JObj} {x : Int × Int}
    (h : releaseCounters counted progress = some x) :
    ∃ n, progress.intAt "releases" 0 = some n ∧ x.1 = n + (if counted then 1 else 0) := by
  unfold releaseCounters at h
  cases hn : progress.intAt "releases" 0 with
  | none => simp [hn] at h
  | some n =>
    cases hm : progress.intAt "shutdown_releases" 0 with
    | none => simp [hn, hm] at h
    | some m =>
      simp only [hn, hm, Option.some.injEq] at h
      exact ⟨n, rfl, by rw [← h]⟩

section
variable (now : Int) (worker : String) (cost : Option ℚ) (counted : Bool)
  (delay releases shutdown : Int) (r : JobRow)

theorem releaseRow_releases : (releaseRow now worker cost counted delay releases shutdown
    r).progress.intAt "releases" 0 = some releases := by
  apply JObj.intAt_of_num
  show (r.progress.merge _).at? _ = _
  rfl

theorem releaseRow_shutdown : (releaseRow now worker cost counted delay releases shutdown
    r).progress.intAt "shutdown_releases" 0 = some (shutdown + 1) := by
  apply JObj.intAt_of_num
  show (r.progress.merge _).at? _ = _
  rfl

theorem releaseRow_log : releaseLog (releaseRow now worker cost counted delay releases shutdown
    r).progress = keepNewest (releaseLog r.progress ++ [releaseEntry now worker counted]) := by
  apply releaseLog_of_arr
  show (r.progress.merge _).at? _ = _
  rfl

end

/-! ## The invariants -/

/-- The counters are numbers, the log is the end of the entries, and a job that is
not there has no history. -/
structure ReleaseInv (s : Released) : Prop where
  releases : ∀ k r, s.table.get? k = some r → ∃ n, 0 ≤ n ∧ r.progress.intAt "releases" 0 = some n
  shutdown : ∀ k r, s.table.get? k = some r → ∃ m, r.progress.intAt "shutdown_releases" 0 = some m
  log : ∀ k r, s.table.get? k = some r → releaseLog r.progress = keepNewest (s.entries k)
  absent : ∀ k, s.table.get? k = none → s.counted k = 0 ∧ s.entries k = []

/-- The counter is the number of counted releases since the last retry. -/
def CounterFresh (s : Released) : Prop :=
  s.table.All fun k r => r.progress.intAt "releases" 0 = some (s.counted k : Int)

theorem history_of_not_touched (counted : JobId → Nat) (entries : JobId → List Json)
    (h : ∀ r r', t.get? k = some r → ¬ Touch t k r op r') :
    countedAfter t counted op k = counted k ∧ entriesAfter t entries op k = entries k := by
  cases op with
  | release now job worker cost counts delay =>
    have hno : ¬ (k = job ∧ (release t now job worker cost counts delay).2.join.isSome = true) := by
      rintro ⟨rfl, hans⟩
      obtain ⟨r, x, hr, ho, hc⟩ := release_answered_iff.1 hans
      exact h r _ hr (.release ho hc)
    exact ⟨if_neg hno, if_neg hno⟩
  | retry now job =>
    refine ⟨if_neg ?_, rfl⟩
    rintro ⟨rfl, hans⟩
    obtain ⟨r, hr, hret⟩ := retry_answered_iff.1 hans
    exact h r _ hr (.retry hret)
  | retryOne now job delay stopped =>
    refine ⟨if_neg ?_, rfl⟩
    rintro ⟨rfl, hans⟩
    obtain ⟨r, hr, hret⟩ := retryOne_answered_iff.1 hans
    exact h r _ hr (.retryOne hret)
  | _ => exact ⟨rfl, rfl⟩

/-- What a step makes of the counters and the log of a row. -/
inductive Kept (s : Released) (op : QueueOp) (k : JobId) (r r' : JobRow) : Prop
  | same (hat : ∀ key ∈ releaseKeys, r'.progress.at? key = r.progress.at? key)
      (hcounted : (relStep s op).counted k = s.counted k)
      (hentries : (relStep s op).entries k = s.entries k)
  | retried (hat : ∀ key ∈ releaseKeys, r'.progress.at? key = r.progress.at? key)
      (hcounted : (relStep s op).counted k = 0)
      (hentries : (relStep s op).entries k = s.entries k)
      (hzero : RetriesUnreleased s op → r.progress.intAt "releases" 0 = some 0)
  | released (counts : Bool) (entry : Json) (n m : Int)
      (hn : r.progress.intAt "releases" 0 = some n)
      (hn' : r'.progress.intAt "releases" 0 = some (n + (if counts then 1 else 0)))
      (hm' : r'.progress.intAt "shutdown_releases" 0 = some m)
      (hlog : releaseLog r'.progress = keepNewest (releaseLog r.progress ++ [entry]))
      (hcounted : (relStep s op).counted k = s.counted k + (if counts then 1 else 0))
      (hentries : (relStep s op).entries k = s.entries k ++ [entry])

variable {s : Released}

theorem Touch.kept {r r' : JobRow}
    (h : Touch s.table k r op r') (hr : s.table.get? k = some r) (hkeys : KeepsReleaseKeys op) : Kept s op k r r' := by
  by_cases hop : ∃ now job worker cost counted delay,
      op = .release now job worker cost counted delay
  · obtain ⟨now, job, worker, cost, counts, delay, rfl⟩ := hop
    cases h with
    | release ho hc =>
      obtain ⟨n, hn, rfl⟩ := releaseCounters_inv hc
      have hans : (Jobs.release s.table now k worker cost counts delay).2.join.isSome = true :=
        release_answered_iff.2 ⟨r, _, hr, ho, hc⟩
      refine .released counts (releaseEntry now worker counts) n _ hn
        (releaseRow_releases _ _ _ _ _ _ _ _) (releaseRow_shutdown _ _ _ _ _ _ _ _)
        (releaseRow_log _ _ _ _ _ _ _ _) ?_ ?_
      · exact if_pos ⟨rfl, hans⟩
      · exact if_pos ⟨rfl, hans⟩
  · have hat := h.progress_at? hkeys fun now job worker cost counted delay he =>
      hop ⟨now, job, worker, cost, counted, delay, he⟩
    cases h with
    | release ho hc => exact absurd ⟨_, _, _, _, _, _, rfl⟩ hop
    | retry hret =>
      exact .retried hat (if_pos ⟨rfl, retry_answered_iff.2 ⟨r, hr, hret⟩⟩) rfl
        fun hz => hz r hr hret
    | retryOne hret =>
      exact .retried hat (if_pos ⟨rfl, retryOne_answered_iff.2 ⟨r, hr, hret⟩⟩) rfl
        fun hz => hz r hr hret
    | _ => exact .same hat rfl rfl

theorem relStep_row {r' : JobRow} (hkeys : KeepsReleaseKeys op) (hr' : (relStep s op).table.get? k = some r') :
    (∃ r, s.table.get? k = some r ∧ Kept s op k r r') ∨ Inserted s.table k op r' := by
  rcases step_split hr' with ⟨r, hr, ht⟩ | ⟨hr, hnone⟩ | hi
  · exact Or.inl ⟨r, hr, ht.kept hr hkeys⟩
  · obtain ⟨hc, he⟩ := history_of_not_touched s.counted s.entries hnone
    exact Or.inl ⟨r', hr, .same (fun _ _ => rfl) hc he⟩
  · exact Or.inr hi

theorem releaseInv_init : ReleaseInv Released.init where
  releases := fun _ _ h => (by cases h)
  shutdown := fun _ _ h => (by cases h)
  log := fun _ _ h => (by cases h)
  absent := fun _ _ => ⟨rfl, rfl⟩

theorem releaseInv_step (s : Released) (op : QueueOp) (h : ReleaseInv s)
    (hkeys : KeepsReleaseKeys op) : ReleaseInv (relStep s op) := by
  have hnew : ∀ {k r'}, Inserted s.table k op r' → r'.progress = [] ∧ s.table.get? k = none ∧
      (relStep s op).entries k = s.entries k := by
    intro k r' hi
    cases hi with
    | enqueue hmax hkind hkey hfree => exact ⟨rfl, hfree, rfl⟩
  constructor
  · intro k r' hr'
    rcases relStep_row hkeys hr' with ⟨r, hr, hk⟩ | hi
    · obtain ⟨n, hpos, hn⟩ := h.releases k r hr
      cases hk with
      | same hat _ _ => exact ⟨n, hpos, (JObj.intAt_congr (hat _ (by decide)) 0).trans hn⟩
      | retried hat _ _ _ => exact ⟨n, hpos, (JObj.intAt_congr (hat _ (by decide)) 0).trans hn⟩
      | released counts entry n' m hn₀ hn' _ _ _ _ =>
        obtain rfl : n = n' := Option.some.inj (hn.symm.trans hn₀)
        refine ⟨_, ?_, hn'⟩
        split <;> omega
    · exact ⟨0, le_refl _, by rw [(hnew hi).1]; rfl⟩
  · intro k r' hr'
    rcases relStep_row hkeys hr' with ⟨r, hr, hk⟩ | hi
    · obtain ⟨m, hm⟩ := h.shutdown k r hr
      cases hk with
      | same hat _ _ => exact ⟨m, (JObj.intAt_congr (hat _ (by decide)) 0).trans hm⟩
      | retried hat _ _ _ => exact ⟨m, (JObj.intAt_congr (hat _ (by decide)) 0).trans hm⟩
      | released counts entry n' m' _ _ hm' _ _ _ => exact ⟨m', hm'⟩
    · exact ⟨0, by rw [(hnew hi).1]; rfl⟩
  · intro k r' hr'
    rcases relStep_row hkeys hr' with ⟨r, hr, hk⟩ | hi
    · have hlog := h.log k r hr
      cases hk with
      | same hat _ he => rw [releaseLog_congr (hat _ (by decide)), hlog, he]
      | retried hat _ he _ => rw [releaseLog_congr (hat _ (by decide)), hlog, he]
      | released counts entry n' m' _ _ _ hl _ he => rw [hl, hlog, he, keepNewest_concat]
    · obtain ⟨hp, hfree, he⟩ := hnew hi
      rw [hp, he, (h.absent k hfree).2]
      rfl
  · intro k hk
    have hk₀ : s.table.get? k = none := by
      cases hr : s.table.get? k with
      | none => rfl
      | some r =>
        obtain ⟨r', hr', -⟩ := step_of_some op hr
        have hk' : (step s.table op).get? k = none := hk
        rw [hk'] at hr'
        cases hr'
    have hno : ∀ r r', s.table.get? k = some r → ¬ Touch s.table k r op r' := by
      intro r r' hr
      rw [hk₀] at hr
      cases hr
    obtain ⟨hc, he⟩ := history_of_not_touched s.counted s.entries hno
    exact ⟨hc.trans (h.absent k hk₀).1, he.trans (h.absent k hk₀).2⟩

theorem counterFresh_step (s : Released) (op : QueueOp) (hinv : ReleaseInv s) (h : CounterFresh s)
    (hop : RetriesUnreleased s op) (hkeys : KeepsReleaseKeys op) : CounterFresh (relStep s op) := by
  intro k r' hr'
  rcases relStep_row hkeys hr' with ⟨r, hr, hk⟩ | hi
  · have hn := h k r hr
    cases hk with
    | same hat hc _ =>
      rw [hc]
      exact (JObj.intAt_congr (hat _ (by decide)) 0).trans hn
    | retried hat hc _ hzero =>
      rw [hc]
      exact (JObj.intAt_congr (hat _ (by decide)) 0).trans (hzero hop)
    | released counts entry n m hn₀ hn' _ _ hc _ =>
      obtain rfl : (s.counted k : Int) = n := Option.some.inj (hn.symm.trans hn₀)
      rw [hn', hc]
      cases counts <;> simp
  · cases hi with
    | enqueue hmax hkind hkey hfree =>
      show some 0 = some ((s.counted k : Nat) : Int)
      rw [(hinv.absent k hfree).1]
      rfl

/-! ## The releases answer -/

theorem release_answer {job : JobId} {r : JobRow} {worker : String}
    (hr : t.get? job = some r) (ho : r.ownedBy worker = true)
    (hn : r.progress.intAt "releases" 0 = some n) (hm : r.progress.intAt "shutdown_releases" 0 = some m)
    (now : Int) (cost : Option ℚ) (counted : Bool) (delay : Int) : (release t now job worker cost counted delay).2 =
      some (some (releaseStatus r.cancelRequested counted (n + (if counted then 1 else 0)))) := by
  simp only [release, hr, ho, releaseCounters_eq counted hn hm, if_true]

theorem uncountedNeverFails (s : Released) (op : QueueOp) : UncountedNeverFails s op := by
  cases op with
  | release now job worker cost counted delay =>
    cases counted with
    | true => trivial
    | false =>
      show (release s.table now job worker cost false delay).2 ≠ some (some .failed)
      unfold release
      cases s.table.get? job with
      | none => simp
      | some r =>
        dsimp only
        split
        · cases releaseCounters false r.progress with
          | none => simp
          | some x =>
            have hne : releaseStatus r.cancelRequested false x.1 ≠ .failed := by
              unfold releaseStatus
              cases r.cancelRequested <;> simp
            simpa using hne
        · simp
  | _ => trivial

theorem releaseStatus_counted : releaseStatus false true n = if maxReleases ≤ n then .failed else .queued := by
  simp [releaseStatus]

theorem CounterFresh.survived (h : CounterFresh s) (hinv : ReleaseInv s) (op : QueueOp) : ReleaseSurvived s op := by
  cases op with
  | release now job worker cost counted delay =>
    cases counted with
    | false => trivial
    | true =>
      intro r hr ho hcancel hlt
      obtain ⟨m, hm⟩ := hinv.shutdown job r hr
      rw [release_answer hr ho (h job r hr) hm, hcancel, if_pos rfl, releaseStatus_counted, if_neg (by omega)]
  | _ => trivial

theorem CounterFresh.budgetSafe (h : CounterFresh s) (hinv : ReleaseInv s) : BudgetSafe s := by
  intro more hmore
  induction more generalizing s with
  | nil => trivial
  | cons op more ih =>
    obtain ⟨hretry, hkeys⟩ := hmore op mem_cons_self
    have hun : RetriesUnreleased s op := by
      cases op with
      | retry now job => cases hretry
      | retryOne now job delay stopped => cases hretry
      | _ => trivial
    exact ⟨h.survived hinv op, ih (counterFresh_step s op hinv h hun hkeys)
      (releaseInv_step s op hinv hkeys) fun o ho => hmore o (mem_cons_of_mem _ ho)⟩

theorem BudgetSafe.step (h : BudgetSafe s) (op : QueueOp)
    (hretry : op.isRetry = false) (hkeys : KeepsReleaseKeys op) : ReleaseSurvived s op ∧ BudgetSafe (relStep s op) := by
  have hcons : ∀ more : List QueueOp, (∀ o ∈ more, o.isRetry = false ∧ KeepsReleaseKeys o) →
      Along relStep ReleaseSurvived s (op :: more) := by
    intro more hmore
    refine h (op :: more) fun o ho => ?_
    rcases mem_cons.1 ho with rfl | ho
    · exact ⟨hretry, hkeys⟩
    · exact hmore o ho
  exact ⟨(hcons [] (by simp)).1, fun more hmore => (hcons more hmore).2⟩

/-! ## A used counter shortens the budget -/

/-- Every id but `k`. -/
def others (t : JobTable) (k : JobId) : List JobId := (t.rows.map Prod.fst).filter fun x => x != k

theorem claimable_only {r : JobRow} {now : Int} (hr : t.get? k = some r)
    (hq : r.status = .queued) (hdue : r.runAfter ≤ now) (hc : r.cancelRequested = false) :
    claimable t now [(r.kind, (runningCount t r.kind : Int) + 1)] (others t k) = some (k, r) := by
  have hel : eligible t now [(r.kind, (runningCount t r.kind : Int) + 1)] k r = true := by
    refine eligible_iff.2 ⟨hq, hdue, hc, _, ?_, Int.lt_succ _⟩
    simp
  have hnot : k ∉ others t k := by simp [others]
  cases hcl : claimable t now [(r.kind, (runningCount t r.kind : Int) + 1)] (others t k) with
  | none =>
    have hnone := (Table.first?_eq_none_iff t _ _).1 hcl k r hr
    simp [hel, hnot] at hnone
  | some x =>
    obtain ⟨k', r'⟩ := x
    obtain ⟨hr', -, hfree, -⟩ := claimable_spec hcl
    have hkk : k' = k := by
      by_contra hne
      refine hfree (mem_filter.2 ⟨?_, by simpa using hne⟩)
      exact mem_map.2 ⟨(k', r'), (Table.get?_eq_some_iff t k' r').1 hr', rfl⟩
    subst hkk
    rw [Option.some.inj (hr.symm.trans hr')]

theorem BudgetSafe.release_once {r : JobRow} {now : Int}
    (h : BudgetSafe s) (hr : s.table.get? k = some r) (hq : r.status = .queued)
    (hdue : r.runAfter ≤ now) (hc : r.cancelRequested = false) (hn : r.progress.intAt "releases" 0 = some n)
    (hm : r.progress.intAt "shutdown_releases" 0 = some m) (hlt : (s.counted k : Int) < maxReleases - 1) :
    n + 1 < maxReleases ∧ ∃ s' r', BudgetSafe s' ∧ s'.table.get? k = some r' ∧
      r'.status = .queued ∧ r'.runAfter ≤ now ∧ r'.cancelRequested = false ∧
      r'.progress.intAt "releases" 0 = some (n + 1) ∧
      r'.progress.intAt "shutdown_releases" 0 = some (m + 1) ∧ s'.counted k = s.counted k + 1 := by
  let claimOp : QueueOp :=
    .claim now "w" [(r.kind, (runningCount s.table r.kind : Int) + 1)] 90 (others s.table k)
  let relOp : QueueOp := .release now k "w" none true 0
  obtain ⟨-, hsafe₁⟩ := h.step claimOp rfl trivial
  obtain ⟨hsurv, hsafe₂⟩ := hsafe₁.step relOp rfl trivial
  have htouch : Touch s.table k r claimOp (claimRow now "w" 90 r) :=
    .claim (claimable_only hr hq hdue hc)
  have hr₁ : (relStep s claimOp).table.get? k = some (claimRow now "w" 90 r) := step_touch hr htouch
  have hat := htouch.progress_at? trivial (by simp [claimOp])
  have hn₁ : (claimRow now "w" 90 r).progress.intAt "releases" 0 = some n :=
    (JObj.intAt_congr (hat _ (by decide)) 0).trans hn
  have hm₁ : (claimRow now "w" 90 r).progress.intAt "shutdown_releases" 0 = some m :=
    (JObj.intAt_congr (hat _ (by decide)) 0).trans hm
  have ho : (claimRow now "w" 90 r).ownedBy "w" = true := ownedBy_iff.2 ⟨rfl, rfl⟩
  have hans := hsurv _ hr₁ ho hc hlt
  have hstat : releaseStatus r.cancelRequested true (n + 1) = .queued := by
    rw [release_answer hr₁ ho hn₁ hm₁] at hans
    exact Option.some.inj (Option.some.inj hans)
  have hbound : n + 1 < maxReleases := by
    rw [hc, releaseStatus_counted] at hstat
    by_contra hge
    rw [if_pos (by omega)] at hstat
    cases hstat
  have hcnt := releaseCounters_eq true hn₁ hm₁
  have htouch₂ : Touch (relStep s claimOp).table k (claimRow now "w" 90 r) relOp
      (releaseRow now "w" none true (max 0 0) (n + 1) m (claimRow now "w" 90 r)) := .release ho hcnt
  refine ⟨hbound, relStep (relStep s claimOp) relOp, _, hsafe₂, step_touch hr₁ htouch₂, hstat, ?_, hc,
    releaseRow_releases _ _ _ _ _ _ _ _, releaseRow_shutdown _ _ _ _ _ _ _ _, ?_⟩
  · show now + secs (max 0 0) ≤ now
    simp [secs]
  · show (if k = k ∧ (release (relStep s claimOp).table now k "w" none true 0).2.join.isSome = true
      then s.counted k + (if true then 1 else 0) else s.counted k) = _
    rw [if_pos ⟨rfl, release_answered_iff.2 ⟨_, _, hr₁, ho, hcnt⟩⟩]
    rfl

theorem BudgetSafe.counter_zero {r : JobRow} {now : Int}
    (h : BudgetSafe s) (hr : s.table.get? k = some r) (hq : r.status = .queued)
    (hdue : r.runAfter ≤ now) (hc : r.cancelRequested = false) (hcount : s.counted k = 0)
    (hn : r.progress.intAt "releases" 0 = some n) (hpos : 0 ≤ n)
    (hm : r.progress.intAt "shutdown_releases" 0 = some m) : n = 0 := by
  have hmax : maxReleases = 3 := rfl
  obtain ⟨-, s', r', h', hr', hq', hdue', hc', hn', hm', hcount'⟩ :=
    h.release_once hr hq hdue hc hn hm (by omega)
  obtain ⟨hlt, -⟩ := h'.release_once hr' hq' hdue' hc' hn' hm' (by omega)
  omega

theorem retriesUnreleased_of_safe (s : Released) (op : QueueOp) (hs : ReleaseInv s ∧ BudgetSafe s)
    (h : ReleaseInv (relStep s op) ∧ BudgetSafe (relStep s op)) : RetriesUnreleased s op := by
  -- a retried row waits at `run_after`, keeps its counters and has its history cleared
  have key : ∀ (k : JobId) (r : JobRow) (now delay : Int), s.table.get? k = some r →
      Touch s.table k r op (retryRow now delay r) → (relStep s op).counted k = 0 →
      r.progress.intAt "releases" 0 = some 0 := by
    intro k r now delay hr ht hcount
    obtain ⟨n, hpos, hn⟩ := hs.1.releases k r hr
    obtain ⟨m, hm⟩ := hs.1.shutdown k r hr
    obtain rfl := h.2.counter_zero (step_touch hr ht) rfl (le_refl (now + secs delay)) rfl hcount hn
      hpos hm
    exact hn
  cases op with
  | retry now job =>
    intro r hr hret
    exact key job r now 0 hr (.retry hret) (if_pos ⟨rfl, retry_answered_iff.2 ⟨r, hr, hret⟩⟩)
  | retryOne now job delay stopped =>
    intro r hr hret
    exact key job r now delay hr (.retryOne hret)
      (if_pos ⟨rfl, retryOne_answered_iff.2 ⟨r, hr, hret⟩⟩)
  | _ => trivial

/-- **The exact condition.**  In every run an uncounted release never fails its job
and the log is the newest entries in order.  Along a run whose retries find the
counter at 0, a job survives `MAX_RELEASES - 1` counted releases after an enqueue
or a retry.  And no weaker condition on the retries is enough: the budget is there
whatever follows every state of a run exactly if its retries meet it. -/
theorem releaseBudget_iff (ops : List QueueOp) (hkeys : ∀ op ∈ ops, KeepsReleaseKeys op) :
    Along relStep UncountedNeverFails Released.init ops ∧ Always relStep LogOk Released.init ops ∧
    (Along relStep RetriesUnreleased Released.init ops → Along relStep ReleaseSurvived Released.init ops) ∧
    (Always relStep BudgetSafe Released.init ops ↔ Along relStep RetriesUnreleased Released.init ops) := by
  have hinv : Always relStep ReleaseInv Released.init ops :=
    Along.always releaseInv_step releaseInv_init (along_of_forall hkeys)
  have hfresh : Along relStep RetriesUnreleased Released.init ops →
      Always relStep (fun s => ReleaseInv s ∧ CounterFresh s) Released.init ops := by
    intro h
    refine Along.always ?_ ⟨releaseInv_init, Table.All.empty⟩ (h.and_forall hkeys)
    intro s op hs hop
    exact ⟨releaseInv_step s op hs.1 hop.2, counterFresh_step s op hs.1 hs.2 hop.1 hop.2⟩
  refine ⟨?_, ?_, fun h => ?_, fun h => ?_, fun h => ?_⟩
  · exact Along.imp_of_always (fun s op _ _ => uncountedNeverFails s op) hinv (along_of_forall hkeys)
  · refine hinv.mono fun s hs k r hr => ?_
    have hlog := hs.log k r hr
    exact ⟨hlog, by rw [hlog]; exact keepNewest_length _⟩
  · exact Along.imp_of_always (fun s op hs _ => hs.2.survived hs.1 op) (hfresh h) h
  · exact Always.along retriesUnreleased_of_safe (hinv.and h)
  · exact (hfresh h).mono fun s hs => hs.2.budgetSafe hs.1

/-- A deploy releases the job without counting, an admin cancels and retries it, and
the retried job is released once, counted. -/
def deployRelease : List QueueOp :=
  [.enqueue 0 7 "s1_rewrite" [] none 3 none none none,
   .claim 1 "w" [("s1_rewrite", 1)] 90 [],
   .setProgress 2 7 [("stage", .str "draft")] none,
   .release 3 7 "w" none false 0,
   .requestCancel 4 7,
   .retry 5 7,
   .claim 6 "v" [("s1_rewrite", 1)] 90 [],
   .release 7 7 "v" none true 0]

theorem deployRelease_survived : (∀ op ∈ deployRelease, KeepsReleaseKeys op) ∧
    Along relStep ReleaseSurvived Released.init deployRelease := by
  have hkeys : ∀ op ∈ deployRelease, KeepsReleaseKeys op := by
    intro op hop
    simp only [deployRelease, mem_cons, not_mem_nil, or_false] at hop
    rcases hop with rfl | rfl | rfl | rfl | rfl | rfl | rfl | rfl
    · trivial
    · trivial
    · intro key hkey
      simp only [releaseKeys, mem_cons, not_mem_nil, or_false] at hkey
      rcases hkey with rfl | rfl | rfl <;> rfl
    all_goals trivial
  have hzero : ((run relStep Released.init (deployRelease.take 5)).table.get? 7).any
      (fun r => r.progress.intAt "releases" 0 == some 0) = true := by decide +kernel
  refine ⟨hkeys, (releaseBudget_iff deployRelease hkeys).2.2.1
    ⟨trivial, trivial, trivial, trivial, trivial, ?_, trivial, trivial, trivial⟩⟩
  intro r hr _
  have hr' : (run relStep Released.init (deployRelease.take 5)).table.get? 7 = some r := hr
  rw [hr'] at hzero
  simpa using hzero

/-- Three counted releases fail the job and an admin retries it. -/
def releasedOutAndRetried : List QueueOp :=
  [.enqueue 0 7 "s1_rewrite" [] none 3 none none none,
   .claim 1 "w" [("s1_rewrite", 1)] 90 [],
   .release 2 7 "w" none true 0,
   .claim 3 "w" [("s1_rewrite", 1)] 90 [],
   .release 4 7 "w" none true 0,
   .claim 5 "w" [("s1_rewrite", 1)] 90 [],
   .release 6 7 "w" none true 0,
   .retry 7 7,
   .claim 8 "w" [("s1_rewrite", 1)] 90 []]

/-- The first release of the retried job fails it. -/
theorem retried_job_not_fresh : ¬ ∀ ops, (∀ op ∈ ops, KeepsReleaseKeys op) →
    Along relStep ReleaseSurvived Released.init ops := by
  intro h
  have hkeys : ∀ op ∈ releasedOutAndRetried ++ [.release 9 7 "w" none true 0], KeepsReleaseKeys op := by
    intro op hop
    simp only [releasedOutAndRetried, cons_append, nil_append, mem_cons, not_mem_nil, or_false] at hop
    rcases hop with rfl | rfl | rfl | rfl | rfl | rfl | rfl | rfl | rfl | rfl
    all_goals trivial
  have hlast := (along_append.1 (h _ hkeys)).2.1
  have hcount : (run relStep Released.init releasedOutAndRetried).counted 7 = 0 := by decide +kernel
  have hrow : ((run relStep Released.init releasedOutAndRetried).table.get? 7).any
      (fun r => r.ownedBy "w" && !r.cancelRequested) = true := by decide +kernel
  have hans : (release (run relStep Released.init releasedOutAndRetried).table 9 7 "w" none true
      0).2 = some (some .failed) := by decide +kernel
  generalize run relStep Released.init releasedOutAndRetried = s at *
  cases hr : s.table.get? 7 with
  | none => simp [hr] at hrow
  | some r =>
    simp only [hr, Option.any_some, Bool.and_eq_true, Bool.not_eq_true'] at hrow
    have hq := hlast r hr hrow.1 hrow.2 (by rw [hcount]; decide)
    rw [hans] at hq
    cases hq

end CisApp.Jobs
