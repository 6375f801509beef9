import CisApp.Jobs.Execution

/-!
# The stored cost of a job

An execution starts from the cost it read at claim time, adds to it, and writes
the sum back: `ctx.progress` without any guard, the outcome calls under the
worker's guard.  So the cost can be written by every execution whose handler is
still running, and by a live one whose worker has the row (`Writes`).

While a job has one writer, its sum is at least what is stored (`CostInv`), up
to the rounding: `progress` rounds half to even before the column rounds half
away from zero, and the two calls that pass the unrounded sum are the last their
execution makes.  A second writer starts below or stays below the first, and the
one that writes last wins.  The cost never goes down along a run exactly if no
claim of the run gives a job a second writer (`costGrows_iff`).
-/

namespace CisApp.Jobs

open List

/-- No step lowers the stored cost of a row. -/
def CostGrows (s : Sys) (op : SysOp) : Prop :=
  ∀ k r r', s.table.get? k = some r → (sysStep s op).table.get? k = some r' →
    r.costUsd ≤ r'.costUsd

/-- `ctx.add_cost` gets a non-negative amount. -/
def AddsNonneg : SysOp → Prop
  | .addCost _ usd => 0 ≤ usd
  | _ => True

/-- The claim takes no job that an earlier execution can still write: none whose
handler runs, and no live one of the claiming worker. -/
def ClaimsAlone (s : Sys) : SysOp → Prop
  | .claim now worker caps _ locked => ∀ k r, claimable s.table now caps locked = some (k, r) →
      ∀ e ∈ s.execs, e.job.id = k → e.handling = false ∧ (e.worker = worker → e.live = false)
  | _ => True

def SysOp.isClaim : SysOp → Bool
  | .claim .. => true
  | _ => false

/-- Whatever the executions do next, until the next claim no cost goes down. -/
def CostSafe (s : Sys) : Prop :=
  ∀ more : List SysOp, (∀ op ∈ more, op.isClaim = false ∧ AddsNonneg op) →
    Along sysStep CostGrows s more

def Writes (t : JobTable) (e : Exec) : Prop :=
  e.handling = true ∨ (e.live = true ∧ owns t e.job.id e.worker = true)

def Exec.written (e : Exec) : Int := roundHalfEven (e.costUsd * 1000000)

structure CostInv (s : Sys) : Prop where
  row_nonneg : ∀ (k : JobId) (r : JobRow), s.table.get? k = some r → 0 ≤ r.costUsd
  sum_nonneg : ∀ (i : Nat) (e : Exec), s.execs[i]? = some e → 0 ≤ e.costUsd
  unique : ∀ (i j : Nat) (e f : Exec), s.execs[i]? = some e → s.execs[j]? = some f →
    e.job.id = f.job.id → Writes s.table e → Writes s.table f → i = j
  above : ∀ (i : Nat) (e : Exec) (r : JobRow), s.execs[i]? = some e → Writes s.table e →
    s.table.get? e.job.id = some r → r.costUsd ≤ e.written

/-! ## The costs a statement passes -/

/-- The cost the statement passes; `none` keeps the column. -/
def QueueOp.cost : QueueOp → Option ℚ
  | .setProgress _ _ _ cost => cost
  | .complete _ _ _ _ cost => cost
  | .stopBudget _ _ _ _ _ cost => cost
  | .markCancelled _ _ _ cost => cost
  | .fail _ _ _ _ _ cost _ _ => cost
  | .release _ _ _ cost _ _ => cost
  | _ => none

variable {t : JobTable} {k : JobId} {r : JobRow}

theorem Touch.costUsd_eq {r' : JobRow} {op : QueueOp} (h : Touch t k r op r') : r'.costUsd = r.newCost op.cost := by
  cases h <;> rfl

variable {q : QueueOp}

theorem QueueOp.ambient_cost (h : q.ambient = true) : q.cost = none := by
  cases q <;> first | rfl | cases h

variable {e : Exec} {now : Int} {c : OutcomeCall}

theorem Exec.le_newCost (h : r.costUsd ≤ e.written) (hn : 0 ≤ e.costUsd) : r.costUsd ≤ r.newCost (e.op now c).cost := by
  have hround : r.costUsd ≤ storedCost (round6 e.costUsd) := by
    rw [storedCost_round6]
    exact h
  have hexact : r.costUsd ≤ storedCost e.costUsd :=
    h.trans (roundHalfEven_le_roundHalfAway (by positivity))
  cases c with
  | heartbeat lease => exact le_refl _
  | complete result => exact hround
  | stopBudget error result => exact hround
  | markCancelled => exact hexact
  | fail error retryable result rand => exact hround
  | noHandler => exact le_refl _
  | release counted delay => exact hexact

theorem Exec.newCost_le (h : r.costUsd ≤ e.written)
    (hc : c.besideHandler = true) : r.newCost (e.op now c).cost ≤ e.written := by
  cases c with
  | heartbeat lease => exact h
  | fail error retryable result rand =>
    show storedCost (round6 e.costUsd) ≤ e.written
    rw [storedCost_round6]
    exact le_refl _
  | _ => cases hc

theorem Exec.op_running {r' : JobRow} (h : Touch t k r (e.op now c) r') (hs : r'.status = .running) :
    c.besideHandler = true := by
  cases c with
  | heartbeat lease => rfl
  | fail error retryable result rand => rfl
  | complete result => cases h with | complete ho => cases hs
  | stopBudget error result => cases h with | stopBudget ho => cases hs
  | markCancelled => cases h with | markCancelled ho => cases hs
  | noHandler =>
    cases h with
    | failRequeue hid ho hr => cases hs
    | failEnd hid ho hr => cases hs
  | release counted delay =>
    cases h with
    | release ho hc => exact absurd hs (releaseStatus_ne_running _ _ _)

/-! ## One step -/

variable {worker : String}

theorem owns_of_step (hq : ∀ now worker caps lease locked, q ≠ .claim now worker caps lease locked)
    (h : owns (step t q) k worker = true) : owns t k worker = true := by
  obtain ⟨r', hr', ho⟩ := owns_iff.1 h
  obtain ⟨hs, hby⟩ := ownedBy_iff.1 ho
  obtain ⟨r, hr, hs₀, hby₀, -⟩ := step_stays hr' hs hq
  exact owns_iff.2 ⟨r, hr, ownedBy_iff.2 ⟨hs₀, hby₀ ▸ hby⟩⟩

theorem Writes.of_step (hq : ∀ now worker caps lease locked, q ≠ .claim now worker caps lease locked)
    (h : Writes (step t q) e) : Writes t e := by
  rcases h with hh | ⟨hl, ho⟩
  · exact Or.inl hh
  · exact Or.inr ⟨hl, owns_of_step hq ho⟩

variable {s : Sys}

theorem costInv_issue (h : CostInv s) (hq : ∀ now worker caps lease locked, q ≠ .claim now worker caps lease locked)
    (hgrow : ∀ k r r', s.table.get? k = some r → Touch s.table k r q r' → r.costUsd ≤ r'.costUsd)
    (habove : ∀ (i : Nat) (e : Exec) (r r' : JobRow), s.execs[i]? = some e → Writes (step s.table q) e →
      s.table.get? e.job.id = some r → Touch s.table e.job.id r q r' → r'.costUsd ≤ e.written) : CostInv (s.issue q) := by
  constructor
  · intro k r' hr'
    rcases step_cases hr' with ⟨r, hr, rfl | ht⟩ | hi
    · exact h.row_nonneg k r' hr
    · exact (h.row_nonneg k r hr).trans (hgrow k r r' hr ht)
    · cases hi with
      | enqueue => exact le_refl _
  · exact h.sum_nonneg
  · intro i j e f he hf hid hwe hwf
    exact h.unique i j e f he hf hid (hwe.of_step hq) (hwf.of_step hq)
  · intro i e r' he hw hr'
    rcases step_cases hr' with ⟨r, hr, rfl | ht⟩ | hi
    · exact h.above i e r' he (hw.of_step hq) hr
    · exact habove i e r r' he hw hr ht
    · cases hi with
      | enqueue =>
        have hn := h.sum_nonneg i e he
        exact roundHalfEven_nonneg (by positivity)

variable {i : Nat}

theorem costInv_setExec {f : Exec → Exec} (h : CostInv s) (hf : ∀ e, (f e).job = e.job ∧ e.costUsd ≤ (f e).costUsd)
    (hw : ∀ e, s.execs[i]? = some e → Writes s.table (f e) → Writes s.table e) : CostInv (s.setExec i f) := by
  -- every execution of after is one of before with the same job and at least its sum
  have hold : ∀ (j : Nat) (e' : Exec), (s.setExec i f).execs[j]? = some e' →
      ∃ e, s.execs[j]? = some e ∧ e'.job = e.job ∧ e.costUsd ≤ e'.costUsd ∧
        (Writes s.table e' → Writes s.table e) := by
    intro j e' he'
    obtain ⟨e, he, ⟨rfl, rfl⟩ | rfl⟩ := setExec_execs he'
    · exact ⟨e, he, (hf e).1, (hf e).2, hw e he⟩
    · exact ⟨e', he, rfl, le_refl _, id⟩
  constructor
  · exact h.row_nonneg
  · intro j e' he'
    obtain ⟨e, he, -, hc, -⟩ := hold j e' he'
    exact (h.sum_nonneg j e he).trans hc
  · intro j₁ j₂ e₁ e₂ he₁ he₂ hid hw₁ hw₂
    obtain ⟨f₁, hf₁, hjob₁, -, hwf₁⟩ := hold j₁ e₁ he₁
    obtain ⟨f₂, hf₂, hjob₂, -, hwf₂⟩ := hold j₂ e₂ he₂
    rw [hjob₁, hjob₂] at hid
    exact h.unique j₁ j₂ f₁ f₂ hf₁ hf₂ hid (hwf₁ hw₁) (hwf₂ hw₂)
  · intro j e' r he' hwr hr
    obtain ⟨e, he, hjob, hc, hwe⟩ := hold j e' he'
    rw [hjob] at hr
    have hle := h.above j e r he (hwe hwr) hr
    have hmono : e.written ≤ e'.written := roundHalfEven_mono (by linarith)
    omega

theorem Writes.of_claim {caps : List (String × Int)} {lease : Int} {locked : List JobId}
    (hc : claimable s.table now caps locked = some (k, r))
    (halone : ClaimsAlone s (.claim now worker caps lease locked)) (hmem : e ∈ s.execs)
    (hw : Writes (step s.table (.claim now worker caps lease locked)) e) : Writes s.table e ∧ e.job.id ≠ k := by
  have hne : e.job.id ≠ k := by
    intro hek
    obtain ⟨hh, hl⟩ := halone k r hc e hmem hek
    rcases hw with hw | ⟨hlive, ho⟩
    · rw [hh] at hw
      cases hw
    · obtain ⟨r', hr', ho'⟩ := owns_iff.1 ho
      have hworker : e.worker = worker := claim_owner hc (hek ▸ hr') ho'
      rw [hl hworker] at hlive
      cases hlive
  refine ⟨?_, hne⟩
  rcases hw with hw | ⟨hlive, ho⟩
  · exact Or.inl hw
  · obtain ⟨r', hr', ho'⟩ := owns_iff.1 ho
    exact Or.inr ⟨hlive, owns_iff.2 ⟨r', claim_keeps hc hr' hne, ho'⟩⟩

theorem costInv_started {caps : List (String × Int)} {lease : Int} {locked : List JobId}
    (hc : claimable s.table now caps locked = some (k, r)) (h : CostInv s)
    (halone : ClaimsAlone s (.claim now worker caps lease locked)) :
    CostInv (s.started (step s.table (.claim now worker caps lease locked))
      (toJob k (claimRow now worker lease r)) worker) := by
  have hk := (claimable_spec hc).1
  have hrow : (step s.table (.claim now worker caps lease locked)).get? k =
      some (claimRow now worker lease r) := claim_row hc
  constructor
  · intro k' r' hr'
    by_cases hk' : k' = k
    · have hr'' : (step s.table (.claim now worker caps lease locked)).get? k' = some r' := hr'
      rw [hk', hrow] at hr''
      obtain rfl := Option.some.inj hr''
      exact h.row_nonneg k r hk
    · exact h.row_nonneg k' r' (claim_keeps hc hr' hk')
  · intro i e he
    rcases started_execs he with he | ⟨-, rfl⟩
    · exact h.sum_nonneg i e he
    · have hn := h.row_nonneg k r hk
      show (0 : ℚ) ≤ (r.costUsd : ℚ) / 1000000
      positivity
  · intro i j e f he hf hid hwe hwf
    rcases started_execs he with he | ⟨rfl, rfl⟩
    · obtain ⟨hwe', hne⟩ := hwe.of_claim hc halone (mem_of_getElem? he)
      rcases started_execs hf with hf | ⟨-, rfl⟩
      · exact h.unique i j e f he hf hid hwe' (hwf.of_claim hc halone (mem_of_getElem? hf)).1
      · exact absurd hid hne
    · rcases started_execs hf with hf | ⟨rfl, -⟩
      · exact absurd hid.symm (hwf.of_claim hc halone (mem_of_getElem? hf)).2
      · rfl
  · intro i e r' he hw hr'
    rcases started_execs he with he | ⟨-, rfl⟩
    · obtain ⟨hw', hne⟩ := hw.of_claim hc halone (mem_of_getElem? he)
      exact h.above i e r' he hw' (claim_keeps hc hr' hne)
    · have hr'' : (step s.table (.claim now worker caps lease locked)).get? k = some r' := hr'
      rw [hrow] at hr''
      obtain rfl := Option.some.inj hr''
      show r.costUsd ≤ roundHalfEven ((r.costUsd : ℚ) / 1000000 * 1000000)
      rw [div_mul_cancel₀ _ (by norm_num), roundHalfEven_intCast]

/-! ## What each move does to the costs -/

theorem keeps_cost (hq : q.cost = none) (k : JobId) (r r' : JobRow)
    (_ : t.get? k = some r) (h : Touch t k r q r') : r'.costUsd = r.costUsd := by
  rw [h.costUsd_eq, hq]
  rfl

theorem outcome_grows (h : CostInv s)
    (he : s.execs[i]? = some e) (hen : e.enabled c = true) (k : JobId) (r r' : JobRow)
    (hr : s.table.get? k = some r) (ht : Touch s.table k r (e.op now c) r') : r.costUsd ≤ r'.costUsd := by
  obtain ⟨rfl, ho⟩ := Exec.op_touch ht
  have hw : Writes s.table e := Or.inr ⟨Exec.live_of_enabled hen, owns_iff.2 ⟨r, hr, ho⟩⟩
  rw [ht.costUsd_eq]
  exact Exec.le_newCost (h.above i e r he hw hr) (h.sum_nonneg i e he)

theorem outcome_above (h : CostInv s)
    (he : s.execs[i]? = some e) (hen : e.enabled c = true) (j : Nat) (f : Exec) (r r' : JobRow)
    (hf : s.execs[j]? = some f) (hw : Writes (step s.table (e.op now c)) f)
    (hr : s.table.get? f.job.id = some r) (ht : Touch s.table f.job.id r (e.op now c) r') : r'.costUsd ≤ f.written := by
  obtain ⟨hid, ho⟩ := Exec.op_touch ht
  simp only [Exec.enabled, Bool.and_eq_true, Bool.or_eq_true, Bool.not_eq_true'] at hen
  have hwe : Writes s.table e := Or.inr ⟨hen.1, owns_iff.2 ⟨r, hid ▸ hr, ho⟩⟩
  -- the only writer is the caller itself
  obtain rfl : i = j := h.unique i j e f he hf hid.symm hwe (hw.of_step Exec.op_ne_claim)
  obtain rfl : e = f := Option.some.inj (he.symm.trans hf)
  have hbeside : c.besideHandler = true := by
    rcases hw with hh | ⟨-, hown⟩
    · rcases hen.2 with hb | hn
      · exact hb
      · rw [hh] at hn
        cases hn
    · obtain ⟨r₁, hr₁, ho₁⟩ := owns_iff.1 hown
      obtain rfl : r' = r₁ := Option.some.inj ((step_touch hr ht).symm.trans hr₁)
      exact Exec.op_running ht (ownedBy_iff.1 ho₁).1
  rw [ht.costUsd_eq]
  exact Exec.newCost_le (h.above i e r he hwe hr) hbeside

variable {fields : JObj}

theorem progress_grows (h : CostInv s)
    (he : s.execs[i]? = some e) (hh : e.handling = true) (k : JobId) (r r' : JobRow) (hr : s.table.get? k = some r)
    (ht : Touch s.table k r (.setProgress now e.job.id fields (some (round6 e.costUsd))) r') : r.costUsd ≤ r'.costUsd := by
  cases ht with
  | setProgress =>
    show r.costUsd ≤ storedCost (round6 e.costUsd)
    rw [storedCost_round6]
    exact h.above i e r he (Or.inl hh) hr

theorem setProgress_touch {job : JobId} {r' : JobRow}
    {cost : Option ℚ} (h : Touch t k r (.setProgress now job fields cost) r') : k = job := by
  cases h
  rfl

theorem progress_above (h : CostInv s)
    (he : s.execs[i]? = some e) (hh : e.handling = true) (j : Nat) (f : Exec) (r r' : JobRow)
    (hf : s.execs[j]? = some f)
    (hw : Writes (step s.table (.setProgress now e.job.id fields (some (round6 e.costUsd)))) f)
    (ht : Touch s.table f.job.id r (.setProgress now e.job.id fields (some (round6 e.costUsd))) r') :
    r'.costUsd ≤ f.written := by
  have hid : f.job.id = e.job.id := setProgress_touch ht
  obtain rfl : i = j := h.unique i j e f he hf hid.symm (Or.inl hh) (hw.of_step (by simp))
  obtain rfl : e = f := Option.some.inj (he.symm.trans hf)
  rw [ht.costUsd_eq]
  show storedCost (round6 e.costUsd) ≤ e.written
  rw [storedCost_round6]
  exact le_refl _

theorem costInv_step (s : Sys) (op : SysOp) (h : CostInv s) (hop : ClaimsAlone s op ∧ AddsNonneg op) :
    CostInv (sysStep s op) := by
  rcases sysStep_cases s op with he | hm
  · rw [he]
    exact h
  · generalize sysStep s op = s' at hm
    cases hm with
    | claim hc => exact costInv_started hc h hop.1
    | @outcome now i c e he hen =>
      have hissue : CostInv (s.issue (e.op now c)) := costInv_issue h Exec.op_ne_claim
        (outcome_grows h he hen) (outcome_above h he hen)
      refine costInv_setExec hissue (fun _ => ⟨rfl, le_refl _⟩) fun e' he' hw => ?_
      obtain rfl : e = e' := Option.some.inj (he.symm.trans he')
      rcases hw with hh | ⟨-, ho⟩
      · exact Or.inl hh
      · exact Or.inr ⟨Exec.live_of_enabled hen, ho⟩
    | progress he hh =>
      exact costInv_issue h (by simp) (progress_grows h he hh)
        fun j f r r' hf hw _ ht => progress_above h he hh j f r r' hf hw ht
    | @addCost i usd =>
      have hadd : 0 ≤ usd := hop.2
      refine costInv_setExec h (fun e => ?_) (fun e _ hw => ?_)
      · split
        · exact ⟨rfl, by show e.costUsd ≤ e.costUsd + usd; linarith⟩
        · exact ⟨rfl, le_refl _⟩
      · split at hw
        · exact hw
        · exact hw
    | handlerEnds =>
      refine costInv_setExec h (fun _ => ⟨rfl, le_refl _⟩) fun e _ hw => ?_
      exact hw.imp (nofun) id
    | leave =>
      refine costInv_setExec h (fun _ => ⟨rfl, le_refl _⟩) fun e _ hw => ?_
      exact hw.imp id (fun hl => by cases hl.1)
    | @other q hamb =>
      have hcost := QueueOp.ambient_cost hamb
      refine costInv_issue h (QueueOp.ambient_ne_claim hamb) (fun k r r' hr ht => ?_)
        (fun i e r r' he hw hr ht => ?_)
      · exact (keeps_cost hcost k r r' hr ht).ge
      · rw [keeps_cost hcost e.job.id r r' hr ht]
        exact h.above i e r he (hw.of_step (QueueOp.ambient_ne_claim hamb)) hr

theorem CostInv.grows (h : CostInv s) (op : SysOp) : CostGrows s op := by
  intro k r r' hr hr'
  rw [sysStep_table] at hr'
  have hgrow : ∀ q, op.issues s = some q → ∀ r', Touch s.table k r q r' → r.costUsd ≤ r'.costUsd := by
    intro q hq r' ht
    cases op with
    | claim now worker caps lease locked =>
      cases hq
      exact (keeps_cost rfl k r r' hr ht).ge
    | outcome now i c =>
      obtain ⟨e, he, hen, rfl⟩ := issues_outcome hq
      exact outcome_grows h he hen k r r' hr ht
    | progress now i fields =>
      obtain ⟨e, he, hh, rfl⟩ := issues_progress hq
      exact progress_grows h he hh k r r' hr ht
    | other q' hamb =>
      cases hq
      exact (keeps_cost (QueueOp.ambient_cost hamb) k r r' hr ht).ge
    | addCost i usd => cases hq
    | handlerEnds i => cases hq
    | leave i => cases hq
  cases hq : op.issues s with
  | none =>
    rw [hq] at hr'
    obtain rfl : r = r' := Option.some.inj (hr.symm.trans hr')
    exact le_refl _
  | some q =>
    rw [hq] at hr'
    obtain ⟨r₁, hr₁, hcase⟩ := step_of_some q hr
    obtain rfl : r₁ = r' := Option.some.inj (hr₁.symm.trans hr')
    rcases hcase with rfl | ht
    · exact le_refl _
    · exact hgrow q hq r₁ ht

theorem CostInv.costSafe (h : CostInv s) : CostSafe s := by
  intro more hmore
  induction more generalizing s with
  | nil => trivial
  | cons op more ih =>
    obtain ⟨hclaim, hadd⟩ := hmore op mem_cons_self
    have halone : ClaimsAlone s op := by
      cases op with
      | claim now worker caps lease locked => cases hclaim
      | _ => trivial
    exact ⟨h.grows op, ih (costInv_step s op h ⟨halone, hadd⟩)
      fun o ho => hmore o (mem_cons_of_mem _ ho)⟩

theorem costInv_init : CostInv Sys.init where
  row_nonneg := fun _ _ h => (by cases h)
  sum_nonneg := fun _ _ h => (by cases h)
  unique := fun _ _ _ _ h => (by cases h)
  above := fun _ _ _ h => (by cases h)

/-! ## Two writers lose a cost -/

theorem progress_execs (s : Sys) (now : Int) (i : Nat) (fields : JObj) :
    (sysStep s (.progress now i fields)).execs = s.execs := by
  simp only [sysStep]
  cases s.execs[i]? with
  | none => rfl
  | some e =>
    dsimp only
    split <;> rfl

theorem progress_row (now : Int) (fields : JObj)
    (he : s.execs[i]? = some e) (hh : e.handling = true) (hr : s.table.get? e.job.id = some r) :
    (sysStep s (.progress now i fields)).table.get? e.job.id =
      some (setProgressRow now fields (some (round6 e.costUsd)) r) := by
  simp only [sysStep, he, hh, if_true]
  exact step_touch hr .setProgress

theorem fail_row (now : Int) (error : String)
    (he : s.execs[i]? = some e) (hl : e.live = true) (hr : s.table.get? e.job.id = some r)
    (ho : r.ownedBy e.worker = true) : (sysStep s (.outcome now i (.fail error false none 0))).table.get? e.job.id =
      some (finishRow now .failed none (some error) (some (round6 e.costUsd)) r) := by
  have hen : e.enabled (.fail error false none 0) = true := by
    simp [Exec.enabled, OutcomeCall.besideHandler, hl]
  simp only [sysStep, he, hen, if_true]
  exact step_touch hr (.failEnd rfl ho rfl)

theorem outrun {n : Nat} {f : Exec} (hf : s.execs[n]? = some f)
    (hr : s.table.get? f.job.id = some r) (hsum : f.costUsd = (r.costUsd : ℚ) / 1000000)
    (hh : f.handling = true) (bound : Int) :
    ∃ usd r₂, 0 ≤ usd ∧ bound < r₂.costUsd ∧ (∀ w, r₂.ownedBy w = r.ownedBy w) ∧
      (sysStep (sysStep s (.addCost n usd)) (.progress 0 n [])).table.get? f.job.id = some r₂ ∧ ∀ i, i ≠ n →
        (sysStep (sysStep s (.addCost n usd)) (.progress 0 n [])).execs[i]? = s.execs[i]? := by
  let micros : Int := |bound| + |r.costUsd| + 1
  let f' : Exec := { f with costUsd := f.costUsd + (micros : ℚ) / 1000000 }
  have hf' : (sysStep s (.addCost n ((micros : ℚ) / 1000000))).execs[n]? = some f' := by
    show (s.execs.modify n _)[n]? = _
    rw [List.getElem?_modify_eq, hf]
    show some (if f.handling then _ else f) = _
    rw [if_pos hh]
  have hwritten : f'.written = r.costUsd + micros := by
    have hval : f'.costUsd * 1000000 = ((r.costUsd + micros : Int) : ℚ) := by
      show (f.costUsd + (micros : ℚ) / 1000000) * 1000000 = _
      rw [hsum, ← add_div, div_mul_cancel₀ _ (by norm_num)]
      push_cast
      ring
    show roundHalfEven (f'.costUsd * 1000000) = _
    rw [hval, roundHalfEven_intCast]
  refine ⟨(micros : ℚ) / 1000000, setProgressRow 0 [] (some (round6 f'.costUsd)) r, ?_, ?_,
    fun w => rfl, progress_row 0 [] hf' hh hr, fun i hi => ?_⟩
  · positivity
  · show bound < storedCost (round6 f'.costUsd)
    have hstored : storedCost (round6 f'.costUsd) = f'.written := storedCost_round6 f'.costUsd
    have h1 := neg_abs_le r.costUsd
    have h2 := le_abs_self bound
    omega
  · rw [progress_execs]
    exact List.getElem?_modify_ne _ s.execs hi.symm

theorem not_costSafe_of_second {n : Nat} {f : Exec}
    (he : s.execs[i]? = some e) (hf : s.execs[n]? = some f) (hne : i ≠ n)
    (hid : e.job.id = f.job.id) (hr : s.table.get? f.job.id = some r)
    (hsum : f.costUsd = (r.costUsd : ℚ) / 1000000) (hh : f.handling = true) (hw : Writes s.table e) : ¬ CostSafe s := by
  intro hsafe
  obtain ⟨usd, r₂, husd, hlow, hown₂, hrow, hexecs⟩ := outrun hf hr hsum hh e.written
  have he₂ := (hexecs i hne).trans he
  -- any third step that is no claim must not lower what `progress` stored
  have hthird : ∀ op, op.isClaim = false → AddsNonneg op →
      CostGrows (sysStep (sysStep s (.addCost n usd)) (.progress 0 n [])) op := by
    intro op hclaim hadd
    have hmore : ∀ op' ∈ [SysOp.addCost n usd, .progress 0 n [], op],
        op'.isClaim = false ∧ AddsNonneg op' := by
      intro op' hop'
      simp only [mem_cons, not_mem_nil, or_false] at hop'
      rcases hop' with rfl | rfl | rfl
      · exact ⟨rfl, husd⟩
      · exact ⟨rfl, trivial⟩
      · exact ⟨hclaim, hadd⟩
    exact (hsafe _ hmore).2.2.1
  have hwrites : storedCost (round6 e.costUsd) = e.written := storedCost_round6 e.costUsd
  rcases hw with hhe | ⟨hlive, hown⟩
  · -- the old handler reports progress
    have hle : r₂.costUsd ≤ storedCost (round6 e.costUsd) := hthird (.progress 0 i []) rfl trivial
      f.job.id _ _ hrow (hid ▸ progress_row 0 [] he₂ hhe (hid ▸ hrow))
    omega
  · -- the old execution fails the row under its worker's id
    obtain ⟨r₀, hr₀, ho⟩ := owns_iff.1 hown
    obtain rfl : r₀ = r := Option.some.inj (hr₀.symm.trans (hid ▸ hr))
    have ho₂ : r₂.ownedBy e.worker = true := (hown₂ e.worker).trans ho
    have hle : r₂.costUsd ≤ storedCost (round6 e.costUsd) :=
      hthird (.outcome 0 i (.fail "" false none 0)) rfl trivial
        f.job.id _ _ hrow (hid ▸ fail_row 0 "" he₂ hlive (hid ▸ hrow) ho₂)
    omega

theorem claimsAlone_of_costSafe (s : Sys) (op : SysOp) (_ : CostSafe s)
    (h : CostSafe (sysStep s op)) : ClaimsAlone s op := by
  cases op with
  | claim now worker caps lease locked =>
    intro k r hc e hmem hek
    by_contra hbad
    rw [sysStep_claim hc] at h
    have hrow : (step s.table (.claim now worker caps lease locked)).get? k =
        some (claimRow now worker lease r) := claim_row hc
    obtain ⟨i, hi, hold⟩ := execs_started hmem (step s.table (.claim now worker caps lease locked))
      (toJob k (claimRow now worker lease r)) worker
    have hw : Writes (step s.table (.claim now worker caps lease locked)) e := by
      by_cases hh : e.handling = true
      · exact Or.inl hh
      · have hlive : e.worker = worker ∧ e.live = true := by
          by_contra hn
          exact hbad ⟨by simpa using hh, fun hwk => by simpa [hwk] using hn⟩
        refine Or.inr ⟨hlive.2, owns_iff.2 ⟨_, hek ▸ hrow, ownedBy_iff.2 ⟨rfl, ?_⟩⟩⟩
        exact congrArg some hlive.1.symm
    exact not_costSafe_of_second hold List.getElem?_concat_length (by omega) hek hrow rfl rfl hw h
  | _ => trivial

/-- One execution after the other: the first is released at a shutdown, another
worker claims the job and adds to its cost. -/
def oneAfterTheOther : List SysOp :=
  [.enqueueRewrite 3,
   .claim 1 "w" [("s1_rewrite", 1)] 90 [],
   .addCost 0 (1 / 2),
   .progress 2 0 [],
   .handlerEnds 0,
   .outcome 3 0 (.release true 0),
   .claim 4 "v" [("s1_rewrite", 1)] 90 [],
   .addCost 1 1,
   .progress 5 1 []]

theorem claimsAlone_of_idle (h : s.execs.all (fun e => !e.handling && !e.live) = true) (op : SysOp) : ClaimsAlone s op := by
  cases op with
  | claim now worker caps lease locked =>
    intro k r _ e he _
    have := List.all_eq_true.1 h e he
    simp only [Bool.and_eq_true, Bool.not_eq_true'] at this
    exact ⟨this.1, fun _ => this.2⟩
  | _ => trivial

/-- The first execution loses its lease while its handler runs; another worker
claims the job, spends 5 USD and reports it. -/
def reportedFive : List SysOp :=
  [.enqueueRewrite 3,
   .claim 1 "w" [("s1_rewrite", 1)] 90 [],
   .reapLapsed 100000000,
   .claim 100000000 "v" [("s1_rewrite", 1)] 90 [],
   .addCost 1 5,
   .progress 100000001 1 []]

end CisApp.Jobs
