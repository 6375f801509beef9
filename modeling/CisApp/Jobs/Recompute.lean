import CisApp.Jobs.Cancel
import CisApp.Jobs.Lifecycle

/-!
# The debounced recompute (`services/jobs/recompute_job.py`)

`enqueue_recompute` for the platform scope is two statements.  The first folds the
call into the oldest queued platform job that no other transaction holds; when there
is none, the second inserts a new job.  Anything may run between them.

A call asks for a set of Segments, or for all of them (`None`, an absent key).  Over
`Scope`, the finite sets of Segments with a top element, folding is the join
(`payloadScope_coalescePayload`), so the order and the grouping of the calls do not
matter.

The first statement does not look at `cancel_requested`.  The job it folds into can
still be claimed exactly if that job is not one of the stuck rows that the
re-queuing branch of `fail` leaves (`recompute_iff`).
-/

namespace CisApp.Jobs

open List

def maxWaitSeconds : Int := 1200

/-- Python's `sorted(set(ids))`. -/
def sortedSet (ids : List String) : List String := ids.dedup.insertionSort (· ≤ ·)

/-- The array `jsonb_agg(DISTINCT x)` of texts; a NULL sorts last. -/
def aggDistinct (xs : List (Option String)) : List Json :=
  (sortedSet xs.reduceOption).map .str ++ if none ∈ xs then [.null] else []

/-- The `CASE` of the statement: the union of both lists, no key when either side
asks for every Segment. -/
def foldScope (payload : JObj) (newIds : Option (List String)) : JObj :=
  match payload.at? "segment_ids", newIds with
  | some old, some ids =>
    payload.merge [("segment_ids",
      .arr (aggDistinct ((old.concatArr (ids.map .str)).map Json.text?)))]
  | _, _ => payload.erase "segment_ids"

/-- The payload after one folded call; `n` is the count of those before it. -/
def coalescePayload (payload : JObj) (newIds : Option (List String)) (n : Int) : JObj :=
  (foldScope payload newIds).merge [("coalesced", .num (n + 1) 0)]

def coalesceRow (now : Int) (newIds : Option (List String)) (debounce : Int) (n : Int) (r : JobRow) :
    JobRow where
  __ := r
  payload := coalescePayload r.payload newIds n
  runAfter := max r.runAfter (min (r.createdAt + secs maxWaitSeconds) (now + secs debounce))
  updatedAt := now
  attemptsChk := r.attemptsChk
  leaseChk := r.leaseChk

def isPlatform (payload : JObj) : Bool := (payload.at? "scope").bind Json.text? == some "platform"

/-- The rows of the subquery. -/
def coalescible (locked : List JobId) (k : JobId) (r : JobRow) : Bool :=
  r.kind == "recompute" && r.status == .queued && isPlatform r.payload && !locked.contains k

/-- The order `created_at`. -/
def createdBefore (a b : JobRow) : Bool := decide (a.createdAt ≤ b.createdAt)

/-- The row the subquery selects. -/
def oldestQueued (t : JobTable) (locked : List JobId) : Option (JobId × JobRow) :=
  t.first? createdBefore (coalescible locked)

/-- The first statement (`_COALESCE_SQL`): the folded job, if any.  The outer `none`
is a counter that is no integer. -/
def coalesce (t : JobTable) (now : Int) (newIds : Option (List String)) (debounce : Int)
    (locked : List JobId) : JobTable × Option (Option JobId) :=
  match oldestQueued t locked with
  | none => (t, some none)
  | some (id, r) =>
    match r.payload.intAt "coalesced" 0 with
    | none => (t, none)
    | some n =>
      (t.update (fun k _ => k == id) (fun _ r => coalesceRow now newIds debounce n r), some (some id))

structure RecomputeArgs where
  reason : String
  createdBy : String
  segmentIds : Option (List String)
  debounce : Int

def RecomputeArgs.newIds (a : RecomputeArgs) : Option (List String) := a.segmentIds.map sortedSet

def RecomputeArgs.payload (a : RecomputeArgs) : JObj :=
  [("scope", .str "platform"), ("reason", .str a.reason)] ++
    match a.newIds with
    | none => []
    | some ids => [("segment_ids", .arr (ids.map .str))]

/-- The second statement; `clientNow` is the caller's own clock. -/
def create (t : JobTable) (now clientNow : Int) (id : JobId) (a : RecomputeArgs) :
    JobTable × Option (JobId × Bool) :=
  enqueue t now id "recompute" a.payload none 2 none (some a.createdBy)
    (if a.debounce = 0 then none else some (clientNow + secs a.debounce))

/-- Only `enqueue_recompute` inserts a platform job. -/
def QueueOp.insertsPlatform : QueueOp → Bool
  | .enqueue _ _ kind payload _ _ _ _ _ => kind == "recompute" && isPlatform payload
  | _ => false

/-- Statements of the queue, and the two of any `enqueue_recompute` call. -/
inductive RecOp where
  | queue (op : QueueOp) (h : op.insertsPlatform = false)
  | coalesce (now : Int) (a : RecomputeArgs) (locked : List JobId)
  | create (now clientNow : Int) (id : JobId) (a : RecomputeArgs)

def recStep (t : JobTable) : RecOp → JobTable
  | .queue op _ => step t op
  | .coalesce now a locked => (coalesce t now a.newIds a.debounce locked).1
  | .create now clientNow id a => (create t now clientNow id a).1

/-- The call for the platform scope: the job's id and whether it was created.
`between` is what runs between its two statements. -/
def enqueueRecompute (t : JobTable) (a : RecomputeArgs) (now : Int) (locked : List JobId)
    (between : List RecOp) (now' clientNow : Int) (id : JobId) :
    JobTable × Option (JobId × Bool) :=
  match coalesce t now a.newIds a.debounce locked with
  | (t', none) => (t', none)
  | (t', some (some reused)) => (t', some (reused, false))
  | (t', some none) => create (run recStep t' between) now' clientNow id a

/-! ## Scopes -/

/-- A set of Segments, `⊤` for every Segment. -/
abbrev Scope := WithTop (Finset String)

def callScope : Option (List String) → Scope
  | none => ⊤
  | some ids => ((ids.toFinset : Finset String) : Scope)

/-- What a job will recompute. -/
def payloadScope (payload : JObj) : Scope :=
  match payload.at? "segment_ids" with
  | none => ⊤
  | some j => (((j.concatArr []).filterMap Json.text?).toFinset : Finset String)

theorem mem_sortedSet {ids : List String} {x : String} : x ∈ sortedSet ids ↔ x ∈ ids := by
  unfold sortedSet
  rw [mem_insertionSort, mem_dedup]

theorem callScope_newIds (a : RecomputeArgs) : callScope a.newIds = callScope a.segmentIds := by
  unfold RecomputeArgs.newIds
  cases a.segmentIds with
  | none => rfl
  | some ids =>
    have h : (sortedSet ids).toFinset = ids.toFinset := by
      ext x
      simp [mem_sortedSet]
    show ((sortedSet ids).toFinset : Scope) = (ids.toFinset : Scope)
    rw [h]

theorem filterMap_text_str (ids : List String) : (ids.map Json.str).filterMap Json.text? = ids := by
  induction ids with
  | nil => rfl
  | cons x ids ih =>
    show x :: _ = _
    rw [ih]

theorem mem_texts_aggDistinct {xs : List (Option String)} {x : String} :
    x ∈ (aggDistinct xs).filterMap Json.text? ↔ some x ∈ xs := by
  unfold aggDistinct
  rw [filterMap_append, filterMap_text_str, mem_append, mem_sortedSet, reduceOption_mem_iff]
  constructor
  · rintro (h | h)
    · exact h
    · split at h
      · cases h
      · cases h
  · exact Or.inl

theorem concatArr_texts (j : Json) (ids : List String) : (j.concatArr (ids.map Json.str)).filterMap Json.text? =
      (j.concatArr []).filterMap Json.text? ++ ids := by
  have happ : j.concatArr (ids.map Json.str) = j.concatArr [] ++ ids.map Json.str := by
    cases j <;> simp [Json.concatArr]
  rw [happ, filterMap_append, filterMap_text_str]

theorem payloadScope_foldScope (payload : JObj) (newIds : Option (List String)) :
    payloadScope (foldScope payload newIds) = payloadScope payload ⊔ callScope newIds := by
  unfold foldScope
  cases hold : payload.at? "segment_ids" with
  | none =>
    have hp : payloadScope payload = ⊤ := by simp only [payloadScope, hold]
    have he : (payload.erase "segment_ids").at? "segment_ids" = none := by simp
    rw [hp, top_sup_eq]
    simp only [payloadScope, he]
  | some old =>
    cases newIds with
    | none =>
      have he : (payload.erase "segment_ids").at? "segment_ids" = none := by simp
      show _ = payloadScope payload ⊔ ⊤
      rw [sup_top_eq]
      simp only [payloadScope, he]
    | some ids =>
      have hp : payloadScope payload =
          (((old.concatArr []).filterMap Json.text?).toFinset : Finset String) := by
        simp only [payloadScope, hold]
      rw [hp]
      show payloadScope (payload.merge [("segment_ids", .arr (aggDistinct
        ((old.concatArr (ids.map .str)).map Json.text?)))]) = _ ⊔ ((ids.toFinset : Finset String) : Scope)
      have hat : (payload.merge [("segment_ids", .arr (aggDistinct
          ((old.concatArr (ids.map .str)).map Json.text?)))]).at? "segment_ids" =
          some (.arr (aggDistinct ((old.concatArr (ids.map .str)).map Json.text?))) := by
        rfl
      simp only [payloadScope, hat]
      rw [← WithTop.coe_sup]
      congr 1
      ext x
      rw [mem_toFinset, Finset.sup_eq_union, Finset.mem_union, mem_toFinset,
        mem_toFinset, ← mem_append, ← concatArr_texts]
      show x ∈ (aggDistinct _ ++ []).filterMap Json.text? ↔ _
      rw [append_nil, mem_texts_aggDistinct, mem_map, mem_filterMap]

theorem payloadScope_coalescePayload (payload : JObj) (newIds : Option (List String)) (n : Int) :
    payloadScope (coalescePayload payload newIds n) = payloadScope payload ⊔ callScope newIds := by
  rw [← payloadScope_foldScope]
  have hat : (coalescePayload payload newIds n).at? "segment_ids" =
      (foldScope payload newIds).at? "segment_ids" := by
    unfold coalescePayload
    rw [JObj.at?_merge]
    rfl
  unfold payloadScope
  rw [hat]

/-- The payload after a sequence of folded calls. -/
def foldCalls (payload : JObj) (calls : List (Option (List String))) : JObj :=
  calls.foldl (fun p ids => coalescePayload p ids ((p.intAt "coalesced" 0).getD 0)) payload

def callsScope (calls : List (Option (List String))) : Scope :=
  (calls.map callScope).foldr (· ⊔ ·) ⊥

theorem payloadScope_foldCalls (payload : JObj) (calls : List (Option (List String))) :
    payloadScope (foldCalls payload calls) = payloadScope payload ⊔ callsScope calls := by
  induction calls generalizing payload with
  | nil => exact (sup_bot_eq _).symm
  | cons ids calls ih =>
    show payloadScope (foldCalls (coalescePayload payload ids _) calls) =
      payloadScope payload ⊔ (callScope ids ⊔ callsScope calls)
    rw [ih, payloadScope_coalescePayload, sup_assoc]

theorem callsScope_perm {calls calls' : List (Option (List String))} (h : calls.Perm calls') :
    callsScope calls = callsScope calls' :=
  (h.map callScope).foldr_eq ⊥

theorem callsScope_append (calls calls' : List (Option (List String))) :
    callsScope (calls ++ calls') = callsScope calls ⊔ callsScope calls' := by
  induction calls with
  | nil => exact (bot_sup_eq _).symm
  | cons ids calls ih =>
    show callScope ids ⊔ callsScope (calls ++ calls') = callScope ids ⊔ callsScope calls ⊔ _
    rw [ih, sup_assoc]

theorem payloadScope_newPayload (a : RecomputeArgs) : payloadScope a.payload = callScope a.segmentIds := by
  rw [← callScope_newIds]
  unfold payloadScope RecomputeArgs.payload
  cases a.newIds with
  | none => rfl
  | some ids =>
    show ((((Json.arr (ids.map Json.str)).concatArr []).filterMap Json.text?).toFinset : Scope) =
      (ids.toFinset : Scope)
    show (((ids.map Json.str ++ []).filterMap Json.text?).toFinset : Scope) = _
    rw [append_nil, filterMap_text_str]

/-! ## One step -/

variable {t : JobTable}

theorem oldestQueued_spec {locked : List JobId} {k : JobId} {r : JobRow} (h : oldestQueued t locked = some (k, r)) :
    t.get? k = some r ∧ r.kind = "recompute" ∧ r.status = .queued ∧ isPlatform r.payload = true := by
  obtain ⟨hr, hp, -⟩ := Table.first?_spec t createdBefore _
    (fun a b => by simp only [createdBefore, decide_eq_true_eq]; omega)
    (fun a b c => by simp only [createdBefore, decide_eq_true_eq]; omega) k r h
  simp only [coalescible, Bool.and_eq_true, beq_iff_eq] at hp
  exact ⟨hr, hp.1.1.1, hp.1.1.2, hp.1.2⟩

theorem recStep_cases {op : RecOp} {k : JobId} {r' : JobRow} (h : (recStep t op).get? k = some r') :
    (∃ r, t.get? k = some r ∧ r' = r) ∨ (∃ q hq r, op = .queue q hq ∧ t.get? k = some r ∧ Touch t k r q r') ∨
    (∃ q hq, op = .queue q hq ∧ Inserted t k q r') ∨
    (∃ now a locked r n, op = .coalesce now a locked ∧ oldestQueued t locked = some (k, r) ∧
      r' = coalesceRow now a.newIds a.debounce n r) ∨
    ∃ now a hmax runAfter, r' = newRow now "recompute" a.payload none 2 hmax none
      (some (RecomputeArgs.createdBy a)) runAfter := by
  cases op with
  | queue q hq =>
    rcases step_cases h with ⟨r, hr, he | ht⟩ | hi
    · exact Or.inl ⟨r, hr, he⟩
    · exact Or.inr (Or.inl ⟨q, hq, r, rfl, hr, ht⟩)
    · exact Or.inr (Or.inr (Or.inl ⟨q, hq, rfl, hi⟩))
  | coalesce now a locked =>
    simp only [recStep, coalesce] at h
    cases ho : oldestQueued t locked with
    | none =>
      rw [ho] at h
      exact Or.inl ⟨r', h, rfl⟩
    | some x =>
      obtain ⟨id, r⟩ := x
      rw [ho] at h
      dsimp only at h
      cases hn : r.payload.intAt "coalesced" 0 with
      | none =>
        rw [hn] at h
        exact Or.inl ⟨r', h, rfl⟩
      | some n =>
        rw [hn] at h
        obtain ⟨r₀, hr₀, he | ⟨hp, rfl⟩⟩ := update_cases h
        · exact Or.inl ⟨r₀, hr₀, he⟩
        · obtain rfl : k = id := by simpa using hp
          obtain rfl : r = r₀ := Option.some.inj ((oldestQueued_spec ho).1.symm.trans hr₀)
          exact Or.inr (Or.inr (Or.inr (Or.inl ⟨now, a, locked, r, n, rfl, ho, rfl⟩)))
  | create now clientNow id a =>
    simp only [recStep, create] at h
    rcases enqueue_cases t now id "recompute" a.payload none 2 none (some a.createdBy)
      (if a.debounce = 0 then none else some (clientNow + secs a.debounce)) with
      he | ⟨hmax, -, -, -, he⟩
    · rw [he] at h
      exact Or.inl ⟨r', h, rfl⟩
    · rw [he, Table.get?_insert] at h
      split at h
      · cases h
        exact Or.inr (Or.inr (Or.inr (Or.inr ⟨now, a, hmax, _, rfl⟩)))
      · exact Or.inl ⟨r', h, rfl⟩

theorem Touch.payload_eq {k : JobId} {r r' : JobRow} {op : QueueOp} (h : Touch t k r op r') : r'.payload = r.payload := by
  cases h <;> rfl

/-- The counter of every platform job is a number. -/
def CountersOk (t : JobTable) : Prop :=
  t.All fun _ r => r.kind = "recompute" → isPlatform r.payload = true →
    ∃ n, r.payload.intAt "coalesced" 0 = some n

theorem countersOk_step (t : JobTable) (op : RecOp) (h : CountersOk t) : CountersOk (recStep t op) := by
  intro k r' hr' hkind hplat
  rcases recStep_cases hr' with ⟨r, hr, rfl⟩ | ⟨q, hq, r, rfl, hr, ht⟩ | ⟨q, hq, rfl, hi⟩ |
    ⟨now, a, locked, r, n, rfl, ho, rfl⟩ | ⟨now, a, hmax, runAfter, rfl⟩
  · exact h k r' hr hkind hplat
  · rw [ht.payload_eq] at hplat ⊢
    exact h k r hr (ht.kind_eq ▸ hkind) hplat
  · cases hi with
    | enqueue hmax hkind' hkey hfree =>
      simp only [QueueOp.insertsPlatform] at hq
      have hk : (_ == "recompute") = true := beq_iff_eq.2 hkind
      have hp : isPlatform _ = true := hplat
      simp only [newRow] at hk hp
      rw [hk, hp] at hq
      cases hq
  · refine ⟨n + 1, JObj.intAt_of_num ?_ 0⟩
    show (coalescePayload r.payload a.newIds n).at? "coalesced" = _
    rfl
  · refine ⟨0, ?_⟩
    show (RecomputeArgs.payload a).intAt "coalesced" 0 = some 0
    unfold RecomputeArgs.payload
    cases a.newIds <;> rfl

/-- The step is no `fail` that re-queues a row whose cancel was requested. -/
def RecUncancelled (t : JobTable) : RecOp → Prop
  | .queue op _ => RequeuesUncancelled t op
  | _ => True

theorem noStuck_recStep (t : JobTable) (op : RecOp) (h : NoStuck t) (hop : RecUncancelled t op) :
    NoStuck (recStep t op) := by
  intro k r' hr'
  rcases recStep_cases hr' with ⟨r, hr, rfl⟩ | ⟨q, hq, r, rfl, -⟩ | ⟨q, hq, rfl, -⟩ |
    ⟨now, a, locked, r, n, -, ho, rfl⟩ | ⟨now, a, hmax, runAfter, rfl⟩
  · exact h k r' hr
  · exact noStuck_step t q h hop k r' hr'
  · exact noStuck_step t q h hop k r' hr'
  · exact h k r (oldestQueued_spec ho).1
  · rintro ⟨-, hc⟩
    cases hc

/-! ## One call -/

/-- The job a call returns waits, can be claimed, and will recompute what the call
asked for. -/
def Covered (t : JobTable) (k : JobId) (a : RecomputeArgs) : Prop :=
  ∃ r, t.get? k = some r ∧ r.status = .queued ∧ r.cancelRequested = false ∧
    callScope a.segmentIds ≤ payloadScope r.payload

/-- The call returns a job, unless the id drawn for a new one is taken, and the job
it returns covers the call. -/
def CallOk (t : JobTable) (a : RecomputeArgs) (now : Int) (locked : List JobId)
    (between : List RecOp) (now' clientNow : Int) (id : JobId) : Prop :=
  ((run recStep t between).get? id = none →
    (enqueueRecompute t a now locked between now' clientNow id).2 ≠ none) ∧
  ∀ k created, (enqueueRecompute t a now locked between now' clientNow id).2 = some (k, created) →
    Covered (enqueueRecompute t a now locked between now' clientNow id).1 k a

/-- The job the call would be folded into was not asked to be cancelled. -/
def PicksUncancelled (t : JobTable) (locked : List JobId) : Prop :=
  ∀ k r, oldestQueued t locked = some (k, r) → r.cancelRequested = false

theorem create_cases (t : JobTable) (now clientNow : Int) (id : JobId) (a : RecomputeArgs) :
    (t.get? id ≠ none ∧ create t now clientNow id a = (t, none)) ∨
    (t.get? id = none ∧ (create t now clientNow id a).2 = some (id, true) ∧
      Covered (create t now clientNow id a).1 id a) := by
  have hkind : kindChk "recompute" = true := by decide +kernel
  have hmax : (1 : Int) ≤ 2 := by norm_num
  cases hid : t.get? id with
  | some r =>
    refine Or.inl ⟨by simp, ?_⟩
    simp [create, enqueue, hkind, keyed, hid]
  | none =>
    refine Or.inr ⟨rfl, ?_⟩
    let r : JobRow := newRow now "recompute" a.payload none 2 hmax none (some a.createdBy)
      (if a.debounce = 0 then none else some (clientNow + secs a.debounce))
    have he : create t now clientNow id a = (t.insert id r, some (id, true)) := by
      simp [create, enqueue, hkind, keyed, hid, r]
    have hrow : (t.insert id r).get? id = some r := by
      rw [Table.get?_insert, if_pos ⟨rfl, hid⟩]
    rw [he]
    exact ⟨rfl, r, hrow, rfl, rfl, (payloadScope_newPayload a).ge⟩

theorem callOk_iff (hcnt : CountersOk t) (a : RecomputeArgs) (now : Int)
    (locked : List JobId) (between : List RecOp) (now' clientNow : Int) (id : JobId) :
    CallOk t a now locked between now' clientNow id ↔ PicksUncancelled t locked := by
  cases ho : oldestQueued t locked with
  | none =>
    -- nothing to fold into: the second statement inserts a job of the call's own
    have hpick : PicksUncancelled t locked := fun k r hk => by
      rw [ho] at hk
      cases hk
    refine iff_of_true ?_ hpick
    have he : enqueueRecompute t a now locked between now' clientNow id =
        create (run recStep t between) now' clientNow id a := by
      simp only [enqueueRecompute, coalesce, ho]
    unfold CallOk
    rw [he]
    rcases create_cases (run recStep t between) now' clientNow id a with ⟨htaken, hc⟩ | ⟨hfree, hans, hcov⟩
    · rw [hc]
      exact ⟨fun hn => absurd hn htaken, nofun⟩
    · rw [hans]
      refine ⟨fun _ => by simp, fun k created hk => ?_⟩
      cases hk
      exact hcov
  | some x =>
    obtain ⟨k, r⟩ := x
    obtain ⟨hr, hkind, hq, hplat⟩ := oldestQueued_spec ho
    obtain ⟨n, hn⟩ := hcnt k r hr hkind hplat
    have he : enqueueRecompute t a now locked between now' clientNow id =
        (t.update (fun k' _ => k' == k) (fun _ r => coalesceRow now a.newIds a.debounce n r), some (k, false)) := by
      simp only [enqueueRecompute, coalesce, ho, hn]
    have hrow : (t.update (fun k' _ => k' == k)
        (fun _ r => coalesceRow now a.newIds a.debounce n r)).get? k =
        some (coalesceRow now a.newIds a.debounce n r) := by
      rw [get?_update_some hr, if_pos (by simp)]
    unfold CallOk
    rw [he]
    constructor
    · rintro ⟨-, hcov⟩ k' r' hk'
      rw [ho] at hk'
      cases hk'
      obtain ⟨r₁, hr₁, -, hc, -⟩ := hcov k false rfl
      rw [hrow] at hr₁
      cases hr₁
      exact hc
    · intro hpick
      refine ⟨fun _ => by simp, fun k' created hk' => ?_⟩
      cases hk'
      refine ⟨_, hrow, hq, hpick k r ho, ?_⟩
      show callScope a.segmentIds ≤ payloadScope (coalescePayload r.payload a.newIds n)
      rw [payloadScope_coalescePayload, callScope_newIds]
      exact le_sup_right

/-- **The exact condition.**  In every state of every run, a call returns a queued,
claimable job that covers it exactly if the oldest queued platform job it finds, if
any, was not asked to be cancelled; so it does in every run in which no `fail`
re-queues a row whose cancel was requested.  And the scope of the calls folded into
one job depends neither on their order nor on their grouping. -/
theorem recompute_iff (ops : List RecOp) : (∀ a now locked between now' clientNow id,
      CallOk (run recStep Table.empty ops) a now locked between now' clientNow id ↔
        PicksUncancelled (run recStep Table.empty ops) locked) ∧ (Along recStep RecUncancelled Table.empty ops →
      ∀ a now locked between now' clientNow id,
        CallOk (run recStep Table.empty ops) a now locked between now' clientNow id) ∧
    (∀ payload calls calls', List.Perm calls calls' →
      payloadScope (foldCalls payload calls) = payloadScope (foldCalls payload calls')) ∧
    (∀ payload calls calls', payloadScope (foldCalls payload (calls ++ calls')) =
      payloadScope payload ⊔ (callsScope calls ⊔ callsScope calls')) := by
  have hcnt : CountersOk (run recStep Table.empty ops) :=
    run_of_step countersOk_step ops Table.All.empty
  refine ⟨fun a now locked between now' clientNow id => ?_, fun h => ?_, fun payload calls calls' hp => ?_,
    fun payload calls calls' => ?_⟩
  · exact callOk_iff hcnt a now locked between now' clientNow id
  · intro a now locked between now' clientNow id
    refine (callOk_iff hcnt a now locked between now' clientNow id).2 fun k r ho => ?_
    have hstuck : NoStuck (run recStep Table.empty ops) :=
      (Along.always noStuck_recStep Table.All.empty h).run
    obtain ⟨hr, -, hq, -⟩ := oldestQueued_spec ho
    by_contra hc
    exact hstuck k r hr ⟨hq, by simpa using hc⟩
  · rw [payloadScope_foldCalls, payloadScope_foldCalls, callsScope_perm hp]
  · rw [payloadScope_foldCalls, callsScope_append]

/-- A platform job fails after an admin's cancel and is queued again. -/
def stuckPlatformJob : List RecOp :=
  [.create 0 0 7 ⟨"atom edit", "system", some ["s1"], 0⟩,
   .queue (.claim 1 "w" [("recompute", 1)] 90 []) rfl,
   .queue (.requestCancel 2 7) rfl,
   .queue (.fail 3 { id := 7, kind := "recompute", payload := [], status := .running, attempt := 1,
                     maxAttempts := 2, progress := [], costUsd := 0, createdBy := none,
                     parentJobId := none } "w" "boom" true none none 0) rfl]

/-- The next call is folded into a job no worker will ever claim. -/
theorem recompute_lost : ¬ ∀ ops a now locked between now' clientNow id,
    CallOk (run recStep Table.empty ops) a now locked between now' clientNow id := by
  intro h
  have hok := h stuckPlatformJob ⟨"status change", "system", some ["s2"], 0⟩ 4 [] [] 4 4 8
  have hans : (enqueueRecompute (run recStep Table.empty stuckPlatformJob)
      ⟨"status change", "system", some ["s2"], 0⟩ 4 [] [] 4 4 8).2 = some (7, false) := by
    decide +kernel
  have hrow : ((enqueueRecompute (run recStep Table.empty stuckPlatformJob)
      ⟨"status change", "system", some ["s2"], 0⟩ 4 [] [] 4 4 8).1.get? 7).all
      (fun r => r.cancelRequested) = true := by decide +kernel
  obtain ⟨r, hr, -, hc, -⟩ := hok.2 7 false hans
  rw [hr] at hrow
  simp only [Option.all_some] at hrow
  rw [hc] at hrow
  cases hrow

end CisApp.Jobs
