import CisApp.Gateway.Health
import CisApp.Jobs.Queue
import CisApp.Lib.Paging
import CisApp.Lib.Phrase
import CisApp.Lib.Sorted

/-! The bulk re-queue (`retry_by_reason` of `shared/jobs/queue.py`) and how far it gets.

A call reads the oldest candidates, at most `limit` of them, and re-queues those that are not held.  What holds a
job (its kind, its connection, its stage, its tenant) is the same for every call here, so the held jobs are read
again each time.  `retry_until_complete_iff` says when the calls reach every job that may be re-queued: when fewer
than `limit` held candidates are older than it. -/

namespace CisApp.Jobs

open Lib Gateway List

/-! ## The texts of a stored error (`shared/aa_llm/errors.py`) -/

inductive TextClass where
  | provider (cls : ErrorClass)
  | truncated
  | disabled
deriving Repr, DecidableEq

def stageChar (c : Char) : Bool := ('a' ≤ c && c ≤ 'z') || ('0' ≤ c && c ≤ '9') || c = '_'

/-- `_STAGE_DISABLED`: `\bstage '([a-z0-9][a-z0-9_]*)' is switched off\b`. -/
def stageDisabledHere (abc : Alphabet) (before : Option Char) (rest : Text) : Option Text :=
  let lead := "stage '".toList
  let tail := "' is switched off".toList
  if lead.isPrefixOf rest && abc.boundary before rest.head? then
    let stage := (rest.drop lead.length).takeWhile stageChar
    let after := (rest.drop lead.length).dropWhile stageChar
    if stage.head?.any (· ≠ '_') && tail.isPrefixOf after &&
        abc.boundary (some 'f') (after.drop tail.length).head? then some stage
    else none
  else none

def disabledStageOf (abc : Alphabet) (error : Text) : Option Text := search (stageDisabledHere abc) error

def phrase (s : String) : Phrase := ⟨s.toList, false, false⟩

/-- `\b…\b`. -/
def wholeWords (s : String) : Phrase := ⟨s.toList, true, true⟩

def truncatedError : List Phrase :=
  [phrase "max_tokens or model output limit was reached",
   phrase "could not parse response content as the length limit was reached"]

def patterns : List (ErrorClass × List Phrase) :=
  [(.accessDenied,
    [phrase "access to bedrock models is not allowed", wholeWords "error 002", phrase "accessdeniedexception",
     phrase "(accessdenied)", phrase "is not available for this account", phrase "not authorized to perform",
     phrase "you don't have access to the model", phrase "permissiondeniederror", phrase "authenticationerror",
     phrase "invalid_api_key", phrase "unsupported_country_region_territory", wholeWords "authentication_error",
     wholeWords "permission_error"]),
   (.quotaExhausted,
    [phrase "insufficient_quota", phrase "exceeded your current quota", phrase "billing_hard_limit_reached",
     wholeWords "billing_error", phrase "credit balance is too low", wholeWords "api usage limit",
     wholeWords "api usage limits", wholeWords "spend limit", wholeWords "spending limit",
     wholeWords "enforced_spend_limit_reached", phrase "you have no credits remaining",
     phrase "add credits to continue"]),
   (.throttled,
    [phrase "throttlingexception", phrase "too many requests", phrase "rate exceeded", phrase "ratelimiterror",
     phrase "rate_limit_exceeded", phrase "servicequotaexceededexception", wholeWords "rate_limit_error",
     wholeWords "overloaded_error"])]

def ownMarker : List Phrase := [wholeWords "llm_access_denied", wholeWords "LLMAccessDenied"]

def classifyText (abc : Alphabet) (text : Text) : TextClass :=
  if text.isEmpty then .provider .other
  else if (disabledStageOf abc text).isSome then .disabled
  else if abc.finds abc.ignoreCase truncatedError text then .truncated
  else
    match patterns.find? fun p => abc.finds abc.ignoreCase p.2 text with
    | some p => .provider p.1
    | none =>
      if abc.finds (fun c d => c = d) ownMarker text then .provider .accessDenied else .provider .other

def keyChar (c : Char) : Bool :=
  ('A' ≤ c && c ≤ 'Z') || ('a' ≤ c && c ≤ 'z') || ('0' ≤ c && c ≤ '9') || c = '-'

/-- `_named_connections`: the keys that stand in the text as whole words. -/
def namedConnections (error : Text) (keys : List String) : List String :=
  keys.filter fun k =>
    (search (fun before rest =>
      if k.toList.isPrefixOf rest && !before.any keyChar && !(rest.drop k.toList.length).head?.any keyChar then
        some ()
      else none) error).isSome

def approvalReason : String := "tenant_ai_budget_approval"

def hexChar (c : Char) : Bool :=
  ('0' ≤ c && c ≤ '9') || ('a' ≤ c && c ≤ 'f') || ('A' ≤ c && c ≤ 'F') || c = '-'

/-- `tenant_of_error`: `Tenant ([0-9a-fA-F-]{36})`. -/
def tenantOfError (error : Text) : Option Text :=
  if !approvalReason.toList.isPrefixOf error then none
  else
    (search (fun _ rest =>
      let id := (rest.drop 7).take 36
      if "Tenant ".toList.isPrefixOf rest && id.length = 36 && id.all hexChar then some id else none) error).map
      (·.map Char.toLower)

/-! ## What holds a job -/

/-- The columns of `_RETRY_CANDIDATES_SQL`. -/
structure Candidate where
  id : JobId
  kind : String
  payload : JObj
  error : Option String
  finishedAt : Option Int

structure JobKind where
  retryRefusal : Option (Candidate → Option String)

/-- What the calls read beside the jobs. -/
structure Surroundings where
  abc : Alphabet
  getKind : String → Option JobKind
  /-- `blocked_connections`. -/
  blocked : List (String × ErrorClass)
  keys : List String
  /-- `disabled_stages`. -/
  switchedOff : Text → Bool
  /-- `tenant_budget_check` finds a budget that needs approval. -/
  needsApproval : Text → Bool

inductive Hold where
  | notRegistered
  | refused (why : String)
  | stageSwitchedOff (stage : Text)
  | connectionRefused (held : List (String × ErrorClass))
  | sameClass (held : List (String × ErrorClass))
  | namesNoTenant
  | tenantWaits (tenant : Text)

def llmHold (env : Surroundings) (switchedOff : Text → Bool) (blocked : List (String × ErrorClass))
    (keys : List String) (error : Text) : Option Hold :=
  match disabledStageOf env.abc error with
  | some stage => if switchedOff stage then some (.stageSwitchedOff stage) else none
  | none =>
    let named := namedConnections error keys
    if named ≠ [] then
      let held := named.filterMap fun k => (blocked.lookup k).map fun c => (k, c)
      if held ≠ [] then some (.connectionRefused held) else none
    else
      let same := (sortBy Prod.fst blocked).filter fun x => classifyText env.abc error = .provider x.2
      if same ≠ [] then some (.sameClass same) else none

/-- `tenant_hold`; `waiting` says of which tenants the budget needs approval. -/
def tenantHold (error : Text) (waiting : Text → Bool) : Option Hold :=
  match tenantOfError error with
  | none => some .namesNoTenant
  | some tid => if waiting tid then some (.tenantWaits tid) else none

/-! ## A call -/

def retryReasonDefault : String := "llm_access_denied"
def retryReasonTenantBudget : String := "tenant_ai_budget_approval"
def retryReasonApplyLimit : Int := 50
def retrySpreadSeconds : Nat := 60

/-- The arguments of `retry_by_reason`. -/
structure Query where
  reason : String
  since : Int
  kinds : List String
  limit : Int

/-- `prefix.startswith(RETRY_REASON_TENANT_BUDGET)`. -/
def Query.tenantStop (q : Query) : Bool := retryReasonTenantBudget.toList.isPrefixOf q.reason.toList

def Query.llm (q : Query) : Bool := retryReasonDefault.toList.isPrefixOf q.reason.toList

def Query.status (q : Query) : Status := if q.tenantStop then .stoppedBudget else .failed

/-- `max(1, min(int(limit), RETRY_REASON_APPLY_LIMIT))`. -/
def Query.pageSize (q : Query) : Nat := (max 1 (min q.limit retryReasonApplyLimit)).toNat

/-- The `WHERE` of `_RETRY_CANDIDATES_SQL`. -/
def Query.selects (q : Query) (r : JobRow) : Bool :=
  r.status = q.status && r.error.any (fun e => e.toList.take q.reason.toList.length = q.reason.toList) &&
    r.finishedAt.any (fun at₀ => q.since ≤ at₀) && (q.kinds.isEmpty || r.kind ∈ q.kinds)

/-- `ORDER BY j.finished_at, j.id`; a selected row has finished. -/
def Candidate.order (c : Candidate) : Int ×ₗ Nat := toLex (c.finishedAt.getD 0, c.id)

def candidateOf (x : JobId × JobRow) : Candidate := ⟨x.1, x.2.kind, x.2.payload, x.2.error, x.2.finishedAt⟩

/-- `_RETRY_CANDIDATES_SQL` without its `LIMIT`. -/
def Query.candidates (q : Query) (t : JobTable) : List Candidate :=
  sortBy Candidate.order ((t.rows.filter fun x => q.selects x.2).map candidateOf)

/-- The `why` of the loop; `switchedOff` and `waiting` are what the call has read of the stages and tenants. -/
def whyHeld (env : Surroundings) (q : Query) (switchedOff waiting : Text → Bool) (c : Candidate) :
    Option Hold :=
  match env.getKind c.kind with
  | none => some .notRegistered
  | some kind =>
    match (kind.retryRefusal.bind fun refusal => refusal c).filter (· ≠ "") with
    | some why => some (.refused why)
    | none =>
      let error := (c.error.getD "").toList
      ((if q.llm then llmHold env switchedOff env.blocked env.keys error else none)).or
        (if q.tenantStop then tenantHold error waiting else none)

/-- What a call reads of the stages: nothing where no candidate of its page was refused by the kill switch. -/
def readSwitchedOff (env : Surroundings) (q : Query) (page : List Candidate) : Text → Bool :=
  if q.llm && page.any (fun c => (disabledStageOf env.abc (c.error.getD "").toList).isSome) then env.switchedOff
  else fun _ => false

/-- `tenants_waiting`: of the tenants that its page names, those that need approval. -/
def tenantsWaiting (env : Surroundings) (q : Query) (page : List Candidate) (tid : Text) : Bool :=
  q.tenantStop && page.any (fun c => tenantOfError (c.error.getD "").toList = some tid) && env.needsApproval tid

structure Call where
  now : Int
  rand : Nat → ℚ

/-- The re-queueing loop; `i` counts the calls of `rand`. -/
def requeueAll (call : Call) (q : Query) : Nat → List Candidate → JobTable → JobTable × List JobId
  | _, [], t => (t, [])
  | i, c :: rest, t =>
    let delay := ⌊(retrySpreadSeconds : ℚ) * min (max (call.rand i) 0) 1⌋
    let one := retryOne t call.now c.id delay q.tenantStop
    let all := requeueAll call q (i + 1) rest one.1
    (all.1, if one.2 then c.id :: all.2 else all.2)

structure RetryResult where
  jobs : List Candidate
  held : List (Candidate × Hold)
  requeuedIds : List JobId
  more : Bool

/-- `retry_by_reason(…, dry_run=False)`; `none` for a blank prefix. -/
def retryByReason (env : Surroundings) (q : Query) (call : Call) (t : JobTable) : Option (JobTable × RetryResult) :=
  if (strip q.reason.toList).isEmpty then none
  else
    let page := (q.candidates t).take q.pageSize
    let why := whyHeld env q (readSwitchedOff env q page) (tenantsWaiting env q page)
    let jobs := page.filter fun c => (why c).isNone
    let done := requeueAll call q 0 jobs t
    some (done.1, ⟨jobs, page.filterMap fun c => (why c).map fun h => (c, h), done.2, page.length = q.pageSize⟩)

/-- Calling again until a call re-queues nothing. -/
def retryUntil (env : Surroundings) (q : Query) (calls : Nat → Call) : Nat → Nat → JobTable → Option JobTable
  | 0, _, _ => none
  | fuel + 1, i, t =>
    match retryByReason env q (calls i) t with
    | none => none
    | some (t', result) => if result.requeuedIds = [] then some t' else retryUntil env q calls fuel (i + 1) t'

/-! ## How far the calls get -/

/-- The job is held, whichever page it is on. -/
def Query.holds (env : Surroundings) (q : Query) (c : Candidate) : Bool :=
  (whyHeld env q env.switchedOff env.needsApproval c).isSome

/-- Every job that the filters match is held. -/
def Query.Complete (env : Surroundings) (q : Query) (t : JobTable) : Prop :=
  ∀ k r, t.get? k = some r → q.selects r = true → q.holds env (candidateOf (k, r)) = true

/-- The held candidates that a call reads before `c`. -/
def Query.heldBefore (env : Surroundings) (q : Query) (t : JobTable) (c : Candidate) : Nat :=
  t.count fun k r =>
    q.selects r && q.holds env (candidateOf (k, r)) && decide ((candidateOf (k, r)).order < c.order)

section Pages

variable {env : Surroundings} {q : Query} {t : JobTable}

theorem mem_candidates {c : Candidate} :
    c ∈ q.candidates t ↔ ∃ r, t.get? c.id = some r ∧ q.selects r = true ∧ candidateOf (c.id, r) = c := by
  unfold Query.candidates
  rw [mem_sortBy, mem_map]
  constructor
  · rintro ⟨⟨k, r⟩, hmem, rfl⟩
    obtain ⟨hrow, hsel⟩ := mem_filter.1 hmem
    exact ⟨r, (t.get?_eq_some_iff k r).2 hrow, hsel, rfl⟩
  · rintro ⟨r, hrow, hsel, hc⟩
    exact ⟨(c.id, r), mem_filter.2 ⟨(t.get?_eq_some_iff _ r).1 hrow, hsel⟩, hc⟩

theorem rows_ids_nodup (t : JobTable) (p : JobId × JobRow → Bool) :
    (((t.rows.filter p).map candidateOf).map Candidate.id).Nodup := by
  rw [map_map]
  exact t.nodup.sublist (filter_sublist.map Prod.fst)

theorem rows_order_nodup (t : JobTable) (p : JobId × JobRow → Bool) :
    (((t.rows.filter p).map candidateOf).map Candidate.order).Nodup := by
  have h := rows_ids_nodup t p
  rw [show Candidate.id = (fun o : Int ×ₗ Nat => (ofLex o).2) ∘ Candidate.order from rfl, ← map_map] at h
  exact h.of_map

theorem candidates_ids_nodup (q : Query) (t : JobTable) : ((q.candidates t).map Candidate.id).Nodup :=
  ((sortBy_perm Candidate.order _).map Candidate.id).nodup_iff.2 (rows_ids_nodup t _)

theorem whyHeld_page {page : List Candidate} {c : Candidate} (hc : c ∈ page) :
    whyHeld env q (readSwitchedOff env q page) (tenantsWaiting env q page) c =
      whyHeld env q env.switchedOff env.needsApproval c := by
  have hllm : q.llm = true → llmHold env (readSwitchedOff env q page) env.blocked env.keys (c.error.getD "").toList =
      llmHold env env.switchedOff env.blocked env.keys (c.error.getD "").toList := by
    intro hq
    unfold llmHold
    cases hstage : disabledStageOf env.abc (c.error.getD "").toList with
    | none => rfl
    | some stage =>
      have hread : readSwitchedOff env q page = env.switchedOff := by
        unfold readSwitchedOff
        rw [if_pos]
        rw [hq, Bool.true_and, any_eq_true]
        exact ⟨c, hc, by rw [hstage]; rfl⟩
      rw [hread]
  have htenant : q.tenantStop = true → tenantHold (c.error.getD "").toList (tenantsWaiting env q page) =
      tenantHold (c.error.getD "").toList env.needsApproval := by
    intro hq
    unfold tenantHold
    cases htid : tenantOfError (c.error.getD "").toList with
    | none => rfl
    | some tid =>
      have hnamed : (page.any fun c => tenantOfError (c.error.getD "").toList = some tid) = true :=
        List.any_eq_true.2 ⟨c, hc, by rw [htid]; simp⟩
      have hread : tenantsWaiting env q page tid = env.needsApproval tid := by
        unfold tenantsWaiting
        rw [hq, hnamed, Bool.true_and, Bool.true_and]
      simp only [hread]
  unfold whyHeld
  cases env.getKind c.kind with
  | none => rfl
  | some kind =>
    simp only
    split
    · rfl
    · refine congrArg₂ Option.or ?_ ?_
      · split
        · next hq => exact hllm hq
        · rfl
      · split
        · next hq => exact htenant hq
        · rfl

theorem candidates_retryOne (now : Int) (job : JobId) (delay : Int) :
    q.candidates (retryOne t now job delay q.tenantStop).1 = (q.candidates t).filter fun c => c.id ≠ job := by
  have hsel : ∀ x : JobId × JobRow,
      q.selects (if retriableOne job q.status x.1 x.2 then retryRow now delay x.2 else x.2) =
        (q.selects x.2 && decide (x.1 ≠ job)) := by
    intro x
    by_cases hst : x.2.status = q.status
    · by_cases hjob : x.1 = job
      · have herror : (retryRow now delay x.2).error = none := rfl
        rw [if_pos (by simp [retriableOne, hjob, hst])]
        simp [Query.selects, herror, hjob]
      · rw [if_neg (by simp [retriableOne, hjob])]
        simp [hjob]
    · rw [if_neg (by simp [retriableOne, hst])]
      simp [Query.selects, hst]
  have hrows : ((retryOne t now job delay q.tenantStop).1.rows.filter fun x => q.selects x.2) =
      (t.rows.filter fun x => q.selects x.2).filter fun x => x.1 ≠ job := by
    show (t.rows.map fun x => (x.1, if retriableOne job q.status x.1 x.2 then retryRow now delay x.2 else x.2)).filter
      (fun x => q.selects x.2) = _
    rw [filter_map, filter_filter]
    have hsame : (t.rows.filter ((fun x : JobId × JobRow => q.selects x.2) ∘ fun x =>
        (x.1, if retriableOne job q.status x.1 x.2 then retryRow now delay x.2 else x.2))) =
        t.rows.filter fun x => decide (x.1 ≠ job) && q.selects x.2 := by
      refine filter_congr fun x _ => ?_
      rw [Bool.and_comm]
      exact hsel x
    rw [hsame]
    conv_rhs => rw [← map_id (List.filter _ t.rows)]
    refine map_congr_left fun x hx => ?_
    have hjob : x.1 ≠ job := by
      have := (mem_filter.1 hx).2
      rw [Bool.and_eq_true, decide_eq_true_eq] at this
      exact this.1
    rw [if_neg (by simp [retriableOne, hjob])]
    rfl
  unfold Query.candidates
  rw [hrows, ← sortBy_filter Candidate.order _ (rows_order_nodup t _), filter_map]
  rfl

theorem candidates_requeueAll (call : Call) (i : Nat) (jobs : List Candidate) (t : JobTable) :
    q.candidates (requeueAll call q i jobs t).1 = (q.candidates t).filter fun c => c.id ∉ jobs.map Candidate.id := by
  induction jobs generalizing i t with
  | nil => simp [requeueAll]
  | cons c jobs ih =>
    show q.candidates (requeueAll call q (i + 1) jobs _).1 = _
    rw [ih, candidates_retryOne, filter_filter]
    refine filter_congr fun d _ => ?_
    rw [Bool.eq_iff_iff]
    simp only [map_cons, mem_cons, Bool.and_eq_true, decide_eq_true_eq]
    tauto

theorem requeued_eq_nil_iff (call : Call) {jobs : List Candidate} (hjobs : ∀ c ∈ jobs, c ∈ q.candidates t) :
    (requeueAll call q 0 jobs t).2 = [] ↔ jobs = [] := by
  cases jobs with
  | nil => simp [requeueAll]
  | cons c jobs =>
    obtain ⟨r, hrow, hsel, -⟩ := mem_candidates.1 (hjobs c mem_cons_self)
    have hst : r.status = q.status := by
      unfold Query.selects at hsel
      simp only [Bool.and_eq_true, decide_eq_true_eq] at hsel
      exact hsel.1.1.1
    have hone : ∀ delay, (retryOne t call.now c.id delay q.tenantStop).2 = true := by
      intro delay
      unfold retryOne
      rw [hrow]
      simp [retriableOne, hst, Query.status]
    show (if (retryOne t call.now c.id _ q.tenantStop).2 = true then _ else _) = [] ↔ _
    rw [hone, if_pos rfl]
    simp

theorem retryByReason_page (env : Surroundings) (t : JobTable) (hq : (strip q.reason.toList).isEmpty = false)
    (call : Call) : ∃ t' result, retryByReason env q call t = some (t', result) ∧
      q.candidates t' = Paging.rest q.pageSize (q.holds env) (q.candidates t) ∧
      (result.requeuedIds = [] ↔ Paging.Stuck q.pageSize (q.holds env) (q.candidates t)) ∧
      (result.requeuedIds = [] → t' = t) := by
  unfold retryByReason
  rw [hq, if_neg Bool.false_ne_true]
  have hjobs : ((q.candidates t).take q.pageSize).filter (fun c =>
      (whyHeld env q (readSwitchedOff env q ((q.candidates t).take q.pageSize))
        (tenantsWaiting env q ((q.candidates t).take q.pageSize)) c).isNone) =
      ((q.candidates t).take q.pageSize).filter fun c => !q.holds env c := by
    refine filter_congr fun c hc => ?_
    rw [whyHeld_page hc]
    unfold Query.holds
    cases whyHeld env q env.switchedOff env.needsApproval c <;> rfl
  refine ⟨_, _, rfl, ?_, ?_, ?_⟩
  · rw [hjobs, candidates_requeueAll]
    have hnodup := candidates_ids_nodup q t
    conv_lhs => rw [← take_append_drop q.pageSize (q.candidates t)]
    rw [← take_append_drop q.pageSize (q.candidates t), map_append, nodup_append] at hnodup
    rw [filter_append, Paging.rest]
    congr 1
    · refine filter_congr fun c hc => ?_
      rw [take_append_drop]
      by_cases hheld : q.holds env c = true
      · rw [hheld, decide_eq_true_eq]
        intro hmem
        obtain ⟨d, hd, hid⟩ := mem_map.1 hmem
        obtain ⟨hdp, hdh⟩ := mem_filter.1 hd
        rw [inj_on_of_nodup_map hnodup.1 hdp hc hid, hheld] at hdh
        cases hdh
      · rw [Bool.not_eq_true] at hheld
        rw [hheld, decide_eq_false_iff_not, not_not]
        exact mem_map.2 ⟨c, mem_filter.2 ⟨hc, by rw [hheld]; rfl⟩, rfl⟩
    · rw [filter_eq_self]
      intro c hc
      rw [take_append_drop, decide_eq_true_eq]
      intro hmem
      obtain ⟨d, hd, hid⟩ := mem_map.1 hmem
      exact hnodup.2.2 _ (mem_map.2 ⟨d, (mem_filter.1 hd).1, rfl⟩) _ (mem_map.2 ⟨c, hc, rfl⟩) hid
  · show (requeueAll call q 0 _ t).2 = [] ↔ _
    rw [hjobs, requeued_eq_nil_iff call fun c hc => mem_of_mem_take (mem_filter.1 hc).1, filter_eq_nil_iff]
    unfold Paging.Stuck
    simp
  · intro hnil
    have hnil' : (requeueAll call q 0 _ t).2 = [] := hnil
    rw [hjobs, requeued_eq_nil_iff call fun c hc => mem_of_mem_take (mem_filter.1 hc).1] at hnil'
    show (requeueAll call q 0 _ t).1 = t
    rw [hjobs, hnil']
    rfl

theorem complete_iff_candidates : q.Complete env t ↔ ∀ c ∈ q.candidates t, q.holds env c = true := by
  constructor
  · intro h c hc
    obtain ⟨r, hrow, hsel, heq⟩ := mem_candidates.1 hc
    rw [← heq]
    exact h _ r hrow hsel
  · intro h k r hrow hsel
    exact h (candidateOf (k, r)) (mem_candidates.2 ⟨r, hrow, hsel, rfl⟩)

theorem within_candidates_iff : Paging.Within q.pageSize (q.holds env) (q.candidates t) ↔
      ∀ k r, t.get? k = some r → q.selects r = true → q.holds env (candidateOf (k, r)) = false →
        q.heldBefore env t (candidateOf (k, r)) < q.pageSize := by
  have hcount : ∀ before c after, q.candidates t = before ++ c :: after →
      q.heldBefore env t c = before.countP (q.holds env) := by
    intro before c after hl
    have hstrict := sortBy_strict Candidate.order (rows_order_nodup t fun x => q.selects x.2)
    change (q.candidates t).Pairwise _ at hstrict
    rw [hl, pairwise_append, pairwise_cons] at hstrict
    have hall : q.heldBefore env t c =
        (q.candidates t).countP fun d => q.holds env d && decide (d.order < c.order) := by
      unfold Query.candidates
      rw [(sortBy_perm Candidate.order _).countP_eq, countP_map, countP_filter]
      refine countP_congr fun x _ => ?_
      simp only [Function.comp, Bool.and_eq_true, decide_eq_true_eq]
      tauto
    rw [hall, hl, countP_append, countP_cons]
    have hself : (q.holds env c && decide (c.order < c.order)) = false := by simp
    have hafter : (after.countP fun d => q.holds env d && decide (d.order < c.order)) = 0 := by
      rw [countP_eq_zero]
      intro d hd
      have := hstrict.2.1.1 d hd
      simp [this.le]
    have hbefore : (before.countP fun d => q.holds env d && decide (d.order < c.order)) =
        before.countP (q.holds env) := by
      refine countP_congr fun d hd => ?_
      have := hstrict.2.2 d hd c mem_cons_self
      simp [this]
    rw [hself, hafter, hbefore]
    simp
  constructor
  · intro h k r hrow hsel hheld
    have hmem : candidateOf (k, r) ∈ q.candidates t := mem_candidates.2 ⟨r, hrow, hsel, rfl⟩
    obtain ⟨before, after, hl⟩ := append_of_mem hmem
    rw [hcount before _ after hl]
    exact h before _ after hl hheld
  · intro h before c after hl hheld
    have hmem : c ∈ q.candidates t := by rw [hl]; simp
    obtain ⟨r, hrow, hsel, heq⟩ := mem_candidates.1 hmem
    rw [← hcount before c after hl, ← heq]
    exact h c.id r hrow hsel (by rw [heq]; exact hheld)

theorem retryUntil_complete_iff (hq : (strip q.reason.toList).isEmpty = false) (calls : Nat → Call)
    {fuel i : Nat} {t t' : JobTable} (h : retryUntil env q calls fuel i t = some t') :
    q.Complete env t' ↔ Paging.Within q.pageSize (q.holds env) (q.candidates t) := by
  induction fuel generalizing i t with
  | zero => cases h
  | succ fuel ih =>
    obtain ⟨next, result, hcall, hpage, hstuck, hsame⟩ := retryByReason_page env t hq (calls i)
    unfold retryUntil at h
    rw [hcall] at h
    change (if result.requeuedIds = [] then some next else retryUntil env q calls fuel (i + 1) next) = some t' at h
    by_cases hnil : result.requeuedIds = []
    · rw [if_pos hnil, Option.some.injEq] at h
      subst h
      rw [hsame hnil, complete_iff_candidates]
      exact (hstuck.1 hnil).all_iff
    · rw [if_neg hnil] at h
      rw [ih h, hpage, Paging.within_rest]

theorem retryUntil_ends (env : Surroundings) (hq : (strip q.reason.toList).isEmpty = false) (calls : Nat → Call)
    (i fuel : Nat) (t : JobTable) (hfuel : (q.candidates t).length < fuel) :
    ∃ t', retryUntil env q calls fuel i t = some t' := by
  induction fuel generalizing i t with
  | zero => omega
  | succ fuel ih =>
    obtain ⟨next, result, hcall, hpage, hstuck, -⟩ := retryByReason_page env t hq (calls i)
    unfold retryUntil
    rw [hcall]
    show ∃ t', (if result.requeuedIds = [] then some next else retryUntil env q calls fuel (i + 1) next) = some t'
    by_cases hnil : result.requeuedIds = []
    · exact ⟨next, by rw [if_pos hnil]⟩
    · have hlt := Paging.length_rest_lt fun hst => hnil (hstuck.2 hst)
      rw [if_neg hnil]
      exact ih (i + 1) next (by rw [hpage]; omega)

end Pages

/-- **The bulk re-queue is complete if and only if no job is behind a page of held ones.**  The calls end; and
then every job that the filters match is held exactly when, at the start, each one that was not held had fewer
than a page of held candidates before it. -/
theorem bulk_retry_complete_iff (env : Surroundings) (q : Query) (hq : (strip q.reason.toList).isEmpty = false)
    (calls : Nat → Call) (t : JobTable) : (∃ fuel t', retryUntil env q calls fuel 0 t = some t') ∧
      ∀ fuel t', retryUntil env q calls fuel 0 t = some t' → (q.Complete env t' ↔
          ∀ k r, t.get? k = some r → q.selects r = true → q.holds env (candidateOf (k, r)) = false →
            q.heldBefore env t (candidateOf (k, r)) < q.pageSize) := by
  constructor
  · obtain ⟨t', h⟩ := retryUntil_ends env hq calls 0 _ t (Nat.lt_succ_self _)
    exact ⟨_, t', h⟩
  · intro fuel t' h
    rw [retryUntil_complete_iff hq calls h, within_candidates_iff]

/-! ### Fifty jobs of a removed kind -/

namespace Removed

def abc : Alphabet := ⟨fun c => c.isAlphanum || c = '_', Char.toLower⟩

/-- One kind is registered, nothing is blocked. -/
def env : Surroundings :=
  ⟨abc, fun kind => if kind = "s1_rewrite" then some ⟨none⟩ else none, [], [], fun _ => false, fun _ => false⟩

def query : Query := ⟨"llm_access_denied", 0, [], 200⟩

/-- A job refused by the account. -/
def refusedJob (kind : String) (finishedAt : Nat) : JobRow where
  kind := kind
  payload := []
  status := .failed
  attempt := 1
  maxAttempts := 3
  runAfter := 0
  lockedBy := none
  lockedUntil := none
  cancelRequested := false
  idempotencyKey := none
  progress := []
  result := none
  costUsd := 0
  error := some "llm_access_denied: Error 002"
  parentJobId := none
  createdBy := none
  createdAt := 0
  updatedAt := finishedAt
  startedAt := some 0
  finishedAt := some finishedAt
  attemptsChk := by decide
  leaseChk := by simp

/-- `n` jobs of a kind that is not registered any more, then one that is. -/
def jobs (n : Nat) : JobTable where
  rows := (List.range (n + 1)).map fun i => (i, refusedJob (if i < n then "s1_old_write" else "s1_rewrite") i)
  nodup := by
    rw [List.map_map]
    exact (List.map_id (List.range (n + 1))).symm ▸ List.nodup_range

def calls (i : Nat) : Call := ⟨1000 + i, fun _ => 0⟩

theorem get?_jobs {n k : Nat} {r : JobRow} :
    (jobs n).get? k = some r ↔ k ≤ n ∧ r = refusedJob (if k < n then "s1_old_write" else "s1_rewrite") k := by
  rw [Table.get?_eq_some_iff]
  unfold jobs
  rw [mem_map]
  constructor
  · rintro ⟨i, hi, heq⟩
    obtain ⟨rfl, rfl⟩ := Prod.mk.inj heq
    exact ⟨by have := mem_range.1 hi; omega, rfl⟩
  · rintro ⟨hk, rfl⟩
    exact ⟨k, mem_range.2 (by omega), rfl⟩

theorem selects_refusedJob (kind : String) (k : Nat) : query.selects (refusedJob kind k) = true := by
  have hstatus : query.status = .failed := by decide
  unfold Query.selects
  rw [hstatus]
  simp [refusedJob, query]

theorem holds_refusedJob (kind : String) (k : Nat) :
    query.holds env (candidateOf (k, refusedJob kind k)) = decide (kind ≠ "s1_rewrite") := by
  have hkind : (candidateOf (k, refusedJob kind k)).kind = kind := rfl
  unfold Query.holds whyHeld
  rw [hkind]
  by_cases h : kind = "s1_rewrite"
  · have hgk : env.getKind kind = some ⟨none⟩ := if_pos h
    have hllm : ∀ error, llmHold env env.switchedOff env.blocked env.keys error = none := by
      intro error
      unfold llmHold
      cases disabledStageOf env.abc error with
      | none => rfl
      | some stage => rfl
    have htenant : query.tenantStop = false := by decide
    rw [hgk]
    simp [hllm, htenant, h]
  · have hgk : env.getKind kind = none := if_neg h
    rw [hgk]
    simp [h]

theorem order_lt_iff (kind kind' : String) (i n : Nat) :
    (candidateOf (i, refusedJob kind i)).order < (candidateOf (n, refusedJob kind' n)).order ↔ i < n := by
  show toLex ((i : Int), i) < toLex ((n : Int), n) ↔ i < n
  rw [Prod.Lex.toLex_lt_toLex]
  omega

theorem heldBefore_jobs (n : Nat) : query.heldBefore env (jobs n) (candidateOf (n, refusedJob "s1_rewrite" n)) = n := by
  unfold Query.heldBefore Table.count jobs
  rw [countP_map]
  have hall : ∀ i ∈ List.range n, ((fun x : JobId × JobRow => query.selects x.2 &&
      query.holds env (candidateOf (x.1, x.2)) &&
        decide ((candidateOf (x.1, x.2)).order < (candidateOf (n, refusedJob "s1_rewrite" n)).order)) ∘ fun i =>
      (i, refusedJob (if i < n then "s1_old_write" else "s1_rewrite") i)) i = true := by
    intro i hi
    have hlt : i < n := mem_range.1 hi
    have horder := (order_lt_iff "s1_old_write" "s1_rewrite" i n).2 hlt
    simp only [Function.comp, if_pos hlt, selects_refusedJob, holds_refusedJob, horder]
    decide
  rw [range_succ, countP_append, countP_eq_length.2 hall, length_range]
  simp

end Removed

open Removed in
/-- Fifty held jobs are older than the one that could run: no call ever reads it. -/
theorem job_behind_held_page_missed :
    ∃ fuel t', retryUntil env query calls fuel 0 (jobs 50) = some t' ∧ ¬ query.Complete env t' := by
  have hq : (strip query.reason.toList).isEmpty = false := by decide
  obtain ⟨t', h⟩ := retryUntil_ends env hq calls 0 _ (jobs 50) (Nat.lt_succ_self _)
  refine ⟨_, t', h, fun hcomplete => ?_⟩
  rw [retryUntil_complete_iff hq calls h, within_candidates_iff] at hcomplete
  have hlt := hcomplete 50 (refusedJob "s1_rewrite" 50) (get?_jobs.2 ⟨le_refl _, rfl⟩) (selects_refusedJob _ _)
    (by rw [holds_refusedJob]; rfl)
  rw [heldBefore_jobs] at hlt
  exact absurd hlt (by decide)

open Removed in
/-- With forty-nine of them it is re-queued. -/
theorem job_behind_held_jobs_requeued :
    ∃ fuel t', retryUntil env query calls fuel 0 (jobs 49) = some t' ∧ query.Complete env t' := by
  obtain ⟨⟨fuel, t', h⟩, hiff⟩ := bulk_retry_complete_iff env query (by decide) calls (jobs 49)
  refine ⟨fuel, t', h, (hiff fuel t' h).2 fun k r hrow _ hheld => ?_⟩
  obtain ⟨hk, rfl⟩ := get?_jobs.1 hrow
  have hlast : k = 49 := by
    by_contra hne
    rw [if_pos (lt_of_le_of_ne hk hne), holds_refusedJob] at hheld
    exact absurd hheld (by decide)
  subst hlast
  rw [if_neg (lt_irrefl 49), heldBefore_jobs]
  decide

end CisApp.Jobs
