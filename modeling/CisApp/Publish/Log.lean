import CisApp.Lib.Run
import CisApp.Lib.Table

/-! Publish requests of one tenant (`services/acp_publish/idempotency.py`, `services/acp_publish/daily_limit.py`,
`api/routers/v1_publish.py`, migration 215).

A request claims its revision in `acp_shared.publish_log`, calls the channel and records the outcome.  A claim is a
transaction under READ COMMITTED: it takes its snapshot of the piece's rows, locks them one by one (each is looked at
again once it is locked), decides, and before it makes a new counted row takes the tenant's advisory lock and counts.
Its one write and its commit are one step here: until the commit the write only keeps others waiting.  `finish` and
`unpublish` are one statement each and wait for the lock of their row.

Times are microseconds of UTC. -/

namespace CisApp.Publish

open List

abbrev RowId := Nat
abbrev RequestId := Nat
abbrev PieceId := Nat

/-- `publish_key`: the piece, and its channel with the digest of the text. -/
structure Key where
  piece : PieceId
  revision : Nat
deriving Repr, DecidableEq

inductive Status where
  | requested
  | published
  | unpublished
  | failed
deriving Repr, DecidableEq

/-- A row of `acp_shared.publish_log`. -/
structure LogRow where
  piece : PieceId
  status : Status
  key : Option Key
  requestedAt : Option Nat
  publishedAt : Option Nat
  createdAt : Nat
deriving Repr, DecidableEq

abbrev Log := Table RowId LogRow

def second : Nat := 1000000

/-- `STALE_AFTER_SECONDS`. -/
def staleAfter : Nat := 120 * second

def dayLength : Nat := 86400 * second

/-- `date_trunc('day', now())`. -/
def dayStart (t : Nat) : Nat := t / dayLength * dayLength

/-- The rows that `uq_publish_log_active_key` covers. -/
def LogRow.active (r : LogRow) : Bool := r.status = .requested || r.status = .published

/-- The index refuses the key for the row `k`. -/
def conflict (log : Log) (k : RowId) (key : Key) : Bool :=
  log.count (fun k' r => k' ≠ k && r.active && r.key = some key) ≠ 0

def LogRow.attemptAt (r : LogRow) : Nat := (r.requestedAt.or r.publishedAt).getD r.createdAt

/-- A row of `COUNT_TODAY_SQL` when `now()` is `t`. -/
def LogRow.counted (t : Nat) (r : LogRow) : Bool :=
  (r.active || (r.status = .unpublished && r.publishedAt.isSome)) && dayStart t ≤ r.attemptAt

def countToday (log : Log) (t : Nat) : Nat := log.count fun _ r => r.counted t

/-- `UPDATE .. WHERE publish_id = k`. -/
def setRow (log : Log) (k : RowId) (f : LogRow → LogRow) : Log :=
  match log.get? k with
  | none => log
  | some r => log.upsert k (f r)

/-! ## Requests -/

/-- A claim whose rows are being locked: `now()` of its transaction, the rows to lock and those it has. -/
structure Claiming where
  key : Key
  now : Nat
  todo : List RowId
  rows : List (RowId × LogRow)
deriving Repr, DecidableEq

/-- What a claim has given: the row, `prior_attempt` and `requested_at`. -/
structure Work where
  row : RowId
  key : Key
  prior : Bool
  claimedAt : Nat
deriving Repr, DecidableEq

inductive Phase where
  | started (key : Key) (now : Nat)
  | selecting (c : Claiming)
  | admitted (c : Claiming)
  | counted (c : Claiming)
  | working (w : Work)
  | looked (w : Work)
  | answered (w : Work) (success : Bool)
deriving Repr, DecidableEq

/-- The request has the row locked. -/
def Phase.holds (k : RowId) : Phase → Bool
  | .selecting c => c.rows.any fun e => e.1 = k
  | .admitted c => c.rows.any fun e => e.1 = k
  | .counted c => c.rows.any fun e => e.1 = k
  | _ => false

def Phase.tenantLocked : Phase → Bool
  | .admitted _ => true
  | .counted _ => true
  | _ => false

structure State where
  now : Nat
  log : Log
  requests : Table RequestId Phase
  posts : List Key

def State.put (s : State) (i : RequestId) (p : Phase) : State := { s with requests := s.requests.upsert i p }

def State.drop (s : State) (i : RequestId) : State := { s with requests := s.requests.delete fun j _ => j = i }

def State.lockedFor (s : State) (i : RequestId) (k : RowId) : Bool :=
  s.requests.rows.any fun e => e.1 ≠ i && e.2.holds k

def State.tenantLockedFor (s : State) (i : RequestId) : Bool :=
  s.requests.rows.any fun e => e.1 ≠ i && e.2.tenantLocked

inductive Act where
  | tick (d : Nat)
  | start (i : RequestId) (key : Key)
  /-- The snapshot of the claim's `SELECT`, newest first. -/
  | select (i : RequestId) (order : List RowId)
  | lockRow (i : RequestId)
  | decide (i : RequestId)
  | count (i : RequestId)
  | write (i : RequestId) (newId : RowId)
  /-- `find_remote`; it may raise. -/
  | look (i : RequestId) (answers : Bool)
  /-- `publish_to_channel`: whether it takes effect, and whether it answers. -/
  | post (i : RequestId) (effect answers : Bool)
  | finish (i : RequestId)
  | stop (i : RequestId)
  | unpublish (k : RowId)
deriving Repr, DecidableEq

/-- What the snapshot may return. -/
def snapshot (log : Log) (key : Key) (order : List RowId) : Bool :=
  decide (order.Perm (log.matching fun _ r => r.piece = key.piece)) &&
    decide (order.Pairwise fun k k' =>
      ((log.get? k').map LogRow.createdAt).getD 0 ≤ ((log.get? k).map LogRow.createdAt).getD 0)

def Claiming.same (c : Claiming) : List (RowId × LogRow) := c.rows.filter fun e => e.2.key = some c.key

def Claiming.failed (c : Claiming) : Option (RowId × LogRow) := c.rows.find? fun e => e.2.status = .failed

def Claiming.stale (c : Claiming) (r : LogRow) : Bool := r.requestedAt.any fun t => t + staleAfter < c.now

variable (limit : Option Nat)

/-- The end of a claim after its rows are locked: a replay, an answer, the stale row or the way to a new row. -/
def State.decide (s : State) (i : RequestId) (c : Claiming) : State :=
  if c.same.any fun e => e.2.status = .published then s.drop i
  else
    match c.same.find? fun e => e.2.status = .requested with
    | some (k, r) =>
      if c.stale r then
        { s with log := setRow s.log k fun r => { r with requestedAt := some c.now } }.put i
          (.working ⟨k, c.key, true, c.now⟩)
      else s.drop i
    | none =>
      if limit.isNone then s.put i (.counted c)
      else if s.tenantLockedFor i then s
      else s.put i (.admitted c)

/-- The failed row is reused, or a row is inserted. -/
def State.write (s : State) (i : RequestId) (c : Claiming) (newId : RowId) : State :=
  match c.failed with
  | some (k, r) =>
    if conflict s.log k c.key then s.drop i
    else
      { s with log := setRow s.log k fun r =>
          { r with status := .requested, key := some c.key, requestedAt := some c.now } }.put i
        (.working ⟨k, c.key, r.key = some c.key || r.key = none, c.now⟩)
  | none =>
    if (s.log.get? newId).isSome then s
    else if conflict s.log newId c.key then s.drop i
    else
      { s with log := s.log.upsert newId ⟨c.key.piece, .requested, some c.key, some c.now, none, c.now⟩ }.put i
        (.working ⟨newId, c.key, false, c.now⟩)

/-- `finish`; a success may meet the index. -/
def State.finish (s : State) (i : RequestId) (w : Work) (success : Bool) : State :=
  match s.log.get? w.row with
  | none => s.drop i
  | some r =>
    if success && r.key.any (conflict s.log w.row) then s.drop i
    else
      { s with log := setRow s.log w.row fun r =>
          { r with
            status := if success then .published else .failed
            publishedAt := if success then some s.now else r.publishedAt } }.drop i

def step (s : State) : Act → State
  | .tick d => { s with now := s.now + d }
  | .start i key => if (s.requests.get? i).isSome then s else s.put i (.started key s.now)
  | .select i order =>
    match s.requests.get? i with
    | some (.started key now) => if snapshot s.log key order then s.put i (.selecting ⟨key, now, order, []⟩) else s
    | _ => s
  | .lockRow i =>
    match s.requests.get? i with
    | some (.selecting ⟨key, now, k :: rest, rows⟩) =>
      if s.lockedFor i k then s
      else
        match s.log.get? k with
        | some r => s.put i (.selecting ⟨key, now, rest, rows ++ [(k, r)]⟩)
        | none => s.put i (.selecting ⟨key, now, rest, rows⟩)
    | _ => s
  | .decide i =>
    match s.requests.get? i with
    | some (.selecting ⟨key, now, [], rows⟩) => s.decide limit i ⟨key, now, [], rows⟩
    | _ => s
  | .count i =>
    match s.requests.get? i with
    | some (.admitted c) => if limit.any (· ≤ countToday s.log c.now) then s.drop i else s.put i (.counted c)
    | _ => s
  | .write i newId =>
    match s.requests.get? i with
    | some (.counted c) => s.write i c newId
    | _ => s
  | .look i answers =>
    match s.requests.get? i with
    | some (.working w) =>
      if !w.prior then s
      else if !answers then s.put i (.answered w false)
      else if w.key ∈ s.posts then s.put i (.answered w true)
      else s.put i (.looked w)
    | _ => s
  | .post i effect answers =>
    match s.requests.get? i with
    | some (.working w) =>
      if w.prior then s
      else { s with posts := if effect || answers then w.key :: s.posts else s.posts }.put i (.answered w answers)
    | some (.looked w) =>
      { s with posts := if effect || answers then w.key :: s.posts else s.posts }.put i (.answered w answers)
    | _ => s
  | .finish i =>
    match s.requests.get? i with
    | some (.answered w success) => if s.lockedFor i w.row then s else s.finish i w success
    | _ => s
  | .stop i => s.drop i
  | .unpublish k =>
    if s.requests.rows.any (fun e => e.2.holds k) then s
    else
      { s with log := setRow s.log k fun r =>
          if r.status = .published then { r with status := .unpublished } else r }

/-! ## What a step can do -/

/-- The transaction of a claim that has its snapshot. -/
def Phase.claiming? : Phase → Option Claiming
  | .selecting c => some c
  | .admitted c => some c
  | .counted c => some c
  | _ => none

def Phase.began? : Phase → Option Nat
  | .started _ now => some now
  | p => p.claiming?.map (·.now)

/-- What a claim has given. -/
def Phase.work? : Phase → Option Work
  | .working w => some w
  | .looked w => some w
  | .answered w _ => some w
  | _ => none

/-- A request goes on without a write. -/
inductive Turn (s : State) (i : RequestId) : Option Phase → Phase → Prop
  | start (key : Key) : Turn s i none (.started key s.now)
  | select {key : Key} {now : Nat} {order : List RowId} (h : snapshot s.log key order = true) :
      Turn s i (some (.started key now)) (.selecting ⟨key, now, order, []⟩)
  | lock {key : Key} {now : Nat} {k : RowId} {rest : List RowId} {rows : List (RowId × LogRow)} {r : LogRow}
      (hfree : s.lockedFor i k = false) (hr : s.log.get? k = some r) :
      Turn s i (some (.selecting ⟨key, now, k :: rest, rows⟩)) (.selecting ⟨key, now, rest, rows ++ [(k, r)]⟩)
  | skip {key : Key} {now : Nat} {k : RowId} {rest : List RowId} {rows : List (RowId × LogRow)}
      (hr : s.log.get? k = none) :
      Turn s i (some (.selecting ⟨key, now, k :: rest, rows⟩)) (.selecting ⟨key, now, rest, rows⟩)
  | lockTenant {c : Claiming} (hfree : s.tenantLockedFor i = false) : Turn s i (some (.selecting c)) (.admitted c)
  | unlimited {c : Claiming} (h : limit = none) : Turn s i (some (.selecting c)) (.counted c)
  | count {c : Claiming} (h : limit.any (· ≤ countToday s.log c.now) = false) :
      Turn s i (some (.admitted c)) (.counted c)
  | unknown {w : Work} : Turn s i (some (.working w)) (.answered w false)
  | found {w : Work} (h : w.key ∈ s.posts) : Turn s i (some (.working w)) (.answered w true)
  | missing {w : Work} (h : w.key ∉ s.posts) : Turn s i (some (.working w)) (.looked w)

inductive Move (s : State) : Act → State → Prop
  | stay (a : Act) : Move s a s
  | tick (d : Nat) : Move s (.tick d) { s with now := s.now + d }
  | turn {a : Act} {i : RequestId} {p : Phase} (h : Turn limit s i (s.requests.get? i) p) : Move s a (s.put i p)
  | drop (a : Act) (i : RequestId) : Move s a (s.drop i)
  | reclaim {i : RequestId} {c : Claiming} {k : RowId} {r : LogRow}
      (hi : s.requests.get? i = some (.selecting c)) (htodo : c.todo = [])
      (hpublished : c.same.any (fun e => e.2.status = .published) = false)
      (hfind : c.same.find? (fun e => e.2.status = .requested) = some (k, r)) (hstale : c.stale r = true) :
      Move s (.decide i) ({ s with log := setRow s.log k fun r => { r with requestedAt := some c.now } }.put i
        (.working ⟨k, c.key, true, c.now⟩))
  | reuse {i : RequestId} {newId : RowId} {c : Claiming} {k : RowId} {r : LogRow}
      (hi : s.requests.get? i = some (.counted c)) (hfailed : c.failed = some (k, r))
      (hfree : conflict s.log k c.key = false) :
      Move s (.write i newId) ({ s with log := setRow s.log k fun r =>
          { r with status := .requested, key := some c.key, requestedAt := some c.now } }.put i
        (.working ⟨k, c.key, r.key = some c.key || r.key = none, c.now⟩))
  | insert {i : RequestId} {k : RowId} {c : Claiming} (hi : s.requests.get? i = some (.counted c))
      (hfailed : c.failed = none) (hnew : s.log.get? k = none) (hfree : conflict s.log k c.key = false) :
      Move s (.write i k)
        ({ s with log := s.log.upsert k ⟨c.key.piece, .requested, some c.key, some c.now, none, c.now⟩ }.put i
          (.working ⟨k, c.key, false, c.now⟩))
  | post {i : RequestId} {w : Work} {effect answers : Bool}
      (hi : s.requests.get? i = some (.working w) ∧ w.prior = false ∨ s.requests.get? i = some (.looked w)) :
      Move s (.post i effect answers)
        ({ s with posts := if effect || answers then w.key :: s.posts else s.posts }.put i (.answered w answers))
  | finish {i : RequestId} {w : Work} {success : Bool} {r : LogRow}
      (hi : s.requests.get? i = some (.answered w success)) (hr : s.log.get? w.row = some r)
      (hlock : s.lockedFor i w.row = false) (hfree : success = true → r.key.any (conflict s.log w.row) = false) :
      Move s (.finish i) ({ s with log := setRow s.log w.row fun r =>
          { r with
            status := if success then .published else .failed
            publishedAt := if success then some s.now else r.publishedAt } }.drop i)
  | unpublish {k : RowId} (hfree : s.requests.rows.any (fun e => e.2.holds k) = false) :
      Move s (.unpublish k) { s with log := setRow s.log k fun r =>
        if r.status = .published then { r with status := .unpublished } else r }

variable {s : State} {i : RequestId}

theorem decide_move {c : Claiming} (hi : s.requests.get? i = some (.selecting c))
    (htodo : c.todo = []) : Move limit s (.decide i) (s.decide limit i c) := by
  unfold State.decide
  split
  · exact .drop _ i
  · next hpublished =>
    split
    · next k r hfind =>
      split
      · next hstale => exact .reclaim hi htodo (Bool.eq_false_iff.2 hpublished) hfind hstale
      · exact .drop _ i
    · split
      · next hnone => exact .turn (hi ▸ .unlimited (by simpa using hnone))
      · split
        · exact .stay _
        · next hfree => exact .turn (hi ▸ .lockTenant (Bool.eq_false_iff.2 hfree))

theorem write_move {c : Claiming} (hi : s.requests.get? i = some (.counted c))
    (newId : RowId) : Move limit s (.write i newId) (s.write i c newId) := by
  unfold State.write
  split
  · next k r hfailed =>
    split
    · exact .drop _ i
    · next hfree => exact .reuse hi hfailed (Bool.eq_false_iff.2 hfree)
  · next hfailed =>
    split
    · exact .stay _
    · next hnew =>
      split
      · exact .drop _ i
      · next hfree => exact .insert hi hfailed (by simpa using hnew) (Bool.eq_false_iff.2 hfree)

theorem finish_move {w : Work} {success : Bool}
    (hi : s.requests.get? i = some (.answered w success)) (hlock : s.lockedFor i w.row = false) :
    Move limit s (.finish i) (s.finish i w success) := by
  unfold State.finish
  split
  · exact .drop _ i
  · next r hr =>
    split
    · exact .drop _ i
    · next hfree =>
      refine .finish hi hr hlock fun hs => ?_
      subst hs
      simpa using hfree

theorem step_move (s : State) (a : Act) : Move limit s a (step limit s a) := by
  cases a with
  | tick d => exact .tick d
  | start i key =>
    simp only [step]
    split
    · exact .stay _
    · next hnone =>
      have hi : s.requests.get? i = none := by simpa using hnone
      exact .turn (hi ▸ .start key)
  | select i order =>
    simp only [step]
    split
    · next key now hi =>
      split
      · next h => exact .turn (hi ▸ .select h)
      · exact .stay _
    · exact .stay _
  | lockRow i =>
    simp only [step]
    split
    · next key now k rest rows hi =>
      split
      · exact .stay _
      · next hfree =>
        split
        · next r hr => exact .turn (hi ▸ .lock (Bool.eq_false_iff.2 hfree) hr)
        · next hr => exact .turn (hi ▸ .skip hr)
    · exact .stay _
  | decide i =>
    simp only [step]
    split
    · next key now rows hi => exact decide_move limit hi rfl
    · exact .stay _
  | count i =>
    simp only [step]
    split
    · next c hi =>
      split
      · exact .drop _ i
      · next h => exact .turn (hi ▸ .count (Bool.eq_false_iff.2 h))
    · exact .stay _
  | write i newId =>
    simp only [step]
    split
    · next c hi => exact write_move limit hi newId
    · exact .stay _
  | look i answers =>
    simp only [step]
    split
    · next w hi =>
      split
      · exact .stay _
      · split
        · exact .turn (hi ▸ .unknown)
        · split
          · next h => exact .turn (hi ▸ .found h)
          · next h => exact .turn (hi ▸ .missing h)
    · exact .stay _
  | post i effect answers =>
    simp only [step]
    split
    · next w hi =>
      split
      · exact .stay _
      · next hprior => exact .post (Or.inl ⟨hi, Bool.eq_false_iff.2 hprior⟩)
    · next w hi => exact .post (Or.inr hi)
    · exact .stay _
  | finish i =>
    simp only [step]
    split
    · next w success hi =>
      split
      · exact .stay _
      · next hlock => exact finish_move limit hi (Bool.eq_false_iff.2 hlock)
    · exact .stay _
  | stop i => exact .drop _ i
  | unpublish k =>
    simp only [step]
    split
    · exact .stay _
    · next hfree => exact .unpublish (Bool.eq_false_iff.2 hfree)

/-! ## Locks -/

theorem get?_setRow (log : Log) (k k' : RowId) (f : LogRow → LogRow) :
    (setRow log k f).get? k' = if k' = k then (log.get? k).map f else log.get? k' := by
  unfold setRow
  cases h : log.get? k with
  | none =>
    by_cases hk : k' = k
    · subst hk
      rw [if_pos rfl]
      exact h
    · rw [if_neg hk]
  | some r => rw [Table.get?_upsert, Option.map_some]

theorem get?_put (s : State) (i j : RequestId) (p : Phase) :
    (s.put i p).requests.get? j = if j = i then some p else s.requests.get? j := by
  exact Table.get?_upsert _ _ _ _

variable {p : Phase}

variable {j : RequestId}

theorem get?_drop (h : (s.drop i).requests.get? j = some p) : j ≠ i ∧ s.requests.get? j = some p := by
  unfold State.drop at h
  rw [Table.get?_delete, Option.filter_eq_some_iff] at h
  exact ⟨by simpa using h.2, h.1⟩

variable {k : RowId}

theorem holds_iff : p.holds k = true ↔ ∃ c r, p.claiming? = some c ∧ (k, r) ∈ c.rows := by
  cases p with
  | selecting c => simp [Phase.holds, Phase.claiming?]
  | admitted c => simp [Phase.holds, Phase.claiming?]
  | counted c => simp [Phase.holds, Phase.claiming?]
  | _ => simp [Phase.holds, Phase.claiming?]

theorem not_holds_of_free (h : s.lockedFor i k = false)
    (hj : s.requests.get? j = some p) (hij : j ≠ i) : p.holds k = false := by
  unfold State.lockedFor at h
  rw [any_eq_false] at h
  have hone := h (j, p) ((Table.get?_eq_some_iff _ _ _).1 hj)
  rw [Bool.and_eq_true, not_and, decide_eq_true_eq] at hone
  exact Bool.eq_false_iff.2 (hone hij)

/-- What the claims have locked is as they have read it, and no two have the same row. -/
structure Locks (s : State) : Prop where
  read : ∀ i p c, s.requests.get? i = some p → p.claiming? = some c → ∀ e ∈ c.rows, s.log.get? e.1 = some e.2
  apart : ∀ i j p q k, s.requests.get? i = some p → s.requests.get? j = some q → p.holds k = true →
    q.holds k = true → i = j

theorem Locks.put (hs : Locks s) (hread : ∀ c, p.claiming? = some c → ∀ e ∈ c.rows, s.log.get? e.1 = some e.2)
    (hfree : ∀ k, p.holds k = true → ∀ j q, j ≠ i → s.requests.get? j = some q → q.holds k = false) :
    Locks (s.put i p) := by
  constructor
  · intro j q c hj hc e he
    rw [get?_put] at hj
    split at hj
    · cases hj
      exact hread c hc e he
    · exact hs.read j q c hj hc e he
  · intro j j' q q' k hj hj' hq hq'
    rw [get?_put] at hj hj'
    by_cases hi : j = i
    · by_cases hi' : j' = i
      · exact hi.trans hi'.symm
      · rw [if_pos hi] at hj
        rw [if_neg hi'] at hj'
        cases hj
        rw [hfree k hq j' q' hi' hj'] at hq'
        cases hq'
    · rw [if_neg hi] at hj
      by_cases hi' : j' = i
      · rw [if_pos hi'] at hj'
        cases hj'
        rw [hfree k hq' j q hi hj] at hq
        cases hq
      · rw [if_neg hi'] at hj'
        exact hs.apart j j' q q' k hj hj' hq hq'

theorem Locks.drop (hs : Locks s) (i : RequestId) : Locks (s.drop i) := by
  constructor
  · intro j p c hj
    exact hs.read j p c (get?_drop hj).2
  · intro j j' p q k hj hj'
    exact hs.apart j j' p q k (get?_drop hj).2 (get?_drop hj').2

theorem Locks.log (hs : Locks s) {log : Log} (h : ∀ i p k, s.requests.get? i = some p →
    p.holds k = true → log.get? k = s.log.get? k) : Locks { s with log := log } := by
  refine ⟨fun i p c hi hc e he => ?_, hs.apart⟩
  show log.get? e.1 = some e.2
  rw [h i p e.1 hi (holds_iff.2 ⟨c, e.2, hc, he⟩)]
  exact hs.read i p c hi hc e he

theorem Locks.others (hs : Locks s) (hi : s.requests.get? i = some p)
    (hk : p.holds k = true) {q : Phase} (hj : s.requests.get? j = some q) (hji : j ≠ i) : q.holds k = false := by
  by_contra hq
  exact hji (hs.apart j i q p k hj hi (Bool.eq_true_of_not_eq_false hq) hk)

theorem Locks.write (hs : Locks s) {log : Log} {p' : Phase}
    (hother : ∀ j q, j ≠ i → s.requests.get? j = some q → q.holds k = false)
    (hlog : ∀ k', k' ≠ k → log.get? k' = s.log.get? k') (hp' : p'.claiming? = none) :
    Locks ({ s with log := log }.put i p') := by
  have hnone : ∀ k, p'.holds k = false := by
    intro k
    rw [Bool.eq_false_iff]
    intro h
    obtain ⟨c, r, hc, -⟩ := holds_iff.1 h
    rw [hp'] at hc
    cases hc
  constructor
  · intro j q c hj hc e he
    rw [get?_put] at hj
    split at hj
    · cases hj
      rw [hp'] at hc
      cases hc
    · next hji =>
      have hq := hother j q hji hj
      have hne : e.1 ≠ k := by
        rintro rfl
        rw [holds_iff.2 ⟨c, e.2, hc, he⟩] at hq
        cases hq
      show log.get? e.1 = some e.2
      rw [hlog e.1 hne]
      exact hs.read j q c hj hc e he
  · intro j j' q q' k' hj hj' hq hq'
    rw [get?_put] at hj hj'
    split at hj
    · cases hj
      rw [hnone] at hq
      cases hq
    · split at hj'
      · cases hj'
        rw [hnone] at hq'
        cases hq'
      · exact hs.apart j j' q q' k' hj hj' hq hq'

section Moves

variable {limit}

theorem holds_same {c : Claiming} {p : Phase} (hp : p.claiming? = some c) {f : RowId × LogRow → Bool} {k : RowId}
    {r : LogRow} (h : c.same.find? f = some (k, r)) : (k, r) ∈ c.rows ∧ p.holds k = true := by
  have hmem : (k, r) ∈ c.rows := (mem_filter.1 (List.mem_of_find?_eq_some h)).1
  exact ⟨hmem, holds_iff.2 ⟨c, r, hp, hmem⟩⟩

theorem holds_failed {c : Claiming} {p : Phase} (hp : p.claiming? = some c) {k : RowId} {r : LogRow}
    (h : c.failed = some (k, r)) : (k, r) ∈ c.rows ∧ p.holds k = true ∧ r.status = .failed := by
  have hmem : (k, r) ∈ c.rows := List.mem_of_find?_eq_some h
  have hstatus := List.find?_some h
  exact ⟨hmem, holds_iff.2 ⟨c, r, hp, hmem⟩, by simpa using hstatus⟩

theorem Locks.turn {s : State} (hs : Locks s) {i : RequestId} {p : Phase}
    (h : Turn limit s i (s.requests.get? i) p) : Locks (s.put i p) := by
  -- a phase with the same rows, or with none
  have hsame : ∀ q c, s.requests.get? i = some q → q.claiming? = some c → p.claiming? = some c →
      Locks (s.put i p) := by
    intro q c hi hq hp
    refine hs.put (fun c' hc' => ?_) (fun k hk j q' hji hj => ?_)
    · rw [hp] at hc'
      cases hc'
      exact hs.read i q c hi hq
    · obtain ⟨c', r, hc', hmem⟩ := holds_iff.1 hk
      rw [hp] at hc'
      cases hc'
      exact hs.others hi (holds_iff.2 ⟨c, r, hq, hmem⟩) hj hji
  have hempty : (∀ c, p.claiming? = some c → c.rows = []) → Locks (s.put i p) := by
    intro hp
    refine hs.put (fun c hc e he => ?_) (fun k hk => ?_)
    · rw [hp c hc] at he
      cases he
    · obtain ⟨c, r, hc, hmem⟩ := holds_iff.1 hk
      rw [hp c hc] at hmem
      cases hmem
  generalize hi : s.requests.get? i = before at h
  cases h with
  | start key => exact hempty nofun
  | select hsnap =>
    refine hempty fun c hc => ?_
    cases hc
    rfl
  | @lock key now k rest rows r hfree hr =>
    refine hs.put (fun c hc e he => ?_) (fun k' hk' j q hji hj => ?_)
    · cases hc
      rcases mem_append.1 he with he | he
      · exact hs.read i _ _ hi rfl e he
      · obtain rfl := mem_singleton.1 he
        exact hr
    · obtain ⟨c, r', hc, hmem⟩ := holds_iff.1 hk'
      cases hc
      rcases mem_append.1 hmem with hmem | hmem
      · exact hs.others hi (holds_iff.2 ⟨_, r', rfl, hmem⟩) hj hji
      · obtain ⟨rfl, rfl⟩ := Prod.mk.injEq _ _ _ _ ▸ mem_singleton.1 hmem
        exact not_holds_of_free hfree hj hji
  | @skip key now k rest rows hr =>
    refine hs.put (fun c hc e he => ?_) (fun k' hk' j q hji hj => ?_)
    · cases hc
      exact hs.read i _ _ hi rfl e he
    · obtain ⟨c, r', hc, hmem⟩ := holds_iff.1 hk'
      cases hc
      exact hs.others hi (holds_iff.2 ⟨_, r', rfl, hmem⟩) hj hji
  | lockTenant hfree => exact hsame _ _ hi rfl rfl
  | unlimited h => exact hsame _ _ hi rfl rfl
  | count h => exact hsame _ _ hi rfl rfl
  | unknown => exact hempty nofun
  | found h => exact hempty nofun
  | missing h => exact hempty nofun

theorem get?_setRow_ne {log : Log} {k k' : RowId} (h : k' ≠ k) (f : LogRow → LogRow) :
    (setRow log k f).get? k' = log.get? k' := by
  rw [get?_setRow, if_neg h]

theorem Locks.move {s s' : State} {a : Act} (hs : Locks s) (h : Move limit s a s') : Locks s' := by
  cases h with
  | stay => exact hs
  | tick d => exact ⟨hs.read, hs.apart⟩
  | turn h => exact hs.turn h
  | drop _ i => exact hs.drop i
  | reclaim hi htodo hpublished hfind hstale =>
    obtain ⟨hmem, hk⟩ := holds_same (p := .selecting _) rfl hfind
    exact hs.write (fun j q hji hj => hs.others hi hk hj hji) (fun k' hk' => get?_setRow_ne hk' _) rfl
  | reuse hi hfailed hfree =>
    obtain ⟨hmem, hk, -⟩ := holds_failed (p := .counted _) rfl hfailed
    exact hs.write (fun j q hji hj => hs.others hi hk hj hji) (fun k' hk' => get?_setRow_ne hk' _) rfl
  | @insert i k c hi hfailed hnew hfree =>
    refine hs.write (k := k) (fun j q hji hj => ?_) (fun k' hk' => ?_) rfl
    · rw [Bool.eq_false_iff]
      intro hq
      obtain ⟨c', r, hc', hmem⟩ := holds_iff.1 hq
      have hread := hs.read j q c' hj hc' _ hmem
      rw [hnew] at hread
      cases hread
    · rw [Table.get?_upsert, if_neg hk']
  | @post i w effect answers hi =>
    have hs' : Locks { s with posts := if effect || answers then w.key :: s.posts else s.posts } :=
      ⟨hs.read, hs.apart⟩
    refine Locks.put hs' (fun c hc => ?_) (fun k hk => ?_)
    · cases hc
    · cases hk
  | @finish i w success r hi hr hlock hfree =>
    refine (hs.log fun j p k hj hk => ?_).drop i
    refine get?_setRow_ne ?_ _
    rintro rfl
    by_cases hji : j = i
    · subst hji
      rw [hi] at hj
      cases hj
      cases hk
    · rw [not_holds_of_free hlock hj hji] at hk
      cases hk
  | @unpublish k hfree =>
    refine hs.log fun j p k' hj hk' => ?_
    refine get?_setRow_ne ?_ _
    rintro rfl
    rw [any_eq_false] at hfree
    exact hfree (j, p) ((Table.get?_eq_some_iff _ _ _).1 hj) hk'

end Moves

end CisApp.Publish
