import CisApp.Entitlements.Sync
import CisApp.Feed.Events

/-! The account feed against the tables (migrations 353 and 354).

Transactions run side by side.  `tenant_entitlement_sync` takes the tenant's advisory lock, reads the rows
as its transaction sees them and writes one row and one event for each key that differs; what the resolver
gives is any table of rows here.  An `UPDATE` of `shared.tenants` takes the row's lock, and the triggers of
migration 354 derive the status and write its event.  The events of a transaction carry the `txid` it got at
its first write of anything.

Row and event are written together, so in the order in which the transactions commit the last event of a key
tells its row (`Agrees`).  The feed is in another order, that of `(txid, seq)`. -/

namespace CisApp.Entitlements

open Feed (Event)

/-! ## Account status -/

inductive Status where
  | lead
  | applied
  | trial
  | active
  | pastDue
  | suspended
  | offboarding
  | closed
deriving Repr, DecidableEq

inductive SuspendReason where
  | billing
  | compliance
  | security
  | tenantRequest
deriving Repr, DecidableEq

def Status.live (st : Status) : Bool := st ∈ [Status.trial, .active, .pastDue]

def Status.ended (st : Status) : Bool := st ∈ [Status.offboarding, .closed]

/-- The status columns of a row of `shared.tenants`.  `is_active` and `cancelled_at` follow the status: the one
is true for a live status, the other is set for an ended one. -/
structure Account where
  status : Status
  suspendReason : Option SuspendReason
deriving Repr, DecidableEq

/-- What `SET cancelled_at = …` writes: null, the value that was there or another time. -/
inductive CancelledAt where
  | null
  | same
  | other
deriving Repr, DecidableEq

/-- The columns that an `UPDATE` of `shared.tenants` names. -/
structure AccountSet where
  status : Option Status
  suspendReason : Option (Option SuspendReason)
  isActive : Option Bool
  cancelledAt : Option CancelledAt
deriving Repr, DecidableEq

/-- What an `INSERT` gives. -/
structure AccountNew where
  status : Status
  suspendReason : Option SuspendReason
  isActive : Bool
  cancelled : Bool
deriving Repr, DecidableEq

/-- `suspend_reason` is cleared unless the account is suspended. -/
def Account.of (status : Status) (reason : Option SuspendReason) : Account :=
  ⟨status, if status = .suspended then reason else none⟩

/-- `tenants_account_status_sync` on an `INSERT`. -/
def insertedAccount (new : AccountNew) : Account :=
  if new.cancelled && !new.status.ended then .of .offboarding new.suspendReason
  else if !new.isActive && new.status.live then .of .suspended new.suspendReason
  else .of new.status new.suspendReason

/-- The status that `tenants_account_status_sync` derives on an `UPDATE`. -/
def derivedStatus (old : Status) (set : AccountSet) : Status :=
  let status := set.status.getD old
  let isActive := set.isActive.getD old.live
  let (cancelled, moved) :=
    match set.cancelledAt with
    | some .null => (false, old.ended)
    | some .other => (true, true)
    | _ => (old.ended, false)
  if status = old && (isActive ≠ old.live || moved) then
    if cancelled then if old.ended then status else .offboarding
    else if !isActive then if old.live || old.ended then .suspended else status
    else if old ∈ [Status.suspended, .offboarding, .closed, .lead, .applied] then .active
    else status
  else status

def updatedAccount (old : Account) (set : AccountSet) : Account :=
  .of (derivedStatus old.status set) (set.suspendReason.getD old.suspendReason)

def AccountSet.names (set : AccountSet) : Bool :=
  set.status.isSome || set.suspendReason.isSome || set.isActive.isSome || set.cancelledAt.isSome

/-! ## Transactions -/

inductive Body where
  | entitlement (tenant : Nat) (change : Change)
  | status (tenant : Nat) (account : Account) (previous : Option Status)
  /-- A `subscription.changed` event. -/
  | subscription (tenant : Nat)
deriving Repr, DecidableEq

structure Tables where
  granted : Granted
  tenants : Table Nat Account

inductive RowWrite where
  | entitlement (tenant : Nat) (key : String) (row : Option Row)
  | account (tenant : Nat) (account : Account)
deriving Repr, DecidableEq

def Tables.apply (tables : Tables) : RowWrite → Tables
  | .entitlement tenant key row => { tables with granted := applyRow tenant tables.granted key row }
  | .account tenant account => { tables with tenants := tables.tenants.upsert tenant account }

structure Work where
  advisory : List Nat
  rowLocks : List Nat
  writes : List RowWrite

def Work.view (w : Work) (tables : Tables) : Tables := w.writes.foldl Tables.apply tables

structure State where
  feed : Feed.State Body
  /-- The committed rows. -/
  tables : Tables
  work : Table Nat Work

def init : State := ⟨Feed.init, ⟨Table.empty, Table.empty⟩, Table.empty⟩

inductive Act where
  | start (i : Nat)
  /-- A write of something that has no event. -/
  | write (i : Nat)
  | subscription (i tenant : Nat)
  | sync (i tenant : Nat) (want : Table String Row)
  | insertTenant (i tenant : Nat) (new : AccountNew)
  | updateTenant (i tenant : Nat) (set : AccountSet)
  | commit (i : Nat)
  | abort (i : Nat)

/-- `tenant_account_emit`; it fails when there is no id left. -/
def emit? (feed : Feed.State Body) (i : Nat) (body : Body) : Option (Feed.State Body) :=
  let feed' := Feed.step feed (.emit i body)
  if feed'.nextSeq = feed.nextSeq + 1 then some feed' else none

def emitAll? (feed : Feed.State Body) (i : Nat) : List Body → Option (Feed.State Body)
  | [] => some feed
  | body :: bodies => (emit? feed i body).bind fun feed' => emitAll? feed' i bodies

def State.waits (s : State) (i : Nat) (held : Work → Bool) : Bool :=
  s.work.rows.any fun x => x.1 ≠ i && held x.2

/-- The transaction `i` writes rows with their events. -/
def State.record (s : State) (i : Nat) (w : Work) (writes : List RowWrite) (bodies : List Body) : State :=
  match emitAll? s.feed i bodies with
  | none => s
  | some feed => { s with feed := feed, work := s.work.upsert i { w with writes := w.writes ++ writes } }

def step (s : State) : Act → State
  | .start i =>
    if (s.work.get? i).isSome then s
    else { s with feed := Feed.step s.feed (.start i), work := s.work.upsert i ⟨[], [], []⟩ }
  | .write i => { s with feed := Feed.step s.feed (.write i) }
  | .subscription i tenant =>
    match s.work.get? i with
    | none => s
    | some w => s.record i w [] [.subscription tenant]
  | .sync i tenant want =>
    match s.work.get? i with
    | none => s
    | some w =>
      if ((w.view s.tables).tenants.get? tenant).isNone || s.waits i (fun v => v.advisory.contains tenant) then s
      else
        let turns := diff tenant want (w.view s.tables).granted
        s.record i { w with advisory := tenant :: w.advisory }
          (turns.map fun x => .entitlement tenant x.key x.row) (turns.map fun x => .entitlement tenant x.change)
  | .insertTenant i tenant new =>
    match s.work.get? i with
    | none => s
    | some w =>
      if ((w.view s.tables).tenants.get? tenant).isSome || s.waits i (fun v => v.rowLocks.contains tenant) then s
      else
        s.record i { w with rowLocks := tenant :: w.rowLocks } [.account tenant (insertedAccount new)]
          [.status tenant (insertedAccount new) none]
  | .updateTenant i tenant set =>
    match s.work.get? i with
    | none => s
    | some w =>
      match (w.view s.tables).tenants.get? tenant with
      | none => s
      | some old =>
        if s.waits i (fun v => v.rowLocks.contains tenant) then s
        else if set.names && updatedAccount old set ≠ old then
          s.record i { w with rowLocks := tenant :: w.rowLocks } [.account tenant (updatedAccount old set)]
            [.status tenant (updatedAccount old set) (some old.status)]
        else s.record i { w with rowLocks := tenant :: w.rowLocks } [] []
  | .commit i =>
    match s.work.get? i with
    | none => s
    | some w =>
      { feed := Feed.step s.feed (.commit i)
        tables := w.view s.tables
        work := s.work.delete fun j _ => j = i }
  | .abort i => { s with feed := Feed.step s.feed (.abort i), work := s.work.delete fun j _ => j = i }

/-! ## What the events tell -/

/-- The event of a key. -/
def Body.change? (tenant : Nat) (key : String) : Body → Option Change
  | .entitlement t c => if t = tenant ∧ c.featureKey = key then some c else none
  | _ => none

/-- The status event of a tenant. -/
def Body.account? (tenant : Nat) : Body → Option Account
  | .status t a _ => if t = tenant then some a else none
  | _ => none

/-- The last event of a key and its row. -/
def Tells : Option Change → Option Row → Prop
  | none, row => row = none
  | some c, none => c.op = .removed
  | some c, some r => c.op ≠ .removed ∧ c.limit = r.limitValue ∧ c.source = some r.source ∧ c.expiresAt = r.expiresAt

/-- The last event of each key, and of each account, tells its row. -/
structure Agrees (tables : Tables) (bodies : List Body) : Prop where
  entitlements : ∀ tenant key,
    Tells (bodies.filterMap (Body.change? tenant key)).getLast? (tables.granted.get? (tenant, key))
  accounts : ∀ tenant, (bodies.filterMap (Body.account? tenant)).getLast? = tables.tenants.get? tenant

/-- A row and the event written with it. -/
def Matches : RowWrite → Body → Prop
  | .entitlement tenant key row, .entitlement t c => t = tenant ∧ c.featureKey = key ∧ Tells (some c) row
  | .account tenant account, .status t a _ => t = tenant ∧ a = account
  | _, _ => False

/-- The writes of a transaction beside its events. -/
inductive Paired : List RowWrite → List Body → Prop where
  | nil : Paired [] []
  | write {ws bs w b} : Paired ws bs → Matches w b → Paired (ws ++ [w]) (bs ++ [b])
  | subscription {ws bs} (tenant : Nat) : Paired ws bs → Paired ws (bs ++ [.subscription tenant])

theorem getLast?_filterMap_concat {α β : Type} (f : α → Option β) (xs : List α) (x : α) :
    ((xs ++ [x]).filterMap f).getLast? = (f x).or (xs.filterMap f).getLast? := by
  cases hx : f x with
  | none => simp [hx]
  | some y => simp [hx]

theorem Agrees.write {tables : Tables} {bodies : List Body} (h : Agrees tables bodies) {w : RowWrite} {b : Body}
    (hm : Matches w b) : Agrees (tables.apply w) (bodies ++ [b]) := by
  cases w with
  | entitlement tenant key row =>
    cases b with
    | entitlement t c =>
      obtain ⟨rfl, rfl, htells⟩ := hm
      refine ⟨fun tenant' key' => ?_, fun tenant' => ?_⟩
      · rw [getLast?_filterMap_concat]
        unfold Tables.apply Body.change?
        dsimp only
        rw [get?_applyRow]
        by_cases hk : t = tenant' ∧ c.featureKey = key'
        · rw [if_pos hk, if_pos (Prod.ext hk.1.symm hk.2.symm)]
          exact htells
        · rw [if_neg hk, if_neg fun heq => hk ⟨(congrArg Prod.fst heq).symm, (congrArg Prod.snd heq).symm⟩]
          exact h.entitlements tenant' key'
      · rw [getLast?_filterMap_concat]
        exact h.accounts tenant'
    | status t a previous => cases hm
    | subscription t => cases hm
  | account tenant account =>
    cases b with
    | entitlement t c => cases hm
    | status t a previous =>
      obtain ⟨rfl, rfl⟩ := hm
      refine ⟨fun tenant' key' => ?_, fun tenant' => ?_⟩
      · rw [getLast?_filterMap_concat]
        exact h.entitlements tenant' key'
      · rw [getLast?_filterMap_concat]
        unfold Tables.apply Body.account?
        dsimp only
        rw [Table.get?_upsert]
        by_cases ht : t = tenant'
        · rw [if_pos ht, if_pos ht.symm]
          rfl
        · rw [if_neg ht, if_neg (Ne.symm ht)]
          exact h.accounts tenant'
    | subscription t => cases hm

theorem Agrees.subscription {tables : Tables} {bodies : List Body} (h : Agrees tables bodies) (tenant : Nat) :
    Agrees tables (bodies ++ [.subscription tenant]) := by
  refine ⟨fun tenant' key' => ?_, fun tenant' => ?_⟩
  · rw [getLast?_filterMap_concat]
    exact h.entitlements tenant' key'
  · rw [getLast?_filterMap_concat]
    exact h.accounts tenant'

theorem Agrees.paired {tables : Tables} {bodies : List Body} (h : Agrees tables bodies) {ws : List RowWrite}
    {bs : List Body} (hp : Paired ws bs) : Agrees (ws.foldl Tables.apply tables) (bodies ++ bs) := by
  induction hp with
  | nil =>
    rw [List.append_nil]
    exact h
  | write _ hm ih =>
    rw [List.foldl_append, ← List.append_assoc]
    exact ih.write hm
  | subscription tenant _ ih =>
    rw [← List.append_assoc]
    exact ih.subscription tenant

theorem matches_turn {tenant : Nat} {want : Table String Row} {rows : Granted} {x : Turn}
    (hx : x ∈ diff tenant want rows) :
    Matches (.entitlement tenant x.key x.row) (.entitlement tenant x.change) := by
  have hturn := mem_diff.1 hx
  refine ⟨rfl, (turn_key hturn).2, ?_⟩
  unfold turn at hturn
  split at hturn
  · cases hturn
  · have := Option.some.inj hturn
    rw [← this]
    rfl
  · have := Option.some.inj hturn
    rw [← this]
    exact ⟨Op.noConfusion, rfl, rfl, rfl⟩
  · split at hturn
    · have := Option.some.inj hturn
      rw [← this]
      exact ⟨Op.noConfusion, rfl, rfl, rfl⟩
    · cases hturn

theorem Paired.turns {ws : List RowWrite} {bs : List Body} (hp : Paired ws bs) {tenant : Nat} {turns : List Turn}
    (h : ∀ x ∈ turns, Matches (.entitlement tenant x.key x.row) (.entitlement tenant x.change)) :
    Paired (ws ++ turns.map fun x => .entitlement tenant x.key x.row)
      (bs ++ turns.map fun x => .entitlement tenant x.change) := by
  induction turns generalizing ws bs with
  | nil => simpa using hp
  | cons x turns ih =>
    have hrest := ih (hp.write (h x List.mem_cons_self)) fun y hy => h y (List.mem_cons_of_mem _ hy)
    simpa using hrest

/-! ## The invariant -/

structure Inv (s : State) : Prop where
  /-- The writes of an open transaction beside the events it has written. -/
  work : ∀ i w, s.work.get? i = some w →
    ∃ fw, s.feed.writers.get? i = some fw ∧ Paired w.writes (fw.own.map Event.body)
  writers : ∀ i fw, s.feed.writers.get? i = some fw → ∃ w, s.work.get? i = some w
  agrees : Agrees s.tables (s.feed.events.map Event.body)

theorem emit?_eq_some {feed feed' : Feed.State Body} {i : Nat} {body : Body} {fw : Feed.Writer Body}
    (hi : feed.writers.get? i = some fw) (h : emit? feed i body = some feed') :
    ∃ fw', feed'.writers = feed.writers.upsert i fw' ∧ fw'.own.map Event.body = fw.own.map Event.body ++ [body] ∧
      feed'.events = feed.events := by
  unfold emit? at h
  dsimp only at h
  split at h
  · next hseq =>
    cases h
    unfold Feed.step at hseq ⊢
    dsimp only at hseq ⊢
    rw [hi] at hseq ⊢
    dsimp only at hseq ⊢
    cases ha : feed.assign fw with
    | none =>
      rw [ha] at hseq
      dsimp only at hseq
      omega
    | some tn =>
      rw [ha] at hseq
      dsimp only at hseq ⊢
      split at hseq
      · next hmax =>
        rw [if_pos hmax]
        exact ⟨_, rfl, by simp, rfl⟩
      · omega
  · cases h

theorem emitAll?_eq_some {i : Nat} {bodies : List Body} {feed feed' : Feed.State Body} {fw : Feed.Writer Body}
    (hi : feed.writers.get? i = some fw) (h : emitAll? feed i bodies = some feed') :
    (∃ fw', feed'.writers.get? i = some fw' ∧ fw'.own.map Event.body = fw.own.map Event.body ++ bodies) ∧
      (∀ j, j ≠ i → feed'.writers.get? j = feed.writers.get? j) ∧ feed'.events = feed.events := by
  induction bodies generalizing feed fw with
  | nil =>
    cases h
    exact ⟨⟨fw, hi, by simp⟩, fun _ _ => rfl, rfl⟩
  | cons body bodies ih =>
    obtain ⟨feed₁, h₁, hrest⟩ := Option.bind_eq_some_iff.1 h
    obtain ⟨fw₁, hw₁, hown₁, he₁⟩ := emit?_eq_some hi h₁
    have hi₁ : feed₁.writers.get? i = some fw₁ := by
      rw [hw₁, Table.get?_upsert, if_pos rfl]
    obtain ⟨⟨fw', hi', hown'⟩, hothers, he'⟩ := ih hi₁ hrest
    refine ⟨⟨fw', hi', ?_⟩, fun j hj => ?_, he'.trans he₁⟩
    · rw [hown', hown₁, List.append_assoc]
      rfl
    · rw [hothers j hj, hw₁, Table.get?_upsert, if_neg hj]

theorem Inv.record {s : State} (h : Inv s) {i : Nat} {w w' : Work} (hi : s.work.get? i = some w)
    (hw : w'.writes = w.writes) {writes : List RowWrite} {bodies : List Body}
    (hpair : ∀ bs, Paired w.writes bs → Paired (w.writes ++ writes) (bs ++ bodies)) :
    Inv (s.record i w' writes bodies) := by
  obtain ⟨fw, hfw, hp⟩ := h.work i w hi
  unfold State.record
  cases hemit : emitAll? s.feed i bodies with
  | none => exact h
  | some feed =>
    obtain ⟨⟨fw', hfw', hown⟩, hothers, hevents⟩ := emitAll?_eq_some hfw hemit
    have hwork : ∀ j, (s.work.upsert i { w' with writes := w'.writes ++ writes }).get? j =
        if j = i then some { w' with writes := w'.writes ++ writes } else s.work.get? j :=
      fun j => Table.get?_upsert _ _ _ _
    refine ⟨fun j v hj => ?_, fun j fv hj => ?_, ?_⟩
    · have hj' := (hwork j).symm.trans hj
      split at hj'
      · next hji =>
        cases hj'
        refine ⟨fw', hji ▸ hfw', ?_⟩
        rw [hown, hw]
        exact hpair _ hp
      · next hji =>
        obtain ⟨fv, hfv, hpv⟩ := h.work j v hj'
        exact ⟨fv, (hothers j hji).trans hfv, hpv⟩
    · show ∃ v, (s.work.upsert i { w' with writes := w'.writes ++ writes }).get? j = some v
      rw [hwork j]
      by_cases hji : j = i
      · exact ⟨_, if_pos hji⟩
      · rw [if_neg hji]
        exact h.writers j fv ((hothers j hji).symm.trans hj)
    · show Agrees s.tables (feed.events.map Event.body)
      rw [hevents]
      exact h.agrees

theorem get?_feed_start (feed : Feed.State Body) (i j : Nat) :
    (Feed.step feed (.start i)).writers.get? j =
      if j = i then (feed.writers.get? i).or (some ⟨none, []⟩) else feed.writers.get? j := by
  unfold Feed.step
  dsimp only
  split
  · next hsome =>
    by_cases hji : j = i
    · rw [if_pos hji, hji]
      obtain ⟨fw, hfw⟩ := Option.isSome_iff_exists.1 hsome
      rw [hfw]
      rfl
    · rw [if_neg hji]
  · next hnone =>
    rw [Table.get?_upsert]
    by_cases hji : j = i
    · rw [if_pos hji, if_pos hji, Option.not_isSome_iff_eq_none.1 hnone]
      rfl
    · rw [if_neg hji, if_neg hji]

theorem get?_feed_write {feed : Feed.State Body} {i j : Nat} :
    ((Feed.step feed (.write i)).writers.get? j).map Feed.Writer.own = (feed.writers.get? j).map Feed.Writer.own := by
  unfold Feed.step
  dsimp only
  split
  · rfl
  · next fw hfw =>
    split
    · rfl
    · rw [Table.get?_upsert]
      by_cases hji : j = i
      · rw [if_pos hji, hji, hfw]
        rfl
      · rw [if_neg hji]

theorem Inv.drop {s : State} (h : Inv s) (i : Nat) {feed : Feed.State Body}
    (hw : feed.writers = s.feed.writers.delete fun j _ => j = i) {tables : Tables}
    (hagrees : Agrees tables (feed.events.map Event.body)) :
    Inv ⟨feed, tables, s.work.delete fun j _ => j = i⟩ := by
  refine ⟨fun j v hj => ?_, fun j fv hj => ?_, hagrees⟩
  · have hj' := (get?_delete_key s.work i j).symm.trans hj
    split at hj'
    · cases hj'
    · next hji =>
      obtain ⟨fv, hfv, hpv⟩ := h.work j v hj'
      refine ⟨fv, ?_, hpv⟩
      show feed.writers.get? j = some fv
      rw [hw, get?_delete_key, if_neg hji]
      exact hfv
  · have hj' : (s.feed.writers.delete fun j _ => j = i).get? j = some fv := hw ▸ hj
    rw [get?_delete_key] at hj'
    split at hj'
    · cases hj'
    · next hji =>
      obtain ⟨v, hv⟩ := h.writers j fv hj'
      exact ⟨v, by rw [get?_delete_key, if_neg hji]; exact hv⟩

theorem Inv.commit {s : State} (h : Inv s) {i : Nat} {w : Work} (hi : s.work.get? i = some w) :
    Inv ⟨Feed.step s.feed (.commit i), w.view s.tables, s.work.delete fun j _ => j = i⟩ := by
  obtain ⟨fw, hfw, hp⟩ := h.work i w hi
  have hstep : Feed.step s.feed (.commit i) = { s.feed.drop i with events := s.feed.events ++ fw.own } := by
    unfold Feed.step
    dsimp only
    rw [hfw]
  rw [hstep]
  refine h.drop i rfl ?_
  rw [List.map_append]
  exact h.agrees.paired hp

theorem Inv.start {s : State} (h : Inv s) {i : Nat} (hnone : ¬(s.work.get? i).isSome = true) :
    Inv { s with feed := Feed.step s.feed (.start i), work := s.work.upsert i ⟨[], [], []⟩ } := by
  -- the feed has no such transaction either
  have hfree : s.feed.writers.get? i = none := by
    by_contra hsome
    obtain ⟨fw, hfw⟩ := Option.ne_none_iff_exists'.1 hsome
    obtain ⟨w, hw⟩ := h.writers i fw hfw
    exact hnone (by rw [hw]; rfl)
  have hevents : (Feed.step s.feed (.start i)).events = s.feed.events := by
    unfold Feed.step
    dsimp only
    split <;> rfl
  refine ⟨fun j v hj => ?_, fun j fv hj => ?_, ?_⟩
  · have hj' := (Table.get?_upsert s.work i j ⟨[], [], []⟩).symm.trans hj
    split at hj'
    · next hji =>
      cases hj'
      refine ⟨⟨none, []⟩, ?_, .nil⟩
      show (Feed.step s.feed (.start i)).writers.get? j = _
      rw [get?_feed_start, if_pos hji, hfree]
      rfl
    · next hji =>
      obtain ⟨fv, hfv, hpv⟩ := h.work j v hj'
      refine ⟨fv, ?_, hpv⟩
      show (Feed.step s.feed (.start i)).writers.get? j = _
      rw [get?_feed_start, if_neg hji]
      exact hfv
  · show ∃ v, (s.work.upsert i ⟨[], [], []⟩).get? j = some v
    rw [Table.get?_upsert]
    by_cases hji : j = i
    · exact ⟨_, if_pos hji⟩
    · have hj' : (Feed.step s.feed (.start i)).writers.get? j = some fv := hj
      rw [get?_feed_start, if_neg hji] at hj'
      rw [if_neg hji]
      exact h.writers j fv hj'
  · show Agrees s.tables ((Feed.step s.feed (.start i)).events.map Event.body)
    rw [hevents]
    exact h.agrees

theorem Inv.idleWrite {s : State} (h : Inv s) (i : Nat) : Inv { s with feed := Feed.step s.feed (.write i) } := by
  have hevents : (Feed.step s.feed (.write i)).events = s.feed.events := by
    unfold Feed.step
    dsimp only
    split
    · rfl
    · split <;> rfl
  have hown : ∀ j, ((Feed.step s.feed (.write i)).writers.get? j).map Feed.Writer.own =
      (s.feed.writers.get? j).map Feed.Writer.own := fun j => get?_feed_write
  refine ⟨fun j v hj => ?_, fun j fv hj => ?_, ?_⟩
  · obtain ⟨fv, hfv, hpv⟩ := h.work j v hj
    have hj' := hown j
    rw [hfv] at hj'
    obtain ⟨fv', hfv', heq⟩ := Option.map_eq_some_iff.1 hj'
    exact ⟨fv', hfv', heq ▸ hpv⟩
  · have hj' := hown j
    rw [show (Feed.step s.feed (.write i)).writers.get? j = some fv from hj] at hj'
    obtain ⟨fv', hfv', -⟩ := Option.map_eq_some_iff.1 hj'.symm
    exact h.writers j fv' hfv'
  · show Agrees s.tables ((Feed.step s.feed (.write i)).events.map Event.body)
    rw [hevents]
    exact h.agrees

theorem Inv.step {s : State} (h : Inv s) (act : Act) : Inv (step s act) := by
  cases act with
  | start i =>
    unfold Entitlements.step
    dsimp only
    split
    · exact h
    · next hnone => exact h.start hnone
  | write i => exact h.idleWrite i
  | subscription i tenant =>
    unfold Entitlements.step
    dsimp only
    split
    · exact h
    · next w hi =>
      refine h.record hi ?_ fun bs hp => ?_
      · rfl
      · simpa using hp.subscription tenant
  | sync i tenant want =>
    unfold Entitlements.step
    dsimp only
    split
    · exact h
    · next w hi =>
      split
      · exact h
      · refine h.record hi ?_ fun bs hp => ?_
        · rfl
        · exact hp.turns fun x hx => matches_turn hx
  | insertTenant i tenant new =>
    unfold Entitlements.step
    dsimp only
    split
    · exact h
    · next w hi =>
      split
      · exact h
      · refine h.record hi ?_ fun bs hp => ?_
        · rfl
        · exact hp.write ⟨rfl, rfl⟩
  | updateTenant i tenant set =>
    unfold Entitlements.step
    dsimp only
    split
    · exact h
    · next w hi =>
      split
      · exact h
      · split
        · exact h
        · split
          · refine h.record hi ?_ fun bs hp => ?_
            · rfl
            · exact hp.write ⟨rfl, rfl⟩
          · refine h.record hi ?_ fun bs hp => ?_
            · rfl
            · simpa using hp
  | commit i =>
    unfold Entitlements.step
    dsimp only
    split
    · exact h
    · next w hi => exact h.commit hi
  | abort i => exact h.drop i rfl h.agrees

theorem inv_init : Inv init := by
  refine ⟨fun i w hw => ?_, fun i fw hfw => ?_, fun tenant key => rfl, fun tenant => rfl⟩
  · cases hw
  · cases hfw

theorem inv_run (acts : List Act) : Inv (run step init acts) := by
  have hrun : ∀ (acts : List Act) (s : State), Inv s → Inv (run step s acts) := by
    intro acts
    induction acts with
    | nil => exact fun s h => h
    | cons act acts ih => exact fun s h => ih _ (h.step act)
  exact hrun acts init inv_init

/-! ## The order of the feed -/

/-- The last event in the order of the feed, of those that `p` reads. -/
def lastInFeed {α : Type} (p : Body → Option α) (events : List (Event Body)) : Option α :=
  (Table.firstBy (fun a b => !Feed.Before a.key b.key) (events.filter fun e => (p e.body).isSome)).bind
    fun e => p e.body

def lastCommitted {α : Type} (p : Body → Option α) (events : List (Event Body)) : Option α :=
  ((events.map Event.body).filterMap p).getLast?

theorem after_total (a b : Event Body) :
    (!decide (Feed.Before a.key b.key)) = true ∨ (!decide (Feed.Before b.key a.key)) = true := by
  by_contra hboth
  simp only [Bool.not_eq_true', decide_eq_false_iff_not, not_or, not_not] at hboth
  exact Feed.not_before_self _ (hboth.1.trans hboth.2)

theorem after_trans (a b c : Event Body) (hab : (!decide (Feed.Before a.key b.key)) = true)
    (hbc : (!decide (Feed.Before b.key c.key)) = true) : (!decide (Feed.Before a.key c.key)) = true := by
  rw [Bool.not_eq_true', decide_eq_false_iff_not] at *
  exact Feed.not_before_trans hbc hab

theorem lastInFeed_eq {α : Type} {p : Body → Option α} {events : List (Event Body)}
    (h : (events.filter fun e => (p e.body).isSome).Pairwise fun a b => Feed.Before a.key b.key) :
    lastInFeed p events = lastCommitted p events := by
  have hfilter : (events.map Event.body).filterMap p =
      (events.filter fun e => (p e.body).isSome).filterMap fun e => p e.body := by
    rw [List.filterMap_map, List.filterMap_filter]
    refine List.filterMap_congr fun e _ => ?_
    cases he : p e.body with
    | none => simp [he]
    | some a => simp [he]
  unfold lastInFeed lastCommitted
  rw [hfilter]
  have hsome : ∀ e ∈ events.filter fun e => (p e.body).isSome, (p e.body).isSome = true :=
    fun e he => (List.mem_filter.1 he).2
  generalize (events.filter fun e => (p e.body).isSome) = rows at h hsome
  rcases List.eq_nil_or_concat rows with rfl | ⟨older, e, rfl⟩
  · rfl
  · rw [List.concat_eq_append] at h hsome ⊢
    rw [getLast?_filterMap_concat]
    obtain ⟨a, ha⟩ := Option.isSome_iff_exists.1 (hsome e (by simp))
    cases hfirst : Table.firstBy (fun a b => !Feed.Before a.key b.key) (older ++ [e]) with
    | none =>
      have := (Table.firstBy_eq_none _ _).1 hfirst
      simp at this
    | some r =>
      obtain ⟨hmem, hmax⟩ := Table.firstBy_spec _ after_total after_trans _ r hfirst
      have hlast := hmax e (by simp)
      rw [Bool.not_eq_true', decide_eq_false_iff_not] at hlast
      rcases List.mem_append.1 hmem with hold | hnew
      · exact absurd ((List.pairwise_append.1 h).2.2 r hold e (by simp)) hlast
      · rw [List.mem_singleton.1 hnew, ha]
        simp [ha]

/-- **The feed against the tables.**  In every run and for every tenant, the last committed event of a key tells
the key's row and the last committed status event is the account.  So does the last event of the feed,
for a key or an account whose events were committed in the order of the feed. -/
theorem feed_tells_tables (acts : List Act) :
    let s := run step init acts
    ∀ tenant,
      (∀ key, Tells (lastCommitted (Body.change? tenant key) s.feed.events) (s.tables.granted.get? (tenant, key)) ∧
        ((s.feed.events.filter fun e => (e.body.change? tenant key).isSome).Pairwise
            (fun a b => Feed.Before a.key b.key) →
          Tells (lastInFeed (Body.change? tenant key) s.feed.events) (s.tables.granted.get? (tenant, key)))) ∧
      lastCommitted (Body.account? tenant) s.feed.events = s.tables.tenants.get? tenant ∧
      ((s.feed.events.filter fun e => (e.body.account? tenant).isSome).Pairwise
          (fun a b => Feed.Before a.key b.key) →
        lastInFeed (Body.account? tenant) s.feed.events = s.tables.tenants.get? tenant) := by
  intro s tenant
  have hagrees := (inv_run acts).agrees
  refine ⟨fun key => ⟨hagrees.entitlements tenant key, fun hsorted => ?_⟩, hagrees.accounts tenant,
    fun hsorted => ?_⟩
  · rw [lastInFeed_eq hsorted]
    exact hagrees.entitlements tenant key
  · rw [lastInFeed_eq hsorted]
    exact hagrees.accounts tenant

def postsRow (limit : Int) : Row := ⟨.content, .limit, some "count_month", some limit, .override, none, none⟩

def posts (limit : Int) : Table String Row := ⟨[("content.posts", postsRow limit)], by simp⟩

/-- The first transaction writes elsewhere, the second creates tenant 7 and syncs it, and then the first syncs
it once more. -/
def lateSync : List Act :=
  [.start 0, .write 0, .start 1, .insertTenant 1 7 ⟨.active, none, true, false⟩, .sync 1 7 (posts 1000), .commit 1,
    .sync 0 7 (posts 2000), .commit 0]

/-- All are committed, the limit is 20 and the last event of the feed says 10. -/
theorem last_of_feed_stale :
    let s := run step init lateSync
    s.work.rows.isEmpty = true ∧
      ¬Tells (lastInFeed (Body.change? 7 "content.posts") s.feed.events) (s.tables.granted.get? (7, "content.posts")) := by
  intro s
  have hfeed : lastInFeed (Body.change? 7 "content.posts") s.feed.events =
      some ⟨.added, "content.posts", .content, some 1000, some .override, none⟩ := by decide +kernel
  have hrow : s.tables.granted.get? (7, "content.posts") = some (postsRow 2000) := by decide +kernel
  refine ⟨by decide +kernel, ?_⟩
  rw [hfeed, hrow]
  rintro ⟨-, hlimit, -⟩
  exact absurd hlimit (by decide)

/-- With the first transaction committed before, the feed ends in the last limit. -/
theorem last_of_feed_inOrder :
    let s := run step init [.start 1, .insertTenant 1 7 ⟨.active, none, true, false⟩, .sync 1 7 (posts 1000), .commit 1,
      .start 0, .sync 0 7 (posts 2000), .commit 0]
    s.tables.granted.get? (7, "content.posts") = some (postsRow 2000) ∧
      Tells (lastInFeed (Body.change? 7 "content.posts") s.feed.events) (s.tables.granted.get? (7, "content.posts")) := by
  intro s
  refine ⟨by decide +kernel, ((feed_tells_tables _ 7).1 "content.posts").2 ?_⟩
  decide +kernel

end CisApp.Entitlements
