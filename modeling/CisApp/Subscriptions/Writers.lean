import CisApp.Entitlements.Replay
import CisApp.Entitlements.Resolver
import CisApp.Lib.Transaction

/-! The writers of `shared.tenant_subscription` as transactions: provisioning in its three modes
(`services/tenant_account/provision.py`), the trial-end tick (`lifecycle.py`), the billing tick (`billing.py`) and every
`UPDATE` of `shared.tenants`, with the triggers of migrations 353, 354 and 355.

A row is the account of a tenant or one of its subscriptions.  An `UPDATE` of subscriptions is its snapshot (`update`)
and then one `visit` for each row found, which waits for the row and looks at it again.  The guard of migration 353 reads
what the transaction sees at that moment.  An `INSERT … ON CONFLICT` passes the guard first (`insertAddOn`) and may then
wait for the row (`addOnRow`); a row that is there goes through the guard once more.

What the plan tables say is part of the request.  A plan that is missing or retired, a CHECK or a deadlock rolls the
transaction back, which any transaction may do here at any time; the locks that other triggers take are left out. -/

namespace CisApp.Subscriptions

open Lib
open Entitlements (Status SuspendReason Account AccountSet AccountNew SubStatus Subscription insertedAccount updatedAccount)

/-! ## Rows -/

/-- `ADDON_PRODUCTS`. -/
inductive AddOn where
  | crm
  | tripplanner
deriving Repr, DecidableEq

inductive Product where
  | content
  | addOn (a : AddOn)
deriving Repr, DecidableEq

def addOns : List AddOn := [.crm, .tripplanner]

def products : List Product := .content :: addOns.map .addOn

/-- A row of `shared.tenant_subscription`. -/
structure Sub extends Subscription where
  paidThrough : Option Nat
deriving Repr, DecidableEq

inductive Key where
  | tenant (t : Nat)
  | sub (t : Nat) (p : Product)
deriving Repr, DecidableEq

def Key.tenantId : Key → Nat
  | .tenant t => t
  | .sub t _ => t

inductive Cell where
  | account (a : Account) (planTier : String)
  | sub (s : Sub)
deriving Repr, DecidableEq

def Cell.live : Cell → Bool
  | .account _ _ => false
  | .sub s => s.status.live

abbrev Cells := Table Key Cell

def Cells.sub? (rows : Cells) (t : Nat) (p : Product) : Option Sub :=
  match rows.get? (.sub t p) with
  | some (.sub s) => some s
  | _ => none

def Cells.account? (rows : Cells) (t : Nat) : Option (Account × String) :=
  match rows.get? (.tenant t) with
  | some (.account a tier) => some (a, tier)
  | _ => none

/-- The tenant's subscription of the product is trialing, active or past due. -/
def Cells.liveAt (rows : Cells) (t : Nat) (p : Product) : Bool := (rows.get? (.sub t p)).any Cell.live

/-- `tenant_subscription_guard`: an add-on is live only next to live content, and content stops being live only without
live add-ons. -/
def Cells.guard (rows : Cells) (t : Nat) : Product → Sub → Bool
  | .content, s => s.status.live || addOns.all fun a => !rows.liveAt t (.addOn a)
  | .addOn _, s => !s.status.live || rows.liveAt t .content

/-! ## The statements on subscriptions -/

/-- The statements that update subscriptions. -/
inductive Change where
  /-- `CANCEL_ADDON_SQL` and the first `UPDATE` of the bridge. -/
  | cancel
  /-- The second `UPDATE` of the bridge. -/
  | moveContent (closed reopening : Bool) (plan : Option String)
  /-- `TRIAL_CONTENT_SQL`. -/
  | startTrial (endsAt : Nat)
  /-- `PAID_THROUGH_SQL`. -/
  | payThrough (day : Nat)
  /-- `REACTIVATE_SUBSCRIPTIONS_SQL`. -/
  | reactivate (today : Nat)
deriving Repr, DecidableEq

/-- The row as the statement leaves it, `none` where its `WHERE` is not true. -/
def Change.apply (s : Sub) : Change → Option Sub
  | .cancel => if s.status = .canceled then none else some { s with status := .canceled }
  | .moveContent closed reopening plan =>
    if plan.any (· ≠ s.planKey) || (closed && s.status ≠ .canceled) || (reopening && s.status = .canceled) then
      some { s with
        planKey := plan.getD s.planKey
        status := if closed then .canceled else if reopening && s.status = .canceled then .active else s.status }
    else none
  | .startTrial endsAt => some { s with status := .trialing, trialEndsAt := some endsAt }
  | .payThrough day =>
    if s.status.live && s.paidThrough.all (· < day) then some { s with paidThrough := some day } else none
  | .reactivate today =>
    if s.status = .pastDue && s.paidThrough.any (today ≤ ·) then some { s with status := .active } else none

structure Wanted where
  addOn : AddOn
  planKey : String
  seats : Option Int
deriving Repr, DecidableEq

inductive InsertMode where
  /-- `UPSERT_ADDON_SQL`. -/
  | upsert (trialEndsAt : Option Nat)
  /-- `NEW_ADDON_SQL`. -/
  | onlyNew (now : Nat)
deriving Repr, DecidableEq

/-- The row of the `VALUES`. -/
def InsertMode.proposed (w : Wanted) : InsertMode → Sub
  | .upsert trialEndsAt =>
    ⟨⟨w.planKey, if trialEndsAt.isNone then .active else .trialing, trialEndsAt, w.seats⟩, none⟩
  | .onlyNew _ => ⟨⟨w.planKey, .active, none, w.seats⟩, none⟩

/-- `DO UPDATE … WHERE`. -/
def InsertMode.onConflict (w : Wanted) (s : Sub) : InsertMode → Option Sub
  | .upsert _ =>
    if s.planKey ≠ w.planKey || s.seats ≠ w.seats || !s.status.live then
      some { s with
        planKey := w.planKey
        seats := w.seats
        status := if s.status.live then s.status else .active
        trialEndsAt := if s.status = .trialing then s.trialEndsAt else none }
    else none
  | .onlyNew now =>
    if s.status = .active || s.status = .pastDue || (s.status = .trialing && s.trialEndsAt.any (now < ·)) then none
    else some { s with planKey := w.planKey, seats := w.seats, status := .active, trialEndsAt := none }

/-- The `WHERE` of `END_TRIALS_SQL`. -/
def Sub.trialOver (s : Sub) (now : Nat) : Bool := s.status = .trialing && s.trialEndsAt.any (· ≤ now)

/-- The status that `END_TRIALS_SQL` sets. -/
def Sub.endTrial (s : Sub) (today : Nat) : Sub :=
  { s with status := if s.paidThrough.any (today ≤ ·) then .active else .pastDue }

/-! ## The statements on accounts -/

/-- What an `UPDATE` of `shared.tenants` sets; `plan` is the live content plan of the tier afterwards. -/
structure TenantSet where
  account : AccountSet
  planTier : Option String
  plan : String
deriving Repr, DecidableEq

/-- `status` of `booking.v_tenant_billing_status`. -/
inductive ViewStatus where
  | ok
  | warn
  | pastDue
deriving Repr, DecidableEq

/-- `decide` of `billing.py`. -/
def decideMove (view : ViewStatus) (a : Account) (content : Option SubStatus) : Option (Status × Option SuspendReason) :=
  match view with
  | .pastDue => if a.status.live then some (.suspended, some .billing) else none
  | .warn => if a.status = .active ∨ a.status = .pastDue then some (.pastDue, none) else none
  | .ok =>
    if a.status = .suspended ∧ a.suspendReason = some .billing then
      some (if content = some .active then .active else .pastDue, none)
    else if a.status = .pastDue ∧ content = some .active then some (.active, none)
    else none

/-- The status that `END_ACCOUNT_TRIAL_SQL` sets, `none` where its `WHERE` is not true. -/
def Cells.accountTrialEnd (rows : Cells) (t now : Nat) (a : Account) : Option Status :=
  match rows.sub? t .content with
  | some c =>
    if a.status = .trial ∧ (c.status = .active ∨ c.status = .pastDue) ∧
        products.all (fun p => !(rows.sub? t p).any fun s => s.status = .trialing && s.trialEndsAt.any (now < ·)) then
      some (if c.status = .active then .active else .pastDue)
    else none
  | none => none

/-! ## Transactions -/

inductive Op where
  /-- `INSERT_TENANT_SQL`. -/
  | insertTenant (new : AccountNew) (planTier plan : String)
  | updateTenant (set : TenantSet)
  /-- `tenants_content_subscription_sync`. -/
  | bridge (old : Option Status) (new : Status) (tierMoved : Bool) (plan : String)
  | insertContent (closed : Bool) (plan : String)
  | update (c : Change) (among : List Product)
  | visit (c : Change) (p : Product)
  /-- `TENANT_SQL`: a tenant that has left is refused. -/
  | attachTarget
  | insertAddOn (w : Wanted) (mode : InsertMode)
  | addOnRow (w : Wanted) (mode : InsertMode)
  /-- The snapshot of `END_TRIALS_SQL`.  Rows that are locked are left out (`skips`); the join takes the rows `oneByOne`
  or when all are locked. -/
  | findEnded (now today : Nat) (skips : List Product) (oneByOne : Bool)
  | lockEnded (p : Product) (now today : Nat) (oneByOne : Bool)
  | updateEnded (today : Nat)
  | endTrial (p : Product) (today : Nat)
  /-- The snapshot of `END_ACCOUNT_TRIAL_SQL`. -/
  | findAccountTrial (now : Nat) (plan : String)
  | endAccountTrial (now : Nat) (plan : String)
  /-- `TENANT_LOCK_SQL`. -/
  | lockTenant
  /-- `CONTENT_STATUS_SQL`, `decide` and `SET_ACCOUNT_SQL`. -/
  | moveAccount (view : ViewStatus) (plan : String)
deriving Repr, DecidableEq

structure Stmt where
  tenant : Nat
  op : Op
deriving Repr, DecidableEq

/-- The ended trials that the tick has locked, and the account that the billing tick has read. -/
structure Local where
  ended : List Product
  account : Option Account
deriving Repr, DecidableEq

inductive Refused where
  | guarded
  | duplicate
  | notFound
  | offboarded
deriving Repr, DecidableEq

abbrev SubEffect := Effect Key Cell Stmt Local
abbrev SubTxn := Txn Key Cell Stmt Local
abbrev SubSys := Sys Key Cell Stmt Local Unit

def put (rows : Cells) (data : Local) (t : Nat) (p : Product) (s : Sub) : Except Refused SubEffect :=
  if rows.guard t p s then .ok { takes := [(.sub t p, true)], writes := [(.sub t p, .sub s)], data }
  else .error .guarded

/-- The row as `f` leaves it; a row that is locked and then left as it is stays locked. -/
def change (rows : Cells) (data : Local) (t : Nat) (p : Product) (f : Sub → Option Sub) : Except Refused SubEffect :=
  match rows.sub? t p with
  | none => .ok { data }
  | some s =>
    match f s with
    | none => .ok { takes := [(.sub t p, true)], data }
    | some s' => put rows data t p s'

/-- An `UPDATE` of the account, followed by the bridge when the status or the tier changes. -/
def setAccount (rows : Cells) (data : Local) (t : Nat) (set : TenantSet) : Except Refused SubEffect :=
  match rows.account? t with
  | none => .ok { data }
  | some (a, tier) =>
    let a' := if set.account.names then updatedAccount a set.account else a
    let tier' := set.planTier.getD tier
    let moved := a'.status ≠ a.status || tier' ≠ tier
    .ok { takes := [(.tenant t, true)]
          writes := [(.tenant t, .account a' tier')]
          more := if moved then [⟨t, .bridge (some a.status) a'.status (tier' ≠ tier) set.plan⟩] else []
          data }

def exec (rows : Cells) (data : Local) (t : Nat) : Op → Except Refused SubEffect
  | .insertTenant new tier plan =>
    if (rows.get? (.tenant t)).isSome then .error .duplicate
    else
      let a := insertedAccount new
      .ok { takes := [(.tenant t, true)]
            writes := [(.tenant t, .account a tier)]
            more := [⟨t, .bridge none a.status true plan⟩]
            data }
  | .updateTenant set => setAccount rows data t set
  | .bridge old new tierMoved plan =>
    let reopening := !new.ended && old.any (·.ended)
    match rows.sub? t .content with
    | none => .ok { more := [⟨t, .insertContent new.ended plan⟩], data }
    | some _ =>
      -- the add-ons first: the guard keeps the content row live while an add-on is
      .ok { more := (if new.ended then [⟨t, .update .cancel (addOns.map .addOn)⟩] else []) ++
              [⟨t, .update (.moveContent new.ended reopening (if tierMoved then some plan else none)) [.content]⟩]
            data }
  | .insertContent closed plan =>
    if (rows.get? (.sub t .content)).isSome then .error .duplicate
    else put rows data t .content ⟨⟨plan, if closed then .canceled else .active, none, none⟩, none⟩
  | .update c among =>
    .ok { more := (among.filter fun p => ((rows.sub? t p).bind (c.apply ·)).isSome).map fun p => ⟨t, .visit c p⟩, data }
  | .visit c p => change rows data t p (c.apply ·)
  | .attachTarget =>
    match rows.account? t with
    | none => .error .notFound
    | some (a, _) => if a.status.ended then .error .offboarded else .ok { takes := [(.tenant t, true)], data }
  | .insertAddOn w mode =>
    if rows.guard t (.addOn w.addOn) (mode.proposed w) then .ok { more := [⟨t, .addOnRow w mode⟩], data }
    else .error .guarded
  | .addOnRow w mode =>
    match rows.sub? t (.addOn w.addOn) with
    | none =>
      .ok { takes := [(.sub t (.addOn w.addOn), true)]
            writes := [(.sub t (.addOn w.addOn), .sub (mode.proposed w))]
            data }
    | some _ => change rows data t (.addOn w.addOn) (mode.onConflict w ·)
  | .findEnded now today skips oneByOne =>
    .ok { more := (products.filter fun p => (rows.sub? t p).any (·.trialOver now) && !skips.contains p).map
            fun p => ⟨t, .lockEnded p now today oneByOne⟩
          data }
  | .lockEnded p now today oneByOne =>
    if (rows.sub? t p).any (·.trialOver now) then
      .ok { takes := [(.sub t p, true)]
            more := if oneByOne then [⟨t, .endTrial p today⟩] else []
            data := { data with ended := p :: data.ended } }
    else .ok { data }
  | .updateEnded today => .ok { more := data.ended.map fun p => ⟨t, .endTrial p today⟩, data }
  | .endTrial p today => change rows data t p fun s => some (s.endTrial today)
  | .findAccountTrial now plan =>
    .ok { more := if (rows.account? t).any fun x => (rows.accountTrialEnd t now x.1).isSome then
              [⟨t, .endAccountTrial now plan⟩] else []
          data }
  | .endAccountTrial now plan =>
    match (rows.account? t).bind fun x => rows.accountTrialEnd t now x.1 with
    | none => .ok { data }
    | some st => setAccount rows data t ⟨⟨some st, none, none, none⟩, none, plan⟩
  | .lockTenant =>
    match rows.account? t with
    | none => .error .notFound
    | some (a, _) => .ok { takes := [(.tenant t, true)], data := { data with account := some a } }
  | .moveAccount view plan =>
    match data.account.bind fun a => (decideMove view a ((rows.sub? t .content).map (·.status))).map (a, ·) with
    | none => .ok { data }
    | some (a, st, reason) =>
      .ok { more := if st ≠ a.status ∨ reason ≠ a.suspendReason then
                [⟨t, .updateTenant ⟨⟨some st, some reason, none, none⟩, none, plan⟩⟩] else []
            data }

/-- The row that a statement waits for. -/
def needs (st : Stmt) : List (Key × Bool) :=
  match st.op with
  | .insertTenant _ _ _ | .updateTenant _ | .attachTarget | .endAccountTrial _ _ | .lockTenant => [(.tenant st.tenant, true)]
  | .insertContent _ _ => [(.sub st.tenant .content, true)]
  | .visit _ p | .lockEnded p _ _ _ | .endTrial p _ => [(.sub st.tenant p, true)]
  | .addOnRow w _ => [(.sub st.tenant (.addOn w.addOn), true)]
  | _ => []

/-! ## The requests -/

inductive Request where
  | create (t : Nat) (new : AccountNew) (planTier plan : String) (trialEndsAt : Option Nat) (addOns : List Wanted)
  | attach (t : Nat) (onlyNew : Bool) (addOns : List Wanted) (now : Nat)
  | detach (t : Nat) (cancel : List AddOn)
  /-- `end_trials` for one tenant. -/
  | endTrials (t : Nat) (now today : Nat) (skips : List Product) (oneByOne : Bool) (plan : String)
  /-- `_apply` of the billing tick. -/
  | billing (t : Nat) (view : ViewStatus) (paidThrough : Option Nat) (today : Nat) (plan : String)
  /-- The updates of one transaction: an offboarding, a restore, a `PATCH`. -/
  | updates (t : Nat) (sets : List TenantSet)
deriving Repr, DecidableEq

def Request.tenant : Request → Nat
  | .create t _ _ _ _ _ | .attach t _ _ _ | .detach t _ | .endTrials t _ _ _ _ _ | .billing t _ _ _ _ | .updates t _ => t

def Request.ops : Request → List Op
  | .create _ new tier plan trialEndsAt addOns =>
    .insertTenant new tier plan :: (trialEndsAt.toList.map fun e => .update (.startTrial e) [.content]) ++
      addOns.map fun w => .insertAddOn w (.upsert trialEndsAt)
  | .attach _ onlyNew addOns now =>
    .attachTarget :: addOns.map fun w => .insertAddOn w (if onlyNew then .onlyNew now else .upsert none)
  | .detach _ cancel => .attachTarget :: cancel.map fun a => .update .cancel [.addOn a]
  | .endTrials _ now today skips oneByOne plan =>
    .findEnded now today skips oneByOne :: (if oneByOne then [] else [.updateEnded today]) ++ [.findAccountTrial now plan]
  | .billing _ view paidThrough today plan =>
    .lockTenant :: (paidThrough.toList.map fun d => .update (.payThrough d) products) ++
      (if view = .ok then [.update (.reactivate today) products] else []) ++ [.moveAccount view plan]
  | .updates _ sets => sets.map .updateTenant

def subscriptions : Service Key Cell Stmt Local Unit Request Refused where
  program r := r.ops.map fun op => ⟨r.tenant, op⟩
  data _ := ⟨[], none⟩
  needs := needs
  waits _ _ _ := false
  exec _ rows data st := exec rows data st.tenant st.op
  commit d _ _ := d

end CisApp.Subscriptions
