import CisApp.Entitlements.Sync
import CisApp.Lib.Run

/-! The resolver `shared.v_tenant_entitlement_resolved` (migration 361) and the writes that its tables get, each
with the triggers that re-sync tenants (migrations 353, 355 and 356).

`resolved` is the view, `touched` the tenants that a write's triggers sync, `syncDue` the sweep over the
materialised rows that have run out.  A step lets time pass, makes one write with its triggers and runs the
sweep. -/

namespace CisApp.Entitlements

inductive SubStatus where
  | trialing
  | active
  | pastDue
  | unpaid
  | canceled
  | paused
deriving Repr, DecidableEq

def SubStatus.live (st : SubStatus) : Bool := st ∈ [SubStatus.trialing, .active, .pastDue]

/-- What the resolver reads of a row of `shared.tenant_subscription`. -/
structure Subscription where
  planKey : String
  status : SubStatus
  trialEndsAt : Option Nat
  seats : Option Int
deriving Repr, DecidableEq

structure Feature where
  product : Product
  valueKind : ValueKind
  unit : Option String
  retiredAt : Option Nat
deriving Repr, DecidableEq

structure Override where
  limitValue : Option Int
  enabled : Bool
  expiresAt : Option Nat
deriving Repr, DecidableEq

/-- What is read of a row of `shared.tenants`; `closed` says that `cancelled_at` is set. -/
structure Tenant where
  rateLimitRpm : Int
  closed : Bool
deriving Repr, DecidableEq

structure Db where
  now : Nat
  tenants : Table Nat Tenant
  subs : Table (Nat × Product) Subscription
  planFeatures : Table (String × String) (Option Int)
  features : Table String Feature
  overrides : Table (Nat × String) Override
  /-- `monthly_usd` of `shared.tenant_ai_budget`. -/
  budgets : Table Nat (Option Int)
  granted : Granted

/-! ## The resolver -/

structure Candidate where
  limitValue : Option Int
  enabled : Bool
  source : Source
  planKey : Option String
  expiresAt : Option Nat
  rank : Nat
  subProduct : Option Product
deriving Repr, DecidableEq

def rpmKey : String := "content.rate_limit_rpm"
def budgetKey : String := "ai.budget_usd_monthly"

/-- A row of `live_sub`. -/
def Db.liveSub (s : Db) (tenant : Nat) (p : Product) : Option Subscription :=
  (s.subs.get? (tenant, p)).filter fun sub => sub.status.live

/-- The limiter's own value, when it differs from the content plan. -/
def Db.rpmCandidate (s : Db) (tenant : Nat) (key : String) : Option Candidate :=
  if key = rpmKey then
    match s.tenants.get? tenant, s.liveSub tenant .content with
    | some t, some ls =>
      if (s.planFeatures.get? (ls.planKey, key)).join ≠ some (100 * t.rateLimitRpm) then
        some ⟨some (100 * t.rateLimitRpm), true, .override, none, none, 0, none⟩
      else none
    | _, _ => none
  else none

/-- An override that has not run out. -/
def Db.overrideCandidate (s : Db) (tenant : Nat) (key : String) : Option Candidate :=
  match s.overrides.get? (tenant, key) with
  | none => none
  | some o =>
    if o.expiresAt.all (s.now < ·) then some ⟨o.limitValue, o.enabled, .override, none, o.expiresAt, 1, none⟩
    else none

def Db.budgetCandidate (s : Db) (tenant : Nat) (key : String) : Option Candidate :=
  if key = budgetKey then (s.budgets.get? tenant).map fun usd => ⟨usd, true, .override, none, none, 2, none⟩
  else none

/-- What the plan of a live subscription gives. -/
def Db.planCandidate (s : Db) (tenant : Nat) (key : String) (p : Product) : Option Candidate :=
  match s.liveSub tenant p with
  | none => none
  | some ls =>
    match s.planFeatures.get? (ls.planKey, key), s.features.get? key with
    | some limit, some f =>
      some ⟨if f.valueKind = .seats then (ls.seats.map (100 * ·)).or limit else limit, true,
        if ls.status = .trialing then .trial else .plan, some ls.planKey,
        if ls.status = .trialing then ls.trialEndsAt else none, 3, some p⟩
    | _, _ => none

/-- The candidates of lower rank come first. -/
def Db.candidates (s : Db) (tenant : Nat) (key : String) : List Candidate :=
  (s.rpmCandidate tenant key).toList ++ (s.overrideCandidate tenant key).toList ++
    (s.budgetCandidate tenant key).toList ++
    [Product.content, .crm, .tripplanner].filterMap (s.planCandidate tenant key)

/-- The `WHERE` of `ranked`. -/
def Db.counts (s : Db) (tenant : Nat) (f : Feature) (c : Candidate) : Bool :=
  (c.rank = 3 || (s.liveSub tenant (if f.product = .platform then .content else f.product)).isSome) &&
    (c.rank ≠ 3 || f.product ≠ .platform || c.subProduct = some .content)

/-- `ORDER BY rank, plan_key`, nulls last. -/
def Candidate.before (a b : Candidate) : Bool :=
  a.rank < b.rank || a.rank = b.rank && (b.planKey.isNone || a.planKey.any fun x => b.planKey.all (x ≤ ·))

/-- The row with `rn = 1`. -/
def Db.winner (s : Db) (tenant : Nat) (key : String) (f : Feature) : Option Candidate :=
  Table.firstBy Candidate.before ((s.candidates tenant key).filter (s.counts tenant f))

def Candidate.row (f : Feature) (c : Candidate) : Row :=
  ⟨f.product, f.valueKind, f.unit, if f.valueKind = .flag then none else c.limitValue, c.source, c.planKey,
    c.expiresAt⟩

/-- The row of `shared.v_tenant_entitlement_resolved`. -/
def Db.resolved (s : Db) (tenant : Nat) (key : String) : Option Row :=
  match s.features.get? key with
  | none => none
  | some f =>
    if f.retiredAt.isSome then none
    else ((s.winner tenant key f).filter Candidate.enabled).map (Candidate.row f)

/-! ## Re-syncs -/

/-- The view's rows of a tenant. -/
def Db.view (s : Db) (tenant : Nat) : Table String Row :=
  ⟨s.features.rows.filterMap fun x => (s.resolved tenant x.1).map fun row => (x.1, row), by
    have hsub : ((s.features.rows.filterMap fun x => (s.resolved tenant x.1).map fun row => (x.1, row)).map
        Prod.fst).Sublist (s.features.rows.map Prod.fst) := by
      generalize s.features.rows = rows
      induction rows with
      | nil => exact List.Sublist.refl _
      | cons x rows ih =>
        rw [List.filterMap_cons]
        cases s.resolved tenant x.1 with
        | none => exact ih.cons x.1
        | some row => exact ih.cons_cons x.1
    exact s.features.nodup.sublist hsub⟩

/-- `tenant_entitlement_sync`. -/
def Db.syncTenant (s : Db) (tenant : Nat) : Db :=
  if (s.tenants.get? tenant).isSome then { s with granted := sync tenant (s.view tenant) s.granted } else s

def Db.syncAll (s : Db) (tenants : List Nat) : Db := tenants.foldl Db.syncTenant s

/-- The tenants with a materialised row that has run out. -/
def Db.due (s : Db) : List Nat :=
  ((s.granted.matching fun _ row => row.expiresAt.any (· ≤ s.now)).map Prod.fst).dedup.mergeSort fun a b => a ≤ b

/-- `tenant_entitlement_sync_due`. -/
def Db.syncDue (s : Db) : Db := s.syncAll s.due

/-! ## Writes -/

inductive Write where
  | insertTenant (tenant : Nat) (rpm : Int) (closed : Bool) (planKey : String)
  | updateRpm (tenant : Nat) (rpm : Int)
  | insertSub (tenant : Nat) (p : Product) (sub : Subscription)
  | updateSub (tenant : Nat) (p : Product) (sub : Subscription)
  | deleteSub (tenant : Nat) (p : Product)
  | insertOverride (tenant : Nat) (key : String) (o : Override)
  | updateOverride (tenant : Nat) (key : String) (tenant' : Nat) (key' : String) (o : Override)
  | deleteOverride (tenant : Nat) (key : String)
  | insertBudget (tenant : Nat) (usd : Option Int)
  | updateBudget (tenant : Nat) (tenant' : Nat) (usd : Option Int)
  | deleteBudget (tenant : Nat)
  | insertPlanFeature (plan key : String) (limit : Option Int)
  | updatePlanFeature (plan key plan' key' : String) (limit : Option Int)
  | deletePlanFeature (plan key : String)
  | insertFeature (key : String) (f : Feature)
  | updateFeature (key : String) (f : Feature)
  | deleteFeature (key : String)
deriving Repr, DecidableEq

def Db.hasTenant (s : Db) (tenant : Nat) : Bool := (s.tenants.get? tenant).isSome
def Db.hasFeature (s : Db) (key : String) : Bool := (s.features.get? key).isSome

/-- `tenant_account_closed`. -/
def Db.closed (s : Db) (tenant : Nat) : Bool := (s.tenants.get? tenant).all Tenant.closed

/-- The keys and references of the tables let the write through. -/
def Db.accepts (s : Db) : Write → Bool
  | .insertTenant tenant _ _ _ => !s.hasTenant tenant
  | .updateRpm tenant _ => s.hasTenant tenant
  | .insertSub tenant p _ => s.hasTenant tenant && (s.subs.get? (tenant, p)).isNone && p ≠ .platform
  | .updateSub tenant p _ => (s.subs.get? (tenant, p)).isSome
  | .deleteSub _ _ => true
  | .insertOverride tenant key _ =>
    s.hasTenant tenant && s.hasFeature key && (s.overrides.get? (tenant, key)).isNone
  | .updateOverride tenant key tenant' key' _ =>
    (s.overrides.get? (tenant, key)).isSome && s.hasTenant tenant' && s.hasFeature key' &&
      ((tenant, key) = (tenant', key') || (s.overrides.get? (tenant', key')).isNone)
  | .deleteOverride _ _ => true
  | .insertBudget tenant _ => s.hasTenant tenant && (s.budgets.get? tenant).isNone
  | .updateBudget tenant tenant' _ =>
    (s.budgets.get? tenant).isSome && s.hasTenant tenant' &&
      (tenant = tenant' || (s.budgets.get? tenant').isNone)
  | .deleteBudget _ => true
  | .insertPlanFeature plan key _ => s.hasFeature key && (s.planFeatures.get? (plan, key)).isNone
  | .updatePlanFeature plan key plan' key' _ =>
    (s.planFeatures.get? (plan, key)).isSome && s.hasFeature key' &&
      ((plan, key) = (plan', key') || (s.planFeatures.get? (plan', key')).isNone)
  | .deletePlanFeature _ _ => true
  | .insertFeature key _ => !s.hasFeature key
  | .updateFeature key _ => s.hasFeature key
  | .deleteFeature key =>
    !(s.planFeatures.rows.any fun x => x.1.2 = key) && !(s.overrides.rows.any fun x => x.1.2 = key) &&
      !(s.granted.rows.any fun x => x.1.2 = key)

/-- The row that the write changes. -/
def Db.change (s : Db) : Write → Db
  | .insertTenant tenant rpm closed planKey =>
    { s with
      tenants := s.tenants.upsert tenant ⟨rpm, closed⟩
      subs := s.subs.upsert (tenant, .content) ⟨planKey, if closed then .canceled else .active, none, none⟩ }
  | .updateRpm tenant rpm =>
    { s with tenants := s.tenants.update (fun t _ => t = tenant) fun _ row => { row with rateLimitRpm := rpm } }
  | .insertSub tenant p sub => { s with subs := s.subs.upsert (tenant, p) sub }
  | .updateSub tenant p sub => { s with subs := s.subs.upsert (tenant, p) sub }
  | .deleteSub tenant p => { s with subs := s.subs.delete fun k _ => k = (tenant, p) }
  | .insertOverride tenant key o => { s with overrides := s.overrides.upsert (tenant, key) o }
  | .updateOverride tenant key tenant' key' o =>
    { s with overrides := (s.overrides.delete fun k _ => k = (tenant, key)).upsert (tenant', key') o }
  | .deleteOverride tenant key => { s with overrides := s.overrides.delete fun k _ => k = (tenant, key) }
  | .insertBudget tenant usd => { s with budgets := s.budgets.upsert tenant usd }
  | .updateBudget tenant tenant' usd =>
    { s with budgets := (s.budgets.delete fun k _ => k = tenant).upsert tenant' usd }
  | .deleteBudget tenant => { s with budgets := s.budgets.delete fun k _ => k = tenant }
  | .insertPlanFeature plan key limit => { s with planFeatures := s.planFeatures.upsert (plan, key) limit }
  | .updatePlanFeature plan key plan' key' limit =>
    { s with planFeatures := (s.planFeatures.delete fun k _ => k = (plan, key)).upsert (plan', key') limit }
  | .deletePlanFeature plan key => { s with planFeatures := s.planFeatures.delete fun k _ => k = (plan, key) }
  | .insertFeature key f => { s with features := s.features.upsert key f }
  | .updateFeature key f => { s with features := s.features.upsert key f }
  | .deleteFeature key => { s with features := s.features.delete fun k _ => k = key }

/-- `tenant_entitlement_resync_row` on a `DELETE`. -/
def Db.unlessClosed (s : Db) (tenant : Nat) : List Nat := if s.closed tenant then [] else [tenant]

def Db.subscribers (s : Db) (plans : List String) : List Nat :=
  (s.subs.matching fun _ sub => sub.planKey ∈ plans).map Prod.fst

/-- The tenants that `tenant_entitlement_resync_plan` takes for a feature. -/
def Db.holders (s : Db) (key : String) : List Nat :=
  (s.subs.matching fun _ sub => (s.planFeatures.get? (sub.planKey, key)).isSome).map Prod.fst ++
    (s.overrides.matching fun k _ => k.2 = key).map Prod.fst ++ (s.granted.matching fun k _ => k.2 = key).map Prod.fst

/-- The tenants that the triggers of the write sync. -/
def Db.touched (s : Db) : Write → List Nat
  | .insertTenant tenant _ _ _ => [tenant]
  | .updateRpm tenant rpm => if (s.tenants.get? tenant).any (·.rateLimitRpm = rpm) then [] else [tenant]
  | .insertSub tenant _ _ => [tenant]
  | .updateSub tenant p sub => if s.subs.get? (tenant, p) = some sub then [] else [tenant]
  | .deleteSub tenant p => if (s.subs.get? (tenant, p)).isSome then s.unlessClosed tenant else []
  | .insertOverride tenant _ _ => [tenant]
  | .updateOverride _ _ tenant' _ _ => [tenant']
  | .deleteOverride tenant key => if (s.overrides.get? (tenant, key)).isSome then s.unlessClosed tenant else []
  | .insertBudget tenant _ => [tenant]
  | .updateBudget _ tenant' _ => [tenant']
  | .deleteBudget tenant => if (s.budgets.get? tenant).isSome then s.unlessClosed tenant else []
  | .insertPlanFeature plan _ _ => s.subscribers [plan]
  | .updatePlanFeature plan _ plan' _ _ => s.subscribers [plan, plan']
  | .deletePlanFeature plan key =>
    if (s.planFeatures.get? (plan, key)).isSome then s.subscribers [plan] else []
  | .insertFeature _ _ => []
  | .updateFeature key _ => s.holders key
  | .deleteFeature _ => []

def Db.write (s : Db) (w : Write) : Db := if s.accepts w then (s.change w).syncAll (s.touched w) else s

def empty : Db :=
  ⟨0, Table.empty, Table.empty, Table.empty, Table.empty, Table.empty, Table.empty, Table.empty⟩

/-- Time passes, a transaction makes its write, and the sweep runs at the same time. -/
structure DbAct where
  later : Nat
  write : Write
deriving Repr, DecidableEq

def Db.tick (s : Db) (later : Nat) : Db := { s with now := s.now + later }

def Db.step (s : Db) (a : DbAct) : Db := ((s.tick a.later).write a.write).syncDue

end CisApp.Entitlements
