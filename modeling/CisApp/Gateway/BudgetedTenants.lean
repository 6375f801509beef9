import CisApp.Entitlements.Resolver
import CisApp.Gateway.TenantBudget
import CisApp.Lib.Join
import CisApp.Lib.Tri

/-! The two readers of a tenant's AI budget (`shared/cost_guard.py`).

The gateway first asks which tenants have a budget at all (`budgetedTenants`, a union of four selects) and reads the
budget itself only for those (`tenantBudgetCheck`, a chain of outer joins).  Both are meant to say the same order of
precedence: a disabled override is a budget of 0, then the resolved key, then the row of `tenant_ai_budget`, then
the plan of the content subscription, with NULL for "no limit" at each level.  `budgetOf?` states that order once, and
the two queries are read against it (`mem_budgetTenants_iff`, `budgetRow_monthlyUsd`).

Before migration 353 there is no resolver, before 321 no budget table: then both fall back together. -/

namespace CisApp.Gateway

open Lib Entitlements List

/-- `AI_BUDGET_KEY`. -/
def aiBudgetKey : String := "ai.budget_usd_monthly"
def planAlertPct : Nat := 80
def planApprovalPct : Nat := 100

/-! ## The tables -/

/-- `shared.tenant_entitlement_override`. -/
structure KeyOverride where
  limitValue : Option Rat
  enabled : Bool
  expiresAt : Option Int
deriving Repr, DecidableEq

/-- A row of `shared.v_tenant_entitlement_resolved`. -/
structure ResolvedKey where
  limitValue : Option Rat
  source : String
deriving Repr, DecidableEq

/-- `shared.tenant_ai_budget`. -/
structure BudgetRow where
  monthlyUsd : Option Rat
  alertPct : Nat
  approvalPct : Nat
  hardStop : Bool
deriving Repr, DecidableEq

structure PlanSubscription where
  planKey : String
  status : SubStatus
deriving Repr, DecidableEq

/-- What migration 353 adds; rows are known by (tenant, key), (tenant, product) and (plan, key). -/
structure PlanTables where
  overrides : Table (String × String) KeyOverride
  resolved : Table (String × String) ResolvedKey
  subscriptions : Table (String × Product) PlanSubscription
  planFeatures : Table (String × String) (Option Rat)

/-- A row of `shared.llm_call_log`; `signal` is `quality_signal @> shadow`. -/
structure LoggedCall where
  tenantId : Option String
  createdAt : Int
  costUsd : Option Rat
  isShadow : Option Bool
  signal : Option Bool
deriving Repr, DecidableEq

/-- The tables a database has; `none` is a table that does not exist yet. -/
structure BudgetDb where
  plans : Option PlanTables
  budgets : Option (Table String BudgetRow)
  calls : List LoggedCall

/-! ## The queries -/

def KeyOverride.disabled (o : KeyOverride) (now : Int) : Bool := !o.enabled && o.expiresAt.all (now < ·)

/-- `_DISABLED_OVERRIDE`. -/
def disabledOverride (d : PlanTables) (now : Int) : List String :=
  (d.overrides.rows.filter fun x => decide (x.1.2 = aiBudgetKey) && x.2.disabled now).map fun x => x.1.1

/-- `_PLAN_FALLBACK`. -/
def planFallback (d : PlanTables) : List (String × Option Rat) :=
  (d.subscriptions.rows.filter fun x => decide (x.1.2 = .content) && decide (x.2.status ≠ .canceled)).flatMap fun s =>
    (d.planFeatures.rows.filter fun pf => decide (pf.1 = (s.2.planKey, aiBudgetKey)) && true).map fun pf => (s.1.1, pf.2)

def keyResolves (d : PlanTables) (tenant : String) : Bool :=
  d.resolved.rows.any fun e => e.1.1 = tenant && e.1.2 = aiBudgetKey

/-- `TENANT_BUDGET_TENANTS_SQL`. -/
def budgetTenants (d : PlanTables) (b : Table String BudgetRow) (now : Int) : List String :=
  disabledOverride d now ++
    ((d.resolved.rows.filter fun e => e.1.2 = aiBudgetKey && e.2.limitValue.isSome).map fun e => e.1.1) ++
    ((b.rows.filter fun x => x.2.monthlyUsd.isSome && !keyResolves d x.1).map fun x => x.1) ++
    ((planFallback d).filter fun p =>
      p.2.isSome && !(b.rows.any fun x => x.1 = p.1) && !keyResolves d p.1).map fun p => p.1

def LoggedCall.counts (l : LoggedCall) (tenant : String) (monthStart : Int) : Bool :=
  l.tenantId = some tenant && monthStart ≤ l.createdAt && ((l.isShadow.or l.signal).map (!·)).getD false

def monthSpent (calls : List LoggedCall) (tenant : String) (monthStart : Int) : Rat :=
  ((calls.filter fun l => l.counts tenant monthStart).filterMap fun l => l.costUsd).sum

/-- The columns of the answer that `tenant_budget_check` reads. -/
structure BudgetAnswer where
  monthlyUsd : Option Rat
  spent : Rat
  alertPct : Nat
  approvalPct : Nat
  hardStop : Tri

/-- `_TENANT_BUDGET_SQL`. -/
def budgetAnswers (d : PlanTables) (b : Table String BudgetRow) (calls : List LoggedCall) (now monthStart : Int)
    (tenant : String) : List BudgetAnswer :=
  let joined := leftJoin (leftJoin (leftJoin (leftJoin [()]
      (disabledOverride d now) fun _ o => o = tenant)
      d.resolved.rows fun _ e => decide (e.1 = (tenant, aiBudgetKey)) && true)
      b.rows fun _ x => decide (x.1 = tenant) && true)
      (planFallback d) fun _ p => p.1 = tenant
  joined.map fun ((((_, o), e), x), p) =>
    let monthlyUsd : Option Rat :=
      if o.isSome then some 0
      else match e, x with
        | some e, _ => e.2.limitValue
        | none, some x => x.2.monthlyUsd
        | none, none => p.bind fun p => p.2
    { monthlyUsd
      spent := monthSpent calls tenant monthStart
      alertPct := (x.map fun x => x.2.alertPct).getD planAlertPct
      approvalPct := (x.map fun x => x.2.approvalPct).getD planApprovalPct
      hardStop := Tri.or (Tri.or (some o.isSome) (Tri.eq monthlyUsd (some 0)))
        (some ((x.map fun x => x.2.hardStop).getD true)) }

/-- `_LEGACY_TENANT_BUDGET_SQL`. -/
def legacyAnswers (b : Table String BudgetRow) (calls : List LoggedCall) (monthStart : Int) (tenant : String) :
    List BudgetAnswer :=
  (b.rows.filter fun x => decide (x.1 = tenant) && x.2.monthlyUsd.isSome).map fun x =>
    { monthlyUsd := x.2.monthlyUsd
      spent := monthSpent calls tenant monthStart
      alertPct := x.2.alertPct
      approvalPct := x.2.approvalPct
      hardStop := some x.2.hardStop }

/-! ## The readers -/

/-- The first query whose tables exist answers. -/
def budgetedTenants (db : BudgetDb) (now : Int) : Option (List String) :=
  match db.plans, db.budgets with
  | some d, some b => some (budgetTenants d b now)
  | none, some b => some ((b.rows.filter fun x => x.2.monthlyUsd.isSome).map fun x => x.1)
  | _, none => none

def tenantBudgetCheck (db : BudgetDb) (now monthStart : Int) (tenant : String) : Option TenantAIBudget :=
  let row :=
    match db.plans, db.budgets with
    | some d, some b => (budgetAnswers d b db.calls now monthStart tenant).head?
    | none, some b => (legacyAnswers b db.calls monthStart tenant).head?
    | _, none => none
  match row with
  | none => none
  | some r => r.monthlyUsd.map fun monthlyUsd =>
    { tenantId := tenant
      monthlyUsd
      monthSpentUsd := r.spent
      alertPct := r.alertPct
      approvalPct := r.approvalPct
      hardStop := r.hardStop.holds }

/-! ## The order of precedence -/

/-- The amount the plan of the tenant's content subscription gives, if it has one. -/
def planAmount? (d : PlanTables) (tenant : String) : Option (Option Rat) :=
  ((d.subscriptions.get? (tenant, .content)).filter fun s => decide (s.status ≠ .canceled)).bind fun s =>
    d.planFeatures.get? (s.planKey, aiBudgetKey)

/-- The budget of a tenant: a disabled override, the resolved key, the row of the tenant, the plan. -/
def budgetOf? (d : PlanTables) (b : Table String BudgetRow) (now : Int) (tenant : String) : Option Rat :=
  if ((d.overrides.get? (tenant, aiBudgetKey)).filter fun o => o.disabled now).isSome then some 0
  else
    match d.resolved.get? (tenant, aiBudgetKey), b.get? tenant with
    | some e, _ => e.limitValue
    | none, some x => x.monthlyUsd
    | none, none => (planAmount? d tenant).bind id

/-! ## What the selects find -/

section

variable (d : PlanTables) (b : Table String BudgetRow) (now : Int) (tenant : String)

theorem filter_disabledOverride : (disabledOverride d now).filter (fun o => decide (o = tenant)) =
      ((d.overrides.get? (tenant, aiBudgetKey)).filter fun o => o.disabled now).toList.map fun _ => tenant := by
  have hkey := filter_key d.overrides (tenant, aiBudgetKey) fun o => o.disabled now
  unfold disabledOverride
  rw [filter_map, filter_filter]
  have hsame : (d.overrides.rows.filter fun x =>
      ((fun o => decide (o = tenant)) ∘ fun x => x.1.1) x && (decide (x.1.2 = aiBudgetKey) && x.2.disabled now)) =
      d.overrides.rows.filter fun x => decide (x.1 = (tenant, aiBudgetKey)) && x.2.disabled now := by
    apply filter_congr
    intro x _
    rw [Function.comp_apply, ← Bool.and_assoc, ← Bool.decide_and]
    have hpair : x.1.1 = tenant ∧ x.1.2 = aiBudgetKey ↔ x.1 = (tenant, aiBudgetKey) :=
      ⟨fun h => Prod.ext h.1 h.2, fun h => ⟨congrArg Prod.fst h, congrArg Prod.snd h⟩⟩
    exact congrArg (· && x.2.disabled now) (decide_eq_decide.2 hpair)
  rw [hsame, hkey, map_map]
  rfl

theorem mem_disabledOverride : tenant ∈ disabledOverride d now ↔
      ((d.overrides.get? (tenant, aiBudgetKey)).filter fun o => o.disabled now).isSome := by
  have hmem : tenant ∈ disabledOverride d now ↔
      tenant ∈ (disabledOverride d now).filter fun o => decide (o = tenant) := by
    simp
  rw [hmem, filter_disabledOverride]
  cases (d.overrides.get? (tenant, aiBudgetKey)).filter fun o => o.disabled now with
  | none => simp
  | some o => simp

theorem filter_planFallback : (planFallback d).filter (fun p => decide (p.1 = tenant)) =
      (planAmount? d tenant).toList.map fun amount => (tenant, amount) := by
  unfold planFallback planAmount?
  rw [filter_flatMap]
  have hone : ∀ s : (String × Product) × PlanSubscription,
      ((d.planFeatures.rows.filter fun pf => decide (pf.1 = (s.2.planKey, aiBudgetKey)) && true).map fun pf =>
        (s.1.1, pf.2)).filter (fun p => decide (p.1 = tenant)) =
      if s.1.1 = tenant then (d.planFeatures.get? (s.2.planKey, aiBudgetKey)).toList.map fun a => (tenant, a)
      else [] := by
    intro s
    rw [filter_key d.planFeatures (s.2.planKey, aiBudgetKey) fun _ => true]
    by_cases hs : s.1.1 = tenant
    · cases d.planFeatures.get? (s.2.planKey, aiBudgetKey) <;> simp [Option.filter, hs]
    · cases d.planFeatures.get? (s.2.planKey, aiBudgetKey) <;> simp [Option.filter, hs]
  have hkeep : ∀ l : List ((String × Product) × PlanSubscription),
      (∀ s ∈ l, s.1.2 = .content) →
      (l.flatMap fun s => if s.1.1 = tenant then
        (d.planFeatures.get? (s.2.planKey, aiBudgetKey)).toList.map fun a => (tenant, a) else []) =
      (l.filter fun s => decide (s.1 = (tenant, .content))).flatMap fun s =>
        (d.planFeatures.get? (s.2.planKey, aiBudgetKey)).toList.map fun a => (tenant, a) := by
    intro l
    induction l with
    | nil => exact fun _ => rfl
    | cons s l ih =>
      intro hl
      have hs := hl s mem_cons_self
      have hiff : s.1 = (tenant, .content) ↔ s.1.1 = tenant := by
        rw [Prod.ext_iff]
        exact and_iff_left hs
      rw [flatMap_cons, ih fun x hx => hl x (mem_cons_of_mem s hx), filter_cons]
      by_cases hst : s.1.1 = tenant
      · rw [if_pos hst, if_pos (decide_eq_true (hiff.2 hst)), flatMap_cons]
      · rw [if_neg hst, if_neg (by simpa using fun h => hst (hiff.1 h)), nil_append]
  rw [funext hone, hkeep _ fun s hs => of_decide_eq_true (Bool.and_elim_left (List.mem_filter.1 hs).2),
    filter_filter]
  have hsame : (d.subscriptions.rows.filter fun s => decide (s.1 = (tenant, .content)) &&
      (decide (s.1.2 = .content) && decide (s.2.status ≠ .canceled))) =
      d.subscriptions.rows.filter fun s => decide (s.1 = (tenant, .content)) && decide (s.2.status ≠ .canceled) := by
    apply filter_congr
    intro s _
    by_cases hs : s.1 = (tenant, .content)
    · simp [hs]
    · simp [hs]
  rw [hsame, filter_key d.subscriptions (tenant, .content) fun s => decide (s.status ≠ .canceled)]
  cases (d.subscriptions.get? (tenant, .content)).filter fun s => decide (s.status ≠ .canceled) with
  | none => rfl
  | some s => simp

theorem mem_planFallback (amount : Option Rat) :
    (tenant, amount) ∈ planFallback d ↔ planAmount? d tenant = some amount := by
  have hmem : (tenant, amount) ∈ planFallback d ↔
      (tenant, amount) ∈ (planFallback d).filter fun p => decide (p.1 = tenant) := by
    simp
  rw [hmem, filter_planFallback]
  cases planAmount? d tenant with
  | none => simp
  | some a => simp [eq_comm]

theorem keyResolves_eq : keyResolves d tenant = (d.resolved.get? (tenant, aiBudgetKey)).isSome := by
  rw [Bool.eq_iff_iff, Option.isSome_iff_exists]
  unfold keyResolves
  rw [any_eq_true]
  constructor
  · rintro ⟨e, he, hkey⟩
    rw [Bool.and_eq_true, decide_eq_true_eq, decide_eq_true_eq] at hkey
    refine ⟨e.2, (Table.get?_eq_some_iff _ _ _).2 ?_⟩
    rw [← hkey.1, ← hkey.2]
    exact he
  · rintro ⟨e, he⟩
    exact ⟨_, (Table.get?_eq_some_iff _ _ _).1 he, by simp⟩

theorem any_budget_eq : (b.rows.any fun x => x.1 = tenant) = (b.get? tenant).isSome := by
  rw [Bool.eq_iff_iff, Option.isSome_iff_exists, any_eq_true]
  constructor
  · rintro ⟨x, hx, hkey⟩
    obtain rfl := of_decide_eq_true hkey
    exact ⟨x.2, (Table.get?_eq_some_iff _ _ _).2 hx⟩
  · rintro ⟨r, hr⟩
    exact ⟨_, (Table.get?_eq_some_iff _ _ _).1 hr, by simp⟩

/-! ## The two queries -/

theorem mem_budgetTenants_iff : tenant ∈ budgetTenants d b now ↔ (budgetOf? d b now tenant).isSome := by
  have hresolved : tenant ∈ (d.resolved.rows.filter fun e =>
      e.1.2 = aiBudgetKey && e.2.limitValue.isSome).map (fun e => e.1.1) ↔
      ∃ e, d.resolved.get? (tenant, aiBudgetKey) = some e ∧ e.limitValue.isSome := by
    simp only [mem_map, mem_filter, Bool.and_eq_true, decide_eq_true_eq]
    constructor
    · rintro ⟨e, ⟨he, hkey, hlimit⟩, rfl⟩
      refine ⟨e.2, (Table.get?_eq_some_iff _ _ _).2 ?_, hlimit⟩
      rw [← hkey]
      exact he
    · rintro ⟨e, he, hlimit⟩
      exact ⟨_, ⟨(Table.get?_eq_some_iff _ _ _).1 he, rfl, hlimit⟩, rfl⟩
  have hrow : tenant ∈ (b.rows.filter fun x => x.2.monthlyUsd.isSome && !keyResolves d x.1).map (fun x => x.1) ↔
      ∃ x, b.get? tenant = some x ∧ x.monthlyUsd.isSome ∧ keyResolves d tenant = false := by
    simp only [mem_map, mem_filter, Bool.and_eq_true, Bool.not_eq_true']
    constructor
    · rintro ⟨x, ⟨hx, husd, hno⟩, rfl⟩
      exact ⟨x.2, (Table.get?_eq_some_iff _ _ _).2 hx, husd, hno⟩
    · rintro ⟨x, hx, husd, hno⟩
      exact ⟨_, ⟨(Table.get?_eq_some_iff _ _ _).1 hx, husd, hno⟩, rfl⟩
  have hplan : tenant ∈ ((planFallback d).filter fun p =>
      p.2.isSome && !(b.rows.any fun x => x.1 = p.1) && !keyResolves d p.1).map (fun p => p.1) ↔
      ∃ a, planAmount? d tenant = some (some a) ∧ (b.get? tenant).isSome = false ∧
        keyResolves d tenant = false := by
    simp only [mem_map, mem_filter, Bool.and_eq_true, Bool.not_eq_true', any_budget_eq]
    constructor
    · rintro ⟨⟨t, amount⟩, ⟨hp, ⟨hsome, hb⟩, hno⟩, rfl⟩
      obtain ⟨a, rfl⟩ := Option.isSome_iff_exists.1 hsome
      exact ⟨a, (mem_planFallback d t _).1 hp, hb, hno⟩
    · rintro ⟨a, ha, hb, hno⟩
      exact ⟨(tenant, some a), ⟨(mem_planFallback d tenant _).2 ha, ⟨rfl, hb⟩, hno⟩, rfl⟩
  unfold budgetTenants budgetOf?
  rw [mem_append, mem_append, mem_append, mem_disabledOverride, hresolved, hrow, hplan, keyResolves_eq]
  by_cases hoff : ((d.overrides.get? (tenant, aiBudgetKey)).filter fun o => o.disabled now).isSome = true
  · simp [hoff]
  · cases he : d.resolved.get? (tenant, aiBudgetKey) with
    | some e => simp [hoff]
    | none =>
      cases hx : b.get? tenant with
      | some x => simp [hoff]
      | none =>
        cases planAmount? d tenant with
        | none => simp [hoff]
        | some amount => cases amount <;> simp [hoff]

theorem budgetAnswers_head (calls : List LoggedCall) (monthStart : Int) :
    ∃ r, (budgetAnswers d b calls now monthStart tenant).head? = some r ∧ r.monthlyUsd = budgetOf? d b now tenant := by
  have hoff := filter_disabledOverride d now tenant
  have hkey := filter_key d.resolved (tenant, aiBudgetKey) fun _ => true
  have hrow := filter_key b tenant fun _ => true
  have hplan := filter_planFallback d tenant
  unfold budgetAnswers
  rw [leftJoin_of_unique (r := disabledOverride d now), map_singleton,
    leftJoin_of_unique (r := d.resolved.rows), map_singleton,
    leftJoin_of_unique (r := b.rows), map_singleton,
    leftJoin_of_unique (r := planFallback d), map_singleton, map_singleton, List.head?_cons]
  · refine ⟨_, rfl, ?_⟩
    rw [hoff, hkey, hrow, hplan]
    unfold budgetOf?
    cases (d.overrides.get? (tenant, aiBudgetKey)).filter fun o => o.disabled now with
    | some o => rfl
    | none =>
      cases d.resolved.get? (tenant, aiBudgetKey) with
      | some e => rfl
      | none =>
        cases b.get? tenant with
        | some x => rfl
        | none => cases planAmount? d tenant <;> rfl
  · intro a _
    rw [hplan, length_map]
    exact Option.length_toList_le
  · intro a _
    rw [hrow, length_map]
    exact Option.length_toList_le
  · intro a _
    rw [hkey, length_map]
    exact Option.length_toList_le
  · intro a _
    rw [hoff, length_map]
    exact Option.length_toList_le

end

/-- **The two readers agree.**  Whatever the tables hold, and whichever of them exist, a tenant is in the set exactly
when its check returns a budget. -/
theorem budgeted_iff_checked (db : BudgetDb) (now monthStart : Int) (tenant : String) :
    (∃ tenants, budgetedTenants db now = some tenants ∧ tenant ∈ tenants) ↔
      (tenantBudgetCheck db now monthStart tenant).isSome := by
  unfold budgetedTenants tenantBudgetCheck
  cases hb : db.budgets with
  | none => cases db.plans <;> simp
  | some b =>
    cases hd : db.plans with
    | some d =>
      obtain ⟨r, hr, husd⟩ := budgetAnswers_head d b now tenant db.calls monthStart
      dsimp only
      rw [hr]
      dsimp only
      rw [Option.isSome_map, husd, ← mem_budgetTenants_iff]
      simp
    | none =>
      dsimp only
      unfold legacyAnswers
      rw [filter_key b tenant fun x => x.monthlyUsd.isSome]
      have hmem : tenant ∈ (b.rows.filter fun x => x.2.monthlyUsd.isSome).map (fun x => x.1) ↔
          ∃ x, b.get? tenant = some x ∧ x.monthlyUsd.isSome := by
        simp only [mem_map, mem_filter]
        constructor
        · rintro ⟨x, ⟨hx, husd⟩, rfl⟩
          exact ⟨x.2, (Table.get?_eq_some_iff _ _ _).2 hx, husd⟩
        · rintro ⟨x, hx, husd⟩
          exact ⟨_, ⟨(Table.get?_eq_some_iff _ _ _).1 hx, husd⟩, rfl⟩
      simp only [Option.some.injEq, exists_eq_left']
      rw [hmem]
      cases b.get? tenant with
      | none => simp
      | some x => cases hx : x.monthlyUsd <;> simp [Option.filter, hx]

end CisApp.Gateway
