import CisApp.Entitlements.Resolver

/-! The materialised entitlements follow the resolver.

A tenant that a write's triggers sync follows at once (`Db.Follows.syncTenant`), and so does one that the sweep
finds.  For the others the view must not have moved: not by the write (`resolved_change`), and not by the time
that passed (`resolved_tick`).  Three kinds of steps break this, and `Seen` leaves them out: a disabled
override that runs out (it hides a key, so there is no row for the sweep to find), a write of a feature whose
key a tenant has from the rate limit or the AI budget only, and an update that moves an override or a budget to
another tenant. -/

namespace CisApp.Entitlements

open List Option

/-- The columns that are compared. -/
def Row.shown (row : Row) : Option Int × Source × Option String × Option Nat :=
  (row.limitValue, row.source, row.planKey, row.expiresAt)

/-- The table has exactly the resolver's rows of the tenant. -/
def Db.Follows (s : Db) (tenant : Nat) : Prop :=
  ∀ key, (s.granted.get? (tenant, key)).map Row.shown = (s.resolved tenant key).map Row.shown

def Db.Followed (s : Db) : Prop := ∀ tenant, s.closed tenant = false → s.Follows tenant

/-! ## The view -/

variable {s : Db} {tenant : Nat} {key : String}

theorem resolved_of_no_feature (h : s.features.get? key = none) : s.resolved tenant key = none := by
  unfold Db.resolved
  rw [h]

theorem get?_view (s : Db) (tenant : Nat) (key : String) : (s.view tenant).get? key = s.resolved tenant key := by
  apply Option.ext
  intro row
  rw [Table.get?_eq_some_iff]
  unfold Db.view
  rw [mem_filterMap]
  constructor
  · rintro ⟨x, -, hx⟩
    obtain ⟨row', hrow', heq⟩ := map_eq_some_iff.1 hx
    cases heq
    exact hrow'
  · intro hrow
    cases hf : s.features.get? key with
    | none =>
      rw [resolved_of_no_feature hf] at hrow
      cases hrow
    | some f =>
      refine ⟨(key, f), (Table.get?_eq_some_iff _ _ _).1 hf, ?_⟩
      rw [hrow]
      rfl

/-! ## Syncs -/

theorem shown_of_not_differs {w h : Row} (hsame : ¬w.differs h = true) : h.shown = w.shown := by
  unfold Row.differs at hsame
  simp only [ne_eq, Bool.or_eq_true, decide_eq_true_eq, not_or, not_not] at hsame
  unfold Row.shown
  rw [hsame.1.1.1.1.1, hsame.1.1.1.1.2, hsame.1.1.1.2, hsame.1.1.2]

theorem settled_shown (want stored : Option Row) : (settled want stored).map Row.shown = want.map Row.shown := by
  cases want with
  | none => rfl
  | some w =>
    cases stored with
    | none => rfl
    | some h =>
      show (if w.differs h then some w else some h).map Row.shown = _
      split
      · rfl
      · next hsame =>
        show some h.shown = some w.shown
        rw [shown_of_not_differs hsame]

theorem syncTenant_eq (s : Db) (tenant : Nat) :
    ∃ granted, s.syncTenant tenant = { s with granted := granted } := by
  unfold Db.syncTenant
  split
  · exact ⟨_, rfl⟩
  · exact ⟨s.granted, rfl⟩

theorem syncAll_eq (s : Db) (tenants : List Nat) : ∃ granted, s.syncAll tenants = { s with granted := granted } := by
  induction tenants generalizing s with
  | nil => exact ⟨s.granted, rfl⟩
  | cons tenant tenants ih =>
    obtain ⟨granted, hone⟩ := syncTenant_eq s tenant
    obtain ⟨granted', hrest⟩ := ih (s.syncTenant tenant)
    refine ⟨granted', ?_⟩
    unfold Db.syncAll at hrest ⊢
    rw [foldl_cons, hrest, hone]

theorem resolved_granted (s : Db) (granted : Granted) (tenant : Nat) (key : String) :
    ({ s with granted := granted } : Db).resolved tenant key = s.resolved tenant key := rfl

theorem Db.Follows.syncTenant (h : (s.tenants.get? tenant).isSome = true) : (s.syncTenant tenant).Follows tenant := by
  intro key
  unfold Db.syncTenant
  rw [if_pos h, resolved_granted]
  show ((sync tenant (s.view tenant) s.granted).get? (tenant, key)).map Row.shown = _
  rw [get?_sync, settled_shown, get?_view]

theorem granted_syncTenant {other : Nat} (h : tenant ≠ other) (key : String) :
    (s.syncTenant other).granted.get? (tenant, key) = s.granted.get? (tenant, key) := by
  unfold Db.syncTenant
  split
  · exact get?_sync_of_ne other _ _ h
  · rfl

theorem Db.Follows.of_syncTenant (h : s.Follows tenant) (other : Nat) : (s.syncTenant other).Follows tenant := by
  by_cases heq : tenant = other
  · subst heq
    by_cases hin : (s.tenants.get? tenant).isSome = true
    · exact Db.Follows.syncTenant hin
    · unfold Db.syncTenant
      rw [if_neg hin]
      exact h
  · intro key
    obtain ⟨granted, hgranted⟩ := syncTenant_eq s other
    rw [granted_syncTenant heq, h key, hgranted]
    rfl

theorem Db.Follows.of_syncAll (h : s.Follows tenant) (tenants : List Nat) : (s.syncAll tenants).Follows tenant := by
  induction tenants generalizing s with
  | nil => exact h
  | cons other tenants ih => exact ih (Db.Follows.of_syncTenant h other)

theorem Db.Follows.syncAll {tenants : List Nat} (hmem : tenant ∈ tenants)
    (h : (s.tenants.get? tenant).isSome = true) : (s.syncAll tenants).Follows tenant := by
  induction tenants generalizing s with
  | nil => cases hmem
  | cons other tenants ih =>
    rcases mem_cons.1 hmem with rfl | hmem
    · exact Db.Follows.of_syncAll (Db.Follows.syncTenant h) tenants
    · obtain ⟨granted, hgranted⟩ := syncTenant_eq s other
      refine ih hmem ?_
      rw [hgranted]
      exact h

theorem granted_syncAll {tenants : List Nat} (hnot : tenant ∉ tenants) (key : String) :
    (s.syncAll tenants).granted.get? (tenant, key) = s.granted.get? (tenant, key) := by
  induction tenants generalizing s with
  | nil => rfl
  | cons other tenants ih =>
    rw [mem_cons, not_or] at hnot
    exact (ih hnot.2).trans (granted_syncTenant hnot.1 key)

/-! ## Time -/

theorem firstBy_head {α : Type} {le : α → α → Bool} {x : α} {xs : List α} (h : ∀ y ∈ xs, le x y = true) :
    Table.firstBy le (x :: xs) = some x := by
  unfold Table.firstBy
  cases hfirst : Table.firstBy le xs with
  | none => rfl
  | some y =>
    dsimp only
    rw [if_pos (h y (Table.mem_of_firstBy hfirst))]

/-- The candidates below an override. -/
def Db.lower (s : Db) (tenant : Nat) (key : String) : List Candidate :=
  (s.budgetCandidate tenant key).toList ++ [Product.content, .crm, .tripplanner].filterMap (s.planCandidate tenant key)

theorem rank_of_lower {c : Candidate} (h : c ∈ s.lower tenant key) : 2 ≤ c.rank := by
  rcases mem_append.1 h with h | h
  · rw [mem_toList] at h
    unfold Db.budgetCandidate at h
    split at h
    · obtain ⟨usd, -, rfl⟩ := map_eq_some_iff.1 h
      exact le_refl 2
    · cases h
  · obtain ⟨p, -, hp⟩ := mem_filterMap.1 h
    unfold Db.planCandidate at hp
    split at hp
    · cases hp
    · split at hp
      · cases hp
        exact Nat.le_succ 2
      · cases hp

theorem rank_of_rpm {c : Candidate} (h : s.rpmCandidate tenant key = some c) : c.rank = 0 := by
  unfold Db.rpmCandidate at h
  split at h
  · split at h
    · split at h
      · cases h
        rfl
      · cases h
    · cases h
  · cases h

theorem candidates_eq (s : Db) (tenant : Nat) (key : String) : s.candidates tenant key =
      (s.rpmCandidate tenant key).toList ++ ((s.overrideCandidate tenant key).toList ++ s.lower tenant key) := by
  unfold Db.candidates Db.lower
  simp only [append_assoc]

theorem before_of_rank_lt {a b : Candidate} (h : a.rank < b.rank) : a.before b = true := by
  unfold Candidate.before
  simp [h]

theorem counts_congr {f : Feature} {a b : Candidate} (ha : a.rank < 3) (hb : b.rank < 3) :
    s.counts tenant f a = s.counts tenant f b := by
  unfold Db.counts
  simp [Nat.ne_of_lt ha, Nat.ne_of_lt hb]

theorem overrideCandidate_tick (s : Db) (later tenant : Nat) (key : String) :
    (s.tick later).overrideCandidate tenant key = s.overrideCandidate tenant key ∨
      ∃ o e, s.overrides.get? (tenant, key) = some o ∧ o.expiresAt = some e ∧ s.now < e ∧ e ≤ s.now + later ∧
        s.overrideCandidate tenant key = some ⟨o.limitValue, o.enabled, .override, none, some e, 1, none⟩ ∧
        (s.tick later).overrideCandidate tenant key = none := by
  unfold Db.overrideCandidate Db.tick
  cases ho : s.overrides.get? (tenant, key) with
  | none => exact Or.inl rfl
  | some o =>
    dsimp only
    cases he : o.expiresAt with
    | none => exact Or.inl rfl
    | some e =>
      by_cases hnow : s.now < e
      · by_cases hlater : s.now + later < e
        · left
          simp [hnow, hlater]
        · right
          exact ⟨o, e, rfl, he, hnow, by omega, by simp [hnow], by simp [hlater]⟩
      · left
        have hlater : ¬s.now + later < e := by omega
        simp [hnow, hlater]

theorem winner_tick (s : Db) (later tenant : Nat) (key : String) (f : Feature) :
    (s.tick later).winner tenant key f = s.winner tenant key f ∨
      ∃ o e, s.overrides.get? (tenant, key) = some o ∧ o.expiresAt = some e ∧ s.now < e ∧ e ≤ s.now + later ∧
        s.winner tenant key f = some ⟨o.limitValue, o.enabled, .override, none, some e, 1, none⟩ := by
  unfold Db.winner
  rw [candidates_eq, candidates_eq]
  have hcounts : (s.tick later).counts tenant f = s.counts tenant f := rfl
  have hrpm : (s.tick later).rpmCandidate tenant key = s.rpmCandidate tenant key := rfl
  have hlower : (s.tick later).lower tenant key = s.lower tenant key := rfl
  rw [hcounts, hrpm, hlower]
  rcases overrideCandidate_tick s later tenant key with hsame | ⟨o, e, ho, he, hnow, hlater, hold, hnew⟩
  · rw [hsame]
    exact Or.inl rfl
  · rw [hold, hnew]
    simp only [toList_some, toList_none, nil_append, filter_append, singleton_append]
    by_cases hc : s.counts tenant f ⟨o.limitValue, o.enabled, .override, none, some e, 1, none⟩ = true
    · rw [filter_cons_of_pos hc]
      cases hr : s.rpmCandidate tenant key with
      | some c₀ =>
        -- the rate limit wins before and after
        left
        have hrank := rank_of_rpm hr
        have hc₀ : s.counts tenant f c₀ = true := by
          rw [← hc]
          exact counts_congr (by omega) (show 1 < 3 by omega)
        rw [toList_some, filter_cons_of_pos hc₀, filter_nil, singleton_append,
          singleton_append, firstBy_head fun y hy => ?_, firstBy_head fun y hy => ?_]
        · refine before_of_rank_lt ?_
          rcases mem_cons.1 hy with rfl | hy
          · show c₀.rank < 1
            omega
          · have := rank_of_lower (mem_filter.1 hy).1
            omega
        · refine before_of_rank_lt ?_
          have := rank_of_lower (mem_filter.1 hy).1
          omega
      | none =>
        right
        refine ⟨o, e, ho, he, hnow, hlater, ?_⟩
        refine firstBy_head fun y hy => before_of_rank_lt ?_
        have := rank_of_lower (mem_filter.1 hy).1
        show 1 < y.rank
        omega
    · left
      rw [filter_cons_of_neg hc]

theorem resolved_tick {later : Nat} (hfollows : s.Follows tenant)
    (hdue : ∀ key row, s.granted.get? (tenant, key) = some row → ∀ e, row.expiresAt = some e → s.now + later < e)
    (hdisabled : ∀ key o e, s.overrides.get? (tenant, key) = some o → o.enabled = false → o.expiresAt = some e →
      s.now < e → s.now + later < e) (key : String) : (s.tick later).resolved tenant key = s.resolved tenant key := by
  have hrow := hfollows key
  unfold Db.resolved at hrow ⊢
  rw [show (s.tick later).features.get? key = s.features.get? key from rfl]
  cases hf : s.features.get? key with
  | none => rfl
  | some f =>
    rw [hf] at hrow
    dsimp only at hrow ⊢
    split
    · rfl
    · next hlive =>
      rw [if_neg hlive] at hrow
      rcases winner_tick s later tenant key f with hsame | ⟨o, e, ho, he, hnow, hlater, hwin⟩
      · rw [hsame]
      · exfalso
        cases hen : o.enabled with
        | false =>
          have := hdisabled key o e ho hen he hnow
          omega
        | true =>
          rw [hwin, hen] at hrow
          obtain ⟨row, hgot, hshown⟩ := map_eq_some_iff.1 hrow
          have hexp : row.expiresAt = some e := congrArg (fun x => x.2.2.2) hshown
          have := hdue key row hgot e hexp
          omega

/-! ## Writes -/

variable {s' : Db}

theorem liveSub_congr {p : Product}
    (h : s'.subs.get? (tenant, p) = s.subs.get? (tenant, p)) : s'.liveSub tenant p = s.liveSub tenant p := by
  unfold Db.liveSub
  rw [h]

/-- What the view of a key reads. -/
structure Reads (s s' : Db) (tenant : Nat) (key : String) : Prop where
  now : s'.now = s.now
  tenants : s'.tenants.get? tenant = s.tenants.get? tenant
  subs : ∀ p, s'.subs.get? (tenant, p) = s.subs.get? (tenant, p)
  planFeatures : ∀ p ls, s.liveSub tenant p = some ls →
    s'.planFeatures.get? (ls.planKey, key) = s.planFeatures.get? (ls.planKey, key)
  overrides : s'.overrides.get? (tenant, key) = s.overrides.get? (tenant, key)
  budgets : s'.budgets.get? tenant = s.budgets.get? tenant

theorem Reads.rpmCandidate (h : Reads s s' tenant key) : s'.rpmCandidate tenant key = s.rpmCandidate tenant key := by
  unfold Db.rpmCandidate
  rw [h.tenants, liveSub_congr (h.subs .content)]
  cases s.tenants.get? tenant with
  | none => rfl
  | some t =>
    cases hls : s.liveSub tenant .content with
    | none => rfl
    | some ls =>
      dsimp only
      rw [h.planFeatures .content ls hls]

theorem Reads.overrideCandidate (h : Reads s s' tenant key) :
    s'.overrideCandidate tenant key = s.overrideCandidate tenant key := by
  unfold Db.overrideCandidate
  rw [h.overrides, h.now]

theorem Reads.budgetCandidate (h : Reads s s' tenant key) :
    s'.budgetCandidate tenant key = s.budgetCandidate tenant key := by
  unfold Db.budgetCandidate
  rw [h.budgets]

theorem Reads.planCandidate (h : Reads s s' tenant key)
    (hf : s'.features.get? key = s.features.get? key) (p : Product) :
    s'.planCandidate tenant key p = s.planCandidate tenant key p := by
  unfold Db.planCandidate
  rw [liveSub_congr (h.subs p)]
  cases hls : s.liveSub tenant p with
  | none => rfl
  | some ls =>
    dsimp only
    rw [h.planFeatures p ls hls, hf]

theorem Reads.resolved (h : Reads s s' tenant key)
    (hf : s'.features.get? key = s.features.get? key) : s'.resolved tenant key = s.resolved tenant key := by
  have hcand : s'.candidates tenant key = s.candidates tenant key := by
    unfold Db.candidates
    rw [h.rpmCandidate, h.overrideCandidate, h.budgetCandidate, funext (h.planCandidate hf)]
  have hcounts : s'.counts tenant = s.counts tenant := by
    funext f c
    unfold Db.counts
    rw [liveSub_congr (h.subs _)]
  unfold Db.resolved Db.winner
  rw [hf, hcand, hcounts]

theorem resolved_of_no_candidate (h : s.candidates tenant key = []) : s.resolved tenant key = none := by
  unfold Db.resolved Db.winner
  rw [h]
  cases s.features.get? key with
  | none => rfl
  | some f =>
    dsimp only
    split <;> rfl

theorem Reads.no_candidate (h : Reads s s' tenant key) (hnone : s.candidates tenant key = [])
    (hplan : ∀ p ls, s.liveSub tenant p = some ls → s.planFeatures.get? (ls.planKey, key) = none) :
    s'.candidates tenant key = [] := by
  unfold Db.candidates at hnone ⊢
  simp only [append_eq_nil_iff] at hnone ⊢
  refine ⟨⟨⟨?_, ?_⟩, ?_⟩, ?_⟩
  · rw [h.rpmCandidate]
    exact hnone.1.1.1
  · rw [h.overrideCandidate]
    exact hnone.1.1.2
  · rw [h.budgetCandidate]
    exact hnone.1.2
  · rw [filterMap_eq_nil_iff]
    intro p _
    unfold Db.planCandidate
    rw [liveSub_congr (h.subs p)]
    cases hls : s.liveSub tenant p with
    | none => rfl
    | some ls =>
      dsimp only
      rw [h.planFeatures p ls hls, hplan p ls hls]

/-- A write whose triggers find every tenant that it is about. -/
def Db.SeenWrite (s : Db) : Write → Prop
  | .insertFeature key f =>
    ∀ tenant, s.closed tenant = false → (s.change (.insertFeature key f)).candidates tenant key = []
  | .updateFeature key _ => ∀ tenant, s.closed tenant = false → s.candidates tenant key ≠ [] → tenant ∈ s.holders key
  | .updateOverride tenant _ tenant' _ _ => tenant = tenant' ∨ s.closed tenant = true
  | .updateBudget tenant tenant' _ => tenant = tenant' ∨ s.closed tenant = true
  | _ => True

theorem not_subscriber {plans : List String} (h : tenant ∉ s.subscribers plans) {p : Product}
    {ls : Subscription} (hls : s.liveSub tenant p = some ls) : ls.planKey ∉ plans := by
  intro hin
  refine h (mem_map.2 ⟨(tenant, p), (Table.mem_matching _ _ _).2 ⟨ls, ?_, by simpa using hin⟩, rfl⟩)
  exact (filter_eq_some_iff.1 hls).1

variable {t : Nat}

theorem not_unlessClosed {found : Bool} (hopen : s.closed t = false)
    (hnot : t ∉ if found then s.unlessClosed tenant else []) : t ≠ tenant ∨ found = false := by
  cases found with
  | false => exact Or.inr rfl
  | true =>
    left
    rintro rfl
    refine hnot ?_
    unfold Db.unlessClosed
    rw [hopen]
    exact mem_singleton_self t

theorem reads_of_subs {subs : Table (Nat × Product) Subscription}
    (h : ∀ p, subs.get? (t, p) = s.subs.get? (t, p)) : Reads s { s with subs := subs } t key :=
  ⟨rfl, rfl, h, fun _ _ _ => rfl, rfl, rfl⟩

theorem reads_of_overrides {overrides : Table (Nat × String) Override}
    (h : overrides.get? (t, key) = s.overrides.get? (t, key)) : Reads s { s with overrides := overrides } t key :=
  ⟨rfl, rfl, fun _ => rfl, fun _ _ _ => rfl, h, rfl⟩

theorem reads_of_budgets {budgets : Table Nat (Option Int)}
    (h : budgets.get? t = s.budgets.get? t) : Reads s { s with budgets := budgets } t key :=
  ⟨rfl, rfl, fun _ => rfl, fun _ _ _ => rfl, rfl, h⟩

theorem reads_of_planFeatures {plans : List String}
    {planFeatures : Table (String × String) (Option Int)} (hnot : t ∉ s.subscribers plans)
    (h : ∀ plan, plan ∉ plans → planFeatures.get? (plan, key) = s.planFeatures.get? (plan, key)) :
    Reads s { s with planFeatures := planFeatures } t key :=
  ⟨rfl, rfl, fun _ => rfl, fun _ ls hls => h ls.planKey (not_subscriber hnot hls), rfl, rfl⟩

theorem reads_of_features (s : Db) (features : Table String Feature) (t : Nat) (key : String) :
    Reads s { s with features := features } t key :=
  ⟨rfl, rfl, fun _ => rfl, fun _ _ _ => rfl, rfl, rfl⟩

theorem fst_ne {α β : Type} {a c : α} {b d : β} (h : a ≠ c) : (a, b) ≠ (c, d) :=
  fun heq => h (congrArg Prod.fst heq)

theorem get?_delete_absent {κ ρ : Type} [DecidableEq κ] {m : Table κ ρ} {k k' : κ}
    (h : k' = k → (m.get? k).isSome = false) : (m.delete fun k' _ => k' = k).get? k' = m.get? k' := by
  rw [get?_delete_key]
  split
  · next heq =>
    rw [heq]
    exact (not_isSome_iff_eq_none.1 (by simp [h heq])).symm
  · rfl

theorem ne_of_seen {tenant' : Nat} (hopen : s.closed t = false) (hne : t ≠ tenant')
    (hseen : tenant = tenant' ∨ s.closed tenant = true) : t ≠ tenant := by
  rcases hseen with heq | hclosed
  · rw [heq]
    exact hne
  · rintro rfl
    rw [hopen] at hclosed
    cases hclosed

theorem resolved_change {w : Write} (hopen : s.closed t = false) (hnot : t ∉ s.touched w)
    (haccepts : s.accepts w = true) (hseen : s.SeenWrite w) (hfollows : s.Follows t) (key : String) :
    (s.change w).resolved t key = s.resolved t key := by
  cases w with
  | insertTenant tenant rpm closed planKey =>
    have hne : t ≠ tenant := ne_of_not_mem_cons hnot
    refine Reads.resolved ⟨rfl, ?_, fun p => ?_, fun _ _ _ => rfl, rfl, rfl⟩ rfl
    · exact (Table.get?_upsert _ _ _ _).trans (if_neg hne)
    · exact (Table.get?_upsert _ _ _ _).trans (if_neg (fst_ne hne))
  | updateRpm tenant rpm =>
    refine Reads.resolved ⟨rfl, ?_, fun _ => rfl, fun _ _ _ => rfl, rfl, rfl⟩ rfl
    refine (Table.get?_update _ _ _ _).trans ?_
    cases hrow : s.tenants.get? t with
    | none => rfl
    | some row =>
      by_cases heq : t = tenant
      · have hsame : row.rateLimitRpm = rpm := by
          by_contra hdiff
          refine hnot ?_
          show t ∈ if (s.tenants.get? tenant).any (·.rateLimitRpm = rpm) then [] else [tenant]
          rw [← heq, hrow]
          simp [hdiff]
        simp [heq, ← hsame]
      · simp [heq]
  | insertSub tenant p sub =>
    have hne : t ≠ tenant := ne_of_not_mem_cons hnot
    exact (reads_of_subs fun p' => (Table.get?_upsert _ _ _ _).trans (if_neg (fst_ne hne))).resolved rfl
  | updateSub tenant p sub =>
    refine (reads_of_subs fun p' => (Table.get?_upsert _ _ _ _).trans ?_).resolved rfl
    split
    · next heq =>
      unfold Db.touched at hnot
      dsimp only at hnot
      split at hnot
      · next hsame =>
        rw [heq]
        exact hsame.symm
      · exact absurd (mem_singleton.2 (congrArg Prod.fst heq)) hnot
    · rfl
  | deleteSub tenant p =>
    refine (reads_of_subs fun p' => get?_delete_absent fun heq => ?_).resolved rfl
    exact (not_unlessClosed hopen hnot).resolve_left (absurd (congrArg Prod.fst heq))
  | insertOverride tenant key' o =>
    have hne : t ≠ tenant := ne_of_not_mem_cons hnot
    exact (reads_of_overrides ((Table.get?_upsert _ _ _ _).trans (if_neg (fst_ne hne)))).resolved rfl
  | updateOverride tenant key₁ tenant' key₂ o =>
    have hne' : t ≠ tenant' := ne_of_not_mem_cons hnot
    have hne := ne_of_seen hopen hne' hseen
    refine (reads_of_overrides ((Table.get?_upsert _ _ _ _).trans ?_)).resolved rfl
    rw [if_neg (fst_ne hne'), get?_delete_key, if_neg (fst_ne hne)]
  | deleteOverride tenant key' =>
    refine (reads_of_overrides (get?_delete_absent fun heq => ?_)).resolved rfl
    exact (not_unlessClosed hopen hnot).resolve_left (absurd (congrArg Prod.fst heq))
  | insertBudget tenant usd =>
    have hne : t ≠ tenant := ne_of_not_mem_cons hnot
    exact (reads_of_budgets ((Table.get?_upsert _ _ _ _).trans (if_neg hne))).resolved rfl
  | updateBudget tenant tenant' usd =>
    have hne' : t ≠ tenant' := ne_of_not_mem_cons hnot
    have hne := ne_of_seen hopen hne' hseen
    refine (reads_of_budgets ((Table.get?_upsert _ _ _ _).trans ?_)).resolved rfl
    rw [if_neg hne', get?_delete_key, if_neg hne]
  | deleteBudget tenant =>
    refine (reads_of_budgets (get?_delete_absent fun heq => ?_)).resolved rfl
    exact (not_unlessClosed hopen hnot).resolve_left (absurd heq)
  | insertPlanFeature plan key' limit =>
    refine (reads_of_planFeatures hnot fun plan' hplan => ?_).resolved rfl
    exact (Table.get?_upsert _ _ _ _).trans (if_neg (fst_ne fun heq => hplan (mem_singleton.2 heq)))
  | updatePlanFeature plan key₁ plan' key₂ limit =>
    refine (reads_of_planFeatures hnot fun plan'' hplan => (Table.get?_upsert _ _ _ _).trans ?_).resolved rfl
    rw [mem_cons, mem_singleton, not_or] at hplan
    rw [if_neg (fst_ne hplan.2), get?_delete_key, if_neg (fst_ne hplan.1)]
  | deletePlanFeature plan key' =>
    unfold Db.touched at hnot
    dsimp only at hnot
    split at hnot
    · refine (reads_of_planFeatures hnot fun plan' hplan => ?_).resolved rfl
      exact (get?_delete_key _ _ _).trans (if_neg (fst_ne fun heq => hplan (mem_singleton.2 heq)))
    · next hnone =>
      refine Reads.resolved ⟨rfl, rfl, fun _ => rfl, fun p ls _ => ?_, rfl, rfl⟩ rfl
      exact get?_delete_absent fun _ => Bool.eq_false_iff.2 hnone
  | insertFeature key' f =>
    by_cases heq : key = key'
    · have hnone : s.features.get? key' = none := by
        have : (!s.hasFeature key') = true := haccepts
        rw [Bool.not_eq_true'] at this
        exact not_isSome_iff_eq_none.1 (by rw [show (s.features.get? key').isSome = false from this]; simp)
      rw [heq, resolved_of_no_candidate (hseen t hopen), resolved_of_no_feature hnone]
    · exact (reads_of_features s _ t key).resolved ((Table.get?_upsert _ _ _ _).trans (if_neg heq))
  | updateFeature key' f =>
    by_cases heq : key = key'
    · have hreads : Reads s (s.change (.updateFeature key' f)) t key' :=
        reads_of_features s _ t key'
      have hnone : s.candidates t key' = [] := by
        by_contra hsome
        exact hnot (hseen t hopen hsome)
      have hplan : ∀ p ls, s.liveSub t p = some ls → s.planFeatures.get? (ls.planKey, key') = none := by
        intro p ls hls
        by_contra hsome
        refine hnot (mem_append_left _ (mem_append_left _ (mem_map.2 ⟨(t, p), ?_, rfl⟩)))
        refine (Table.mem_matching _ _ _).2 ⟨ls, (filter_eq_some_iff.1 hls).1, ?_⟩
        exact isSome_iff_ne_none.2 hsome
      rw [heq, resolved_of_no_candidate hnone, resolved_of_no_candidate (hreads.no_candidate hnone hplan)]
    · exact (reads_of_features s _ t key).resolved ((Table.get?_upsert _ _ _ _).trans (if_neg heq))
  | deleteFeature key' =>
    by_cases heq : key = key'
    · -- no row of the feature is there, so the tenant has none
      have hrow : s.granted.get? (t, key') = none := by
        by_contra hsome
        obtain ⟨row, hrow⟩ := ne_none_iff_exists'.1 hsome
        have hany : (s.granted.rows.any fun x => x.1.2 = key') = true :=
          List.any_eq_true.2 ⟨((t, key'), row), (Table.get?_eq_some_iff _ _ _).1 hrow, by simp⟩
        have hfree : (_ && !(s.granted.rows.any fun x => x.1.2 = key')) = true := haccepts
        rw [hany] at hfree
        simp at hfree
      have hnone := hfollows key'
      rw [hrow] at hnone
      rw [heq, map_eq_none_iff.1 hnone.symm]
      exact resolved_of_no_feature ((get?_delete_key _ _ _).trans (if_pos rfl))
    · exact (reads_of_features s _ t key).resolved ((get?_delete_key _ _ _).trans (if_neg heq))

/-! ## Whole runs -/

/-- The tenants that the triggers sync, if the write is let through. -/
def Db.resynced (s : Db) (w : Write) : List Nat := if s.accepts w then s.touched w else []

/-- Every disabled override that runs out in between is of an offboarded tenant or of one that the write syncs,
and the write's triggers find every tenant that it is about. -/
def Seen (s : Db) (a : DbAct) : Prop :=
  (∀ tenant key o e, s.overrides.get? (tenant, key) = some o → o.enabled = false → o.expiresAt = some e →
    s.now < e → e ≤ s.now + a.later → s.closed tenant = true ∨ tenant ∈ (s.tick a.later).resynced a.write) ∧
  ((s.tick a.later).accepts a.write = true → (s.tick a.later).SeenWrite a.write)

theorem write_eq (s : Db) (w : Write) : s.write w = (if s.accepts w then s.change w else s).syncAll (s.resynced w) := by
  unfold Db.write Db.resynced
  split <;> rfl

theorem granted_change (s : Db) (w : Write) : (s.change w).granted = s.granted := by
  cases w <;> rfl

theorem closed_change {w : Write} (hopen : (s.change w).closed t = false)
    (hnot : t ∉ s.touched w) : s.closed t = false := by
  cases w with
  | insertTenant tenant rpm closed planKey =>
    have hne : t ≠ tenant := ne_of_not_mem_cons hnot
    have hsame : (s.tenants.upsert tenant ⟨rpm, closed⟩).get? t = s.tenants.get? t :=
      (Table.get?_upsert _ _ _ _).trans (if_neg hne)
    unfold Db.closed at hopen ⊢
    rw [← hsame]
    exact hopen
  | updateRpm tenant rpm =>
    unfold Db.closed Db.change at hopen
    rw [Table.get?_update] at hopen
    unfold Db.closed
    cases hrow : s.tenants.get? t with
    | none =>
      rw [hrow] at hopen
      exact hopen
    | some row =>
      rw [hrow] at hopen
      have hclosed : (if t = tenant then { row with rateLimitRpm := rpm } else row).closed = false := by
        simpa using hopen
      show row.closed = false
      split at hclosed
      · exact hclosed
      · exact hclosed
  | _ => exact hopen

theorem mem_due {row : Row} {e : Nat} (h : s.granted.get? (t, key) = some row)
    (he : row.expiresAt = some e) (hle : e ≤ s.now) : t ∈ s.due := by
  unfold Db.due
  rw [mem_mergeSort, mem_dedup]
  refine mem_map.2 ⟨(t, key), (Table.mem_matching _ _ _).2 ⟨row, h, ?_⟩, rfl⟩
  rw [he]
  simpa using hle

theorem Db.Followed.step (h : s.Followed) {a : DbAct} (hseen : Seen s a) : (s.step a).Followed := by
  intro t hopen
  unfold Db.step at hopen ⊢
  rw [write_eq] at hopen ⊢
  generalize hs₂ : (if (s.tick a.later).accepts a.write then (s.tick a.later).change a.write else s.tick a.later) = s₂
    at hopen ⊢
  obtain ⟨granted₃, hs₃⟩ := syncAll_eq s₂ ((s.tick a.later).resynced a.write)
  obtain ⟨granted₄, hs₄⟩ := syncAll_eq (s₂.syncAll ((s.tick a.later).resynced a.write))
    (s₂.syncAll ((s.tick a.later).resynced a.write)).due
  have hopen₂ : s₂.closed t = false := by
    unfold Db.syncDue at hopen
    rw [hs₄, hs₃] at hopen
    exact hopen
  have hin : (s₂.tenants.get? t).isSome = true := by
    unfold Db.closed at hopen₂
    cases hrow : s₂.tenants.get? t with
    | none =>
      rw [hrow] at hopen₂
      cases hopen₂
    | some row => rfl
  have hin₃ : ((s₂.syncAll ((s.tick a.later).resynced a.write)).tenants.get? t).isSome = true := by
    rw [hs₃]
    exact hin
  by_cases htouched : t ∈ (s.tick a.later).resynced a.write
  · exact Db.Follows.of_syncAll (Db.Follows.syncAll htouched hin) _
  by_cases hdue : t ∈ (s₂.syncAll ((s.tick a.later).resynced a.write)).due
  · exact Db.Follows.syncAll hdue hin₃
  -- neither: the rows are those of before, and so is the view
  have hgranted₂ : s₂.granted = s.granted := by
    rw [← hs₂]
    split
    · exact granted_change _ _
    · rfl
  have hnow₂ : s₂.now = s.now + a.later := by
    rw [← hs₂]
    split
    · cases a.write <;> rfl
    · rfl
  have hopen₀ : s.closed t = false := by
    rw [← hs₂] at hopen₂
    split at hopen₂
    · next haccepts =>
      refine closed_change (s := s.tick a.later) hopen₂ fun hmem => htouched ?_
      unfold Db.resynced
      rw [if_pos haccepts]
      exact hmem
    · exact hopen₂
  have hrows : ∀ key, (s₂.syncAll ((s.tick a.later).resynced a.write)).granted.get? (t, key) =
      s.granted.get? (t, key) := by
    intro key
    rw [granted_syncAll htouched, hgranted₂]
  have hfollows : s.Follows t := h t hopen₀
  have htick : ∀ key, (s.tick a.later).resolved t key = s.resolved t key := by
    refine resolved_tick hfollows (fun key row hrow e he => ?_) fun key o e ho hoff he hnow => ?_
    · by_contra hle
      refine hdue (mem_due ((hrows key).trans hrow) he ?_)
      rw [hs₃]
      show e ≤ s₂.now
      omega
    · by_contra hle
      rcases hseen.1 t key o e ho hoff he hnow (by omega) with hclosed | hmem
      · rw [hopen₀] at hclosed
        cases hclosed
      · exact htouched hmem
  have hview : ∀ key, s₂.resolved t key = s.resolved t key := by
    intro key
    rw [← hs₂]
    split
    · next haccepts =>
      have hnot : t ∉ (s.tick a.later).touched a.write := by
        unfold Db.resynced at htouched
        rw [if_pos haccepts] at htouched
        exact htouched
      rw [resolved_change (s := s.tick a.later) hopen₀ hnot haccepts (hseen.2 haccepts)
        (fun key' => (hfollows key').trans (by rw [htick key'])) key, htick key]
    · exact htick key
  intro key
  unfold Db.syncDue
  rw [granted_syncAll hdue, hrows key, hfollows key, hs₄, hs₃]
  show _ = (s₂.resolved t key).map Row.shown
  rw [hview key]

theorem followed_empty : empty.Followed := by
  intro t hopen
  cases hopen

/-- **The table follows the resolver** after every write and sweep of a run in which every write's triggers find
the tenants it is about and no disabled override of a tenant that is not synced runs out. -/
theorem entitlements_follow {acts : List DbAct} (hseen : Along Db.step Seen empty acts) :
    Always Db.step Db.Followed empty acts :=
  Along.always (fun s _ (hs : s.Followed) ha => hs.step ha) followed_empty hseen

/-- A feature, a tenant and the plan that gives it the feature. -/
def socialPlan : List DbAct :=
  [⟨0, .insertFeature "content.social" ⟨.content, .flag, none, none⟩⟩, ⟨0, .insertTenant 1 60 false "content.pro"⟩,
    ⟨0, .insertPlanFeature "content.pro" "content.social" none⟩]

/-- The feature is taken away until time 10, and at time 20 something else is written: the view has the
feature again and the table has not. -/
theorem expired_disabled_override_missed : ¬Always Db.step Db.Followed empty
      (socialPlan ++ [⟨0, .insertOverride 1 "content.social" ⟨none, false, some 10⟩⟩,
        ⟨20, .insertTenant 2 60 false "content.pro"⟩]) := by
  intro h
  have hfollows := h.run 1 (by decide +kernel) "content.social"
  revert hfollows
  decide +kernel

theorem seen_of_no_overrides (h : s.overrides.rows.isEmpty = true) {a : DbAct}
    (hwrite : (s.tick a.later).SeenWrite a.write) : Seen s a := by
  refine ⟨fun tenant key o e ho => ?_, fun _ => hwrite⟩
  have := (Table.get?_eq_some_iff _ _ _).1 ho
  rw [List.isEmpty_iff.1 h] at this
  cases this

theorem social_followed : ((run Db.step empty socialPlan).granted.get? (1, "content.social")).isSome = true ∧
      (run Db.step empty socialPlan).Follows 1 := by
  have hseen : Along Db.step Seen empty socialPlan := by
    refine ⟨seen_of_no_overrides rfl fun t hopen => ?_, seen_of_no_overrides (by decide +kernel) trivial,
      seen_of_no_overrides (by decide +kernel) trivial, trivial⟩
    cases hopen
  exact ⟨by decide +kernel, (entitlements_follow hseen).run 1 (by decide +kernel)⟩

end CisApp.Entitlements
