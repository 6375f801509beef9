import CisApp.Policy.Paths

/-!
# The data policy of a stage

`Compliant u d`: the request `d` keeps the two rules of the stage of `u`, personal
data only where `piiAllows` says, and only the data scopes of `allowed_scopes`.

The plan, the pin, the alias steps, the vendor row and the OpenAI gate read both
rules; the hard-coded chain and the Converse fallback of the catalog refuse
personal data but read no scope.  So every request of every run is compliant
exactly when these two paths end in an allowed scope (`UnplannedAllowed`),
unless there are no scopes to keep or the stage is personal: `dataPolicy_iff`.
For the converse, `down` is a world in which every provider fails, and every
tier is then sent.
-/

namespace CisApp.Policy

open Lib List

/-- The two rules of the stage. -/
structure Compliant (u : Setup) (d : Dispatch) : Prop where
  pii : ∀ row, u.stage = some row → row.piiClass.personal = true →
    ∃ c, d.connection = some c ∧ piiAllows row.piiClass c.dataScope d.wire c.region c.kind = true
  scopes : ∀ row allowed, u.stage = some row → row.allowedScopes = some allowed →
    ∃ c, d.connection = some c ∧ c.dataScope ∈ allowed

def Reaches (u : Setup) (allowed : List DataScope) (key : String) : Prop :=
  ∃ c, u.registry.connectionOrBuiltin key = some c ∧ c.dataScope ∈ allowed

/-- The paths that read no scope end in an allowed one: the satellite of the hard-coded
chain (and acc2 where it is switched on) if a Bedrock key takes it, and the account
of every model the Converse fallback can be reached for. -/
structure UnplannedAllowed (u : Setup) (allowed : List DataScope) : Prop where
  chain : ∀ tier, tier ≠ .gpt41 → u.chained tier = true →
    Reaches u allowed defaultSatelliteAccount ∧
      (u.switches.acc2Native = true → Reaches u allowed acc2ConnectionKey)
  converse : ∀ key m account, keyOf key = .catalog key → u.registry.catalog key = some m →
    FallsBack u u.bound m → m.accountFor u.registry defaultSatelliteAccount = some account →
    account ≠ acc2ConnectionKey → Reaches u allowed account

/-! ## The stage's scopes -/

theorem mem_normalize {allowed : List DataScope} (hne : allowed ≠ []) {scope : DataScope} :
    scope ∈ normalize allowed ↔ scope ∈ allowed := by
  have hall : ∀ s : DataScope, s ∈ dataScopes := by
    intro s
    cases s <;> decide
  have hmem : ∀ s, s ∈ dataScopes.filter (· ∈ allowed) ↔ s ∈ allowed := by
    intro s
    simp [mem_filter, hall s]
  have hknown : dataScopes.filter (· ∈ allowed) ≠ [] := by
    obtain ⟨s, hs⟩ := exists_mem_of_ne_nil allowed hne
    exact ne_nil_of_mem ((hmem s).2 hs)
  unfold normalize
  rw [if_neg hknown]
  exact hmem scope

section

variable {u : Setup} {row : StageRow} {allowed : List DataScope}

theorem bound_pii (hu : u.stage = some row) : u.bound.pii = row.piiClass := by
  simp [Setup.bound, hu]

theorem bound_allows (hu : u.stage = some row) (ha : row.allowedScopes = some allowed)
    (scope : DataScope) : allows u.bound.scopes scope = true ↔ scope ∈ allowed := by
  have hne : allowed ≠ [] := fun h => row.nonempty (by rw [ha, h])
  simp [Setup.bound, hu, ha, allows, mem_normalize hne]

theorem allowed_of_within {b : Bound} (hu : u.stage = some row)
    (ha : row.allowedScopes = some allowed) (hb : Within u.bound b) {scope : DataScope}
    (h : allows b.scopes scope = true) : scope ∈ allowed := by
  rcases hb with rfl | ⟨-, hall⟩
  · exact (bound_allows hu ha scope).1 h
  · exact (bound_allows hu ha scope).1 (hall scope)

theorem pii_of_within {b : Bound} (hu : u.stage = some row) (hb : Within u.bound b) : b.pii = row.piiClass := by
  rcases hb with rfl | ⟨hpii, -⟩
  · exact bound_pii hu
  · rw [hpii, bound_pii hu]

/-! ## Accounts are connections -/

theorem connectionOrBuiltin_isSome {g : Registry} {key : String}
    (h : (g.connection key).isSome ∨ (builtin key).isSome) : (g.connectionOrBuiltin key).isSome := by
  unfold Registry.connectionOrBuiltin
  cases hc : g.connection key with
  | none =>
    rw [hc] at h
    simpa using h
  | some c =>
    cases builtin key with
    | none => rfl
    | some mirror => by_cases hp : c.policyProblems ≠ [] <;> simp [hp]

theorem bedrockConnectionKeys_isSome {g : Registry} {key : String}
    (h : key ∈ g.bedrockConnectionKeys) : (g.connectionOrBuiltin key).isSome := by
  obtain ⟨c, hc, rfl⟩ := mem_map.1 h
  have hrow := (mem_filter.1 ((sortBy_perm _ _).mem_iff.1 hc)).1
  refine connectionOrBuiltin_isSome ?_
  rcases mem_append.1 hrow with hb | hg
  · refine .inr (List.find?_isSome.2 ⟨c, (mem_filter.1 hb).1, ?_⟩)
    exact decide_eq_true rfl
  · refine .inl (List.find?_isSome.2 ⟨c, hg, ?_⟩)
    exact decide_eq_true rfl

theorem accountFor_mem {g : Registry} {m : CatalogModel} {preferred account : String}
    (h : m.accountFor g preferred = some account) : account ∈ g.bedrockConnectionKeys := by
  unfold CatalogModel.accountFor at h
  simp only at h
  split at h
  · next hp =>
    cases h
    exact hp.1
  · exact List.mem_of_find?_eq_some h

theorem mem_legacyTiers {tier : LegacyTier} {key wire : String} (h : (key, wire) ∈ legacyTiers u tier) :
    key = defaultSatelliteAccount ∨ (key = acc2ConnectionKey ∧ u.switches.acc2Native = true) := by
  unfold legacyTiers at h
  by_cases ha : u.switches.acc2Native = true
  · by_cases ht : tier = .sonnet <;> simp [ha, ht] at h <;> grind
  · by_cases ht : tier = .sonnet <;> simp [ha, ht] at h <;> grind

/-! ## The paths keep the policy -/

theorem compliant_of_kept {b : Bound} {t : Target} (hb : Within u.bound b) (ht : Kept b t) :
    Compliant u ⟨some t.connection, some t.deployment.wireId⟩ := by
  constructor
  · intro row hu _
    refine ⟨t.connection, rfl, ?_⟩
    rw [← pii_of_within hu hb]
    exact ht.pii
  · intro row allowed hu ha
    exact ⟨t.connection, rfl, allowed_of_within hu ha hb ht.scope⟩

theorem compliant_of_content {b : Bound} {d : Dispatch} (hb : Within u.bound b) (hpii : b.pii.personal = false)
    (h : ∀ row allowed, u.stage = some row → row.allowedScopes = some allowed →
      row.piiClass.personal = false → ∃ c, d.connection = some c ∧ c.dataScope ∈ allowed) : Compliant u d := by
  have hcontent : ∀ row, u.stage = some row → row.piiClass.personal = false := by
    intro row hu
    rw [← pii_of_within hu hb]
    exact hpii
  constructor
  · intro row hu hp
    rw [hcontent row hu] at hp
    cases hp
  · intro row allowed hu ha
    exact h row allowed hu ha (hcontent row hu)

theorem compliant_of_made {b : Bound} {d : Dispatch} (hb : Within u.bound b) (hd : Made u b d)
    (h : ∀ row allowed, u.stage = some row → row.allowedScopes = some allowed →
      row.piiClass.personal = false → UnplannedAllowed u allowed) : Compliant u d := by
  cases hd with
  | kept t ht => exact compliant_of_kept hb ht
  | checked c wire hpii hc =>
    refine compliant_of_content hb hpii fun row allowed hu ha _ => ?_
    exact ⟨c, rfl, allowed_of_within hu ha hb hc⟩
  | tier tier key wire hpii hne hchain hmem =>
    refine compliant_of_content hb hpii fun row allowed hu ha hp => ?_
    obtain ⟨hacc3, hacc2⟩ := (h row allowed hu ha hp).chain tier hne hchain
    rcases mem_legacyTiers hmem with rfl | ⟨rfl, hon⟩
    · exact hacc3
    · exact hacc2 hon
  | converse key m account hpii hkey hm hfall hacc hne =>
    refine compliant_of_content hb hpii fun row allowed hu ha hp => ?_
    rcases hb with rfl | ⟨-, hall⟩
    · exact (h row allowed hu ha hp).converse key m account hkey hm hfall hacc hne
    · -- a narrowed pass: the stage allows every scope
      obtain ⟨c, hc⟩ := Option.isSome_iff_exists.1 (bedrockConnectionKeys_isSome (accountFor_mem hacc))
      exact ⟨c, hc, (bound_allows hu ha c.dataScope).1 (hall c.dataScope)⟩

end

/-! ## A world that is down -/

/-- Every provider fails; `spent` says when a budget is reached. -/
def down (spent : Nat → Bool) : World where
  refuses _ := false
  circuit _ _ _ := none
  overBudget n _ := spent n
  blocked _ _ := false
  late _ := false
  reply _ := .failed
  conforms _ := false
  cut _ := false
  sampled _ := false

def Gate.kept (s : Gate) : Nat × List Dispatch := (s.attempts, s.sent)

section

variable {u : Setup} {w : World} {b : Bound}

theorem question_answers {α : Type} (f : Nat → α) : Answers Gate.kept (fun _ => True) (question f) :=
  fun s => ⟨f s.asked, { s with asked := s.asked + 1 }, rfl, rfl, trivial⟩

theorem stops_answers (c : Connection) : Answers Gate.kept (fun _ => True) (stops w c) := by
  exact Answers.ite (fun _ => question_answers _) fun _ => Answers.pure trivial

/-! ## Where the chain is taken -/

theorem deploymentPlan_answers (m : CatalogModel) :
    Answers Gate.kept (fun plan => described u.registry m = false → plan = none) (deploymentPlan u w m b) := by
  refine Answers.ite (fun _ => Answers.pure fun _ => rfl) fun hd => ?_
  refine Answers.bind (Q := fun _ => True) ?_ fun plan _ => Answers.pure fun h => ?_
  · refine Answers.foldlM _ _ fun plan t _ => ?_
    refine (question_answers _).bind fun cls _ => ?_
    cases cls with
    | some cls => exact Answers.pure trivial
    | none =>
      refine (stops_answers _).bind fun _ _ => ?_
      exact Answers.ite (fun _ => Answers.pure trivial) fun _ => Answers.pure trivial
  · simp [h] at hd

theorem aliasStep_answers (steps : Option (List (CatalogModel × Target))) (key : String) :
    Answers Gate.kept (fun r => steps = none ∨ u.blocksAlias key = true → r = none) (aliasStep u w b steps key) := by
  unfold aliasStep
  cases steps with
  | none => exact Answers.pure fun _ => rfl
  | some steps =>
    cases hm : u.registry.catalog key with
    | none => exact Answers.pure fun _ => rfl
    | some m =>
      refine Answers.ite (fun he => Answers.pure fun h => ?_) fun _ => ?_
      · simp [Setup.blocksAlias, hm] at h he
        rw [he] at h
        cases h.1
      · refine (deploymentPlan_answers m).bind fun plan hplan => ?_
        cases plan with
        | none => exact Answers.pure fun _ => rfl
        | some plan =>
          refine Answers.pure fun h => ?_
          simp [Setup.blocksAlias, hm] at h
          cases hplan h.2

theorem aliasFold_answers (keys : List String) (steps : Option (List (CatalogModel × Target))) :
    Answers Gate.kept (fun r => steps = none ∨ keys.any u.blocksAlias = true → r = none)
      (keys.foldlM (aliasStep u w b) steps) := by
  induction keys generalizing steps with
  | nil => exact Answers.pure fun h => by simpa using h
  | cons key keys ih =>
    refine (aliasStep_answers steps key).bind fun steps' hsteps => ?_
    intro s
    obtain ⟨r, s', hr, hk, hnone⟩ := ih steps' s
    refine ⟨r, s', hr, hk, fun h => hnone ?_⟩
    rw [any_cons, Bool.or_eq_true] at h
    rcases h with h | h | h
    · exact .inl (hsteps (.inl h))
    · exact .inl (hsteps (.inr h))
    · exact .inr h

theorem stepsOf_answers {tier : LegacyTier} (h : u.chained tier = true) :
    Answers Gate.kept (fun r => r = none) (stepsOf u w b tier) := by
  refine Answers.ite (fun hal => ?_) fun _ => Answers.pure rfl
  refine Answers.ite (fun _ => Answers.pure rfl) fun hna => ?_
  refine Answers.ite (fun _ => Answers.pure rfl) fun hne => ?_
  intro s
  obtain ⟨r, s', hr, hk, hnone⟩ := aliasFold_answers (u := u) (w := w) (b := b)
    (u.registry.aliases tier.key) (some []) s
  refine ⟨r, s', hr, hk, hnone (.inr ?_)⟩
  simp only [not_or] at hna
  simpa [Setup.chained, hal, hna.2, hne] using h

/-! ## Runs of a world that is down -/

variable {spent : Nat → Bool}

theorem deadlineGate_down (spent : Nat → Bool) (later : Bool) :
    Answers Gate.kept (fun _ => True) (deadlineGate (down spent) later) := by
  intro s
  cases later with
  | false => exact ⟨(), s, rfl, rfl, trivial⟩
  | true => exact ⟨(), { s with asked := s.asked + 1 }, rfl, rfl, trivial⟩

theorem stops_down (c : Connection) (s : Gate) :
    exec (stops (down spent) c) s =
      (.ok (c.monthlyBudget && spent s.asked),
        { s with asked := if c.monthlyBudget then s.asked + 1 else s.asked }) := by
  unfold stops
  by_cases hb : c.monthlyBudget = true
  · rw [if_pos hb, hb]
    rfl
  · rw [if_neg hb, Bool.eq_false_iff.2 hb]
    rfl

theorem budgetCheck_down (key : String) {s : Gate} (h : spent s.asked = false) :
    ∃ s', exec (budgetCheck u (down spent) key) s = (.ok (), s') ∧ s'.kept = s.kept := by
  unfold budgetCheck
  cases u.registry.connection key with
  | none => exact ⟨s, rfl, rfl⟩
  | some c =>
    refine ⟨{ s with asked := if c.monthlyBudget then s.asked + 1 else s.asked }, ?_, rfl⟩
    simp only [exec_bind, stops_down, h, Bool.and_false]
    rfl

theorem guarded_down (spent : Nat → Bool) (c : Option Connection) (call : GateM Unit) (s : Gate) :
    ∃ s', exec (guarded (down spent) c call) s = exec call s' ∧ s'.kept = s.kept := by
  cases c with
  | none => exact ⟨s, rfl, rfl⟩
  | some c => exact ⟨{ s with asked := s.asked + 1 }, rfl, rfl⟩

theorem attempt_down (u : Setup) (spent : Nat → Bool) (key : String) (c : Option Connection)
    (d : Dispatch) {s : Gate} (hs : s.attempts < maxChainAttempts) (h : spent s.asked = false) :
    ∃ s', exec (attempt (do
        budgetCheck u (down spent) key
        guarded (down spent) c (send (down spent) d))) s = (.error .other, s') ∧
      s'.attempts = s.attempts + 1 ∧ s'.sent = s.sent ++ [d] := by
  rw [exec_attempt, if_neg (by omega)]
  obtain ⟨s1, h1, hk1⟩ := budgetCheck_down (u := u) key
    (s := { s with attempts := s.attempts + 1 }) h
  obtain ⟨s2, h2, hk2⟩ := guarded_down spent c (send (down spent) d) s1
  have hk : s2.kept = (s.attempts + 1, s.sent) := hk2.trans hk1
  refine ⟨{ s2 with asked := s2.asked + 1, sent := s2.sent ++ [d] }, ?_, ?_, ?_⟩
  · rw [exec_bind, h1]
    exact h2
  · exact congrArg Prod.fst hk
  · show s2.sent ++ [d] = _
    rw [show s2.sent = s.sent from congrArg Prod.snd hk]

theorem legacyTier_down (key : String) (d : Dispatch) {s : Gate}
    (hs : s.attempts < maxChainAttempts) :
    ∃ s', exec (legacyTier u (down fun _ => false) key (send (down fun _ => false) d)) s =
        (.error .other, s') ∧
      s'.attempts = s.attempts + 1 ∧ s'.sent = s.sent ++ [d] := by
  obtain ⟨-, s1, h1, hk1, -⟩ := (deadlineGate_down (fun _ => false)
    (0 < s.attempts)).andThen (fun _ => attempt (do
      budgetCheck u (down fun _ => false) key
      guarded (down fun _ => false) (u.registry.connectionOrBuiltin key)
        (send (down fun _ => false) d))) s
  have ha : s1.attempts = s.attempts := congrArg Prod.fst hk1
  obtain ⟨s2, h2, ha2, hs2⟩ := attempt_down u (fun _ => false) key
    (u.registry.connectionOrBuiltin key) d (s := s1) (by omega) rfl
  refine ⟨s2, h1.trans h2, by omega, ?_⟩
  rw [hs2, show s1.sent = s.sent from congrArg Prod.snd hk1]

theorem runTiers_down (tiers : List (String × String)) (s : Gate)
    (hs : s.attempts + tiers.length ≤ maxChainAttempts) (x : String × String) (hx : x ∈ tiers)
    (hmade : ∀ y ∈ tiers, Made u b ⟨u.registry.connectionOrBuiltin y.1, some y.2⟩) :
    ⟨u.registry.connectionOrBuiltin x.1, some x.2⟩ ∈ (exec (runTiers u (down fun _ => false) b tiers) s).2.sent := by
  induction tiers generalizing s with
  | nil => cases hx
  | cons y rest ih =>
    rw [length_cons] at hs
    have hrest : ∀ z ∈ rest, Made u b ⟨u.registry.connectionOrBuiltin z.1, some z.2⟩ :=
      fun z hz => hmade z (mem_cons_of_mem _ hz)
    obtain ⟨s1, h1, ha1, hs1⟩ := legacyTier_down (u := u) y.1
      ⟨u.registry.connectionOrBuiltin y.1, some y.2⟩ (s := s) (by omega)
    have hrun : exec (runTiers u (down fun _ => false) b (y :: rest)) s =
        exec (runTiers u (down fun _ => false) b rest) s1 := by
      conv_lhs => unfold runTiers
      rw [exec_tryCatch, h1]
    rw [hrun]
    rcases mem_cons.1 hx with rfl | hx
    · -- sent before the rest of the chain
      refine (runTiers_emits rest hrest).grows s1 ?_
      rw [hs1]
      exact mem_append_right _ mem_cons_self
    · exact ih s1 (by omega) hx hrest

/-! ## Requests that reach the unplanned paths -/

def requestFor (key : String) : Request := { modelTier := some key, modelId := key }

theorem mem_dispatches_key {key : String} {d : Dispatch}
    (hd : d ∈ (exec (callKey u (down spent) (requestFor key) u.bound key none) { asked := 1 }).2.sent) :
    d ∈ dispatches u (down spent) (requestFor key) := by
  have honce : d ∈ (exec (callKeyOnce u (down spent) (requestFor key) u.bound key none 0 false)
      { asked := 1 }).2.sent := by
    exact hd
  have hlogged : d ∈ (exec (callKeyLogged u (down spent) (requestFor key) u.bound key none 0 false)
      { asked := 1 }).2.sent := by
    refine Emits.mem_bind ?_ fun failed => retryCut_emits key 0 false failed
    refine Emits.mem_tryCatch (P := fun _ => True) (Q := fun _ => True) ?_
      fun _ => Emits.pure trivial
    exact Emits.mem_bind (P := fun _ => True) (Q := fun _ => True) honce fun _ => Emits.pure trivial
  show d ∈ (exec (do
    callChain u (down spent) (requestFor key) u.bound [key]
    shadowStep u (down spent) (requestFor key) u.bound) { asked := 1 }).2.sent
  exact Emits.mem_bind hlogged fun _ => shadowStep_emits

theorem keyOf_legacy (tier : LegacyTier) : keyOf tier.key = .legacy tier := by
  cases tier <;> decide

theorem length_legacyTiers (tier : LegacyTier) : (legacyTiers u tier).length ≤ maxChainAttempts := by
  unfold legacyTiers maxChainAttempts
  by_cases ha : u.switches.acc2Native = true
  · by_cases ht : tier = .sonnet <;> simp [ha, ht]
  · by_cases ht : tier = .sonnet <;> simp [ha, ht]

theorem legacyTiers_dispatched {tier : LegacyTier} (hne : tier ≠ .gpt41)
    (hchain : u.chained tier = true) (hpii : u.bound.pii.personal = false)
    {x : String × String} (hx : x ∈ legacyTiers u tier) : ⟨u.registry.connectionOrBuiltin x.1, some x.2⟩ ∈
      dispatches u (down fun _ => false) (requestFor tier.key) := by
  refine mem_dispatches_key ?_
  have hcall : callKey u (down fun _ => false) (requestFor tier.key) u.bound tier.key none =
      legacyCall u (down fun _ => false) u.bound tier := by
    unfold callKey
    rw [keyOf_legacy]
    exact if_neg (by simp [requestFor])
  rw [hcall]
  unfold legacyCall
  obtain ⟨steps, s, hs, hk, rfl⟩ := stepsOf_answers (w := down fun _ => false) (b := u.bound)
    hchain { asked := 1 }
  simp only [exec_bind, hs, hpii]
  have hrun : legacyChain u (down fun _ => false) u.bound tier =
      runTiers u (down fun _ => false) u.bound (legacyTiers u tier) := by
    cases tier with
    | haiku => rfl
    | sonnet => rfl
    | gpt41 => exact absurd rfl hne
  have ha : s.attempts = 0 := congrArg Prod.fst hk
  have hlen := length_legacyTiers (u := u) tier
  rw [if_neg (by decide), hrun]
  exact runTiers_down (legacyTiers u tier) s (by omega) x hx fun y hy =>
    Made.tier tier y.1 y.2 hpii hne hchain hy

/-- The vendor row of a model that falls back is over its budget when it is asked for. -/
def overFirst (u : Setup) (m : CatalogModel) (n : Nat) : Bool :=
  n = 1 && (vendorRow u.registry m u.bound).isSome

variable {m : CatalogModel}

theorem vendorDeploymentFor_down (h : FallsBack u u.bound m) :
    ∃ s', exec (vendorDeploymentFor u (down (overFirst u m)) m u.bound) { asked := 1 } =
        (.ok none, s') ∧ s'.kept = (0, []) ∧ overFirst u m s'.asked = false := by
  unfold vendorDeploymentFor
  cases hv : vendorRow u.registry m u.bound with
  | none => exact ⟨{ asked := 1 }, rfl, rfl, by simp [overFirst, hv]⟩
  | some t =>
    refine ⟨{ asked := 2 }, ?_, rfl, by simp [overFirst]⟩
    simp only [exec_bind, stops_down, h.vendor t hv]
    simp [overFirst, hv]

theorem planOf_unplanned (h : u.planned m = false) (s : Gate) : exec (planOf u w b m none) s = (.ok none, s) := by
  unfold planOf deploymentPlan
  by_cases hr : u.switches.deploymentRouting = true
  · simp only [Setup.planned, hr, Bool.true_and] at h
    simp [hr, h]
  · simp [hr]

theorem converse_dispatched {key account : String} {m : CatalogModel}
    (hkey : keyOf key = .catalog key) (hm : u.registry.catalog key = some m)
    (hfall : FallsBack u u.bound m)
    (hacc : m.accountFor u.registry defaultSatelliteAccount = some account)
    (hne : account ≠ acc2ConnectionKey) (hpii : u.bound.pii.personal = false) :
    ⟨u.registry.connectionOrBuiltin account, m.bedrockProfileIds.lookup account⟩ ∈
      dispatches u (down (overFirst u m)) (requestFor key) := by
  refine mem_dispatches_key ?_
  have hcall : callKey u (down (overFirst u m)) (requestFor key) u.bound key none =
      callModel u (down (overFirst u m)) u.bound m none := by
    unfold callKey callCatalogModel
    simp only [hkey, hm, hfall.enabled]
    rfl
  obtain ⟨s, hs, hk, hspent⟩ := vendorDeploymentFor_down hfall
  have hrun : exec (callModel u (down (overFirst u m)) u.bound m none) { asked := 1 } =
      exec (converseFallback u (down (overFirst u m)) m) s := by
    unfold callModel callUnplanned
    simp only [exec_bind, planOf_unplanned hfall.unplanned, hpii, hfall.converse]
    rw [if_neg (by decide), exec_bind, hs]
  have ha : s.attempts = 0 := congrArg Prod.fst hk
  obtain ⟨s', h1, -, hsent⟩ := attempt_down u (overFirst u m) account
    (u.registry.connectionOrBuiltin account)
    ⟨u.registry.connectionOrBuiltin account, m.bedrockProfileIds.lookup account⟩ (s := s)
    (by rw [ha]; decide) hspent
  rw [hcall, hrun]
  unfold converseFallback
  simp only [hacc, if_neg hne, h1, hsent]
  exact mem_append_right _ mem_cons_self

/-! ## When every request keeps the policy -/

theorem unplannedAllowed_of_compliant {row : StageRow} {allowed : List DataScope}
    (h : ∀ q w, ∀ d ∈ dispatches u w q, Compliant u d) (hu : u.stage = some row)
    (ha : row.allowedScopes = some allowed) (hp : row.piiClass.personal = false) : UnplannedAllowed u allowed := by
  have hpii : u.bound.pii.personal = false := by rw [bound_pii hu, hp]
  have htier : ∀ tier, tier ≠ .gpt41 → u.chained tier = true → ∀ x ∈ legacyTiers u tier,
      Reaches u allowed x.1 := fun tier hne hchain x hx =>
    (h _ _ _ (legacyTiers_dispatched hne hchain hpii hx)).scopes row allowed hu ha
  constructor
  · intro tier hne hchain
    refine ⟨htier tier hne hchain (defaultSatelliteAccount, profileIdHaiku) ?_, fun hon => ?_⟩
    · simp [legacyTiers]
    · exact htier tier hne hchain (acc2ConnectionKey, bedrockHaiku) (by simp [legacyTiers, hon])
  · intro key m account hkey hm hfall hacc hne
    exact (h _ _ _ (converse_dispatched hkey hm hfall hacc hne hpii)).scopes row allowed hu ha

end

/-- Every request of every run keeps the policy of the stage exactly when the paths that
read no scope end in an allowed one; a stage without scopes and a personal one ask for
nothing. -/
theorem dataPolicy_iff (u : Setup) : (∀ q w, ∀ d ∈ dispatches u w q, Compliant u d) ↔
      ∀ row allowed, u.stage = some row → row.allowedScopes = some allowed →
        row.piiClass.personal = false → UnplannedAllowed u allowed := by
  constructor
  · intro h row allowed hu ha hp
    exact unplannedAllowed_of_compliant h hu ha hp
  · intro h q w d hd
    obtain ⟨b, hb, hmade⟩ := dispatches_made u w q d hd
    exact compliant_of_made hb hmade h

/-- A stage whose content may go to a vendor only. -/
def vendorOnly : Setup where
  stage := some ⟨some [.vendorDirect], .content, some "writer", by decide⟩
  registry := ⟨[], fun _ => [], fun _ => none, fun _ => []⟩
  switches := {}

/-- The legacy key of such a stage is sent to the satellite account. -/
theorem vendorOnly_haiku_dispatched :
    ∃ d ∈ dispatches vendorOnly (down fun _ => false) (requestFor "haiku"), ¬ Compliant vendorOnly d := by
  refine ⟨⟨builtin "acc3", some profileIdHaiku⟩, by decide +kernel, fun h => ?_⟩
  obtain ⟨c, hc, hscope⟩ := h.scopes _ _ rfl rfl
  cases hc
  revert hscope
  decide

end CisApp.Policy
