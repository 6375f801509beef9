import CisApp.Policy.Client

/-!
# The paths of a provider request

`Made u b d` says what a provider request under the policy `b` can be: a target
that passed both filters of the data policy (a plan, a pin, an alias step), a
vendor row or an OpenAI call whose scope was checked, a tier of the hard-coded
chain, or the Converse fallback of the catalog.  The last two are where no
scope is read.

`dispatches_made`: every request of a run of `generate` is one of these, under
the policy of the stage or one an AWS-first pass narrowed.
-/

namespace CisApp.Policy

open Lib List

/-! ## What a request can be -/

/-- The target passed the two filters of the data policy. -/
structure Kept (b : Bound) (t : Target) : Prop where
  pii : piiAllows b.pii t.connection.dataScope (some t.deployment.wireId) t.connection.region
    t.connection.kind = true
  scope : allows b.scopes t.connection.dataScope = true

/-- A target the catalog or the registry does not describe. -/
def Setup.blocksAlias (u : Setup) (key : String) : Bool :=
  match u.registry.catalog key with
  | none => true
  | some m => m.enabled && !described u.registry m

/-- The hard-coded chain runs for the key: the aliases are off, or cannot be used. -/
def Setup.chained (u : Setup) (tier : LegacyTier) : Bool :=
  !u.switches.legacyAliases || u.switches.acc2Native || (u.registry.aliases tier.key).isEmpty ||
    (u.registry.aliases tier.key).any u.blocksAlias

def Setup.planned (u : Setup) (m : CatalogModel) : Bool :=
  u.switches.deploymentRouting && described u.registry m

/-- The Converse fallback can be reached: no plan, and no vendor row that is always
used first. -/
structure FallsBack (u : Setup) (b : Bound) (m : CatalogModel) : Prop where
  enabled : m.enabled = true
  converse : m.apiStyle = .converse
  unplanned : u.planned m = false
  vendor : ∀ t, vendorRow u.registry m b = some t → t.connection.monthlyBudget = true

inductive Made (u : Setup) (b : Bound) : Dispatch → Prop where
  | kept (t : Target) (h : Kept b t) : Made u b ⟨some t.connection, some t.deployment.wireId⟩
  | checked (c : Connection) (wire : String) (hpii : b.pii.personal = false)
      (h : allows b.scopes c.dataScope = true) : Made u b ⟨some c, some wire⟩
  | tier (tier : LegacyTier) (key wire : String) (hpii : b.pii.personal = false)
      (hne : tier ≠ .gpt41) (hchain : u.chained tier = true) (h : (key, wire) ∈ legacyTiers u tier) :
      Made u b ⟨u.registry.connectionOrBuiltin key, some wire⟩
  | converse (key : String) (m : CatalogModel) (account : String) (hpii : b.pii.personal = false)
      (hkey : keyOf key = .catalog key) (hm : u.registry.catalog key = some m)
      (h : FallsBack u b m) (hacc : m.accountFor u.registry defaultSatelliteAccount = some account)
      (hne : account ≠ acc2ConnectionKey) :
      Made u b ⟨u.registry.connectionOrBuiltin account, m.bedrockProfileIds.lookup account⟩

/-! ## Candidates -/

theorem keeps_kept {b : Bound} {before : List Target} {t : Target} (h : keeps b before t = true) : Kept b t := by
  unfold keeps at h
  rw [Bool.and_eq_true, Bool.and_eq_true] at h
  refine ⟨h.1.2, ?_⟩
  have hs := h.2
  unfold allows
  cases hb : b.scopes with
  | none => rfl
  | some scopes => simpa [hb] using hs

theorem candidates_kept {b : Bound} {rows : List Target} : ∀ t ∈ candidates b rows, Kept b t := by
  have hfold : ∀ (l before : List Target), (∀ t ∈ before, Kept b t) →
      ∀ t ∈ l.foldl (fun before t => if keeps b before t then before ++ [t] else before) before,
        Kept b t := by
    intro l
    induction l with
    | nil => exact fun before h => h
    | cons a l ih =>
      intro before hbefore
      rw [foldl_cons]
      refine ih _ ?_
      by_cases ha : keeps b before a = true
      · rw [if_pos ha]
        intro t ht
        rcases List.mem_append.1 ht with ht | ht
        · exact hbefore t ht
        · rw [List.mem_singleton.1 ht]
          exact keeps_kept ha
      · rw [if_neg ha]
        exact hbefore
  exact hfold rows [] fun t ht => by cases ht

theorem vendorRow_allows {g : Registry} {m : CatalogModel} {b : Bound} {t : Target}
    (h : vendorRow g m b = some t) : allows b.scopes t.connection.dataScope = true := by
  have hf := (Option.filter_eq_some_iff.1 h).2
  rw [Bool.and_eq_true] at hf
  exact hf.2

theorem pinned_kept {g : Registry} {m : CatalogModel} {key : String} {b : Bound} {t : Target}
    (h : pinnedDeployment g m key b = some t) : Kept b t := by
  unfold pinnedDeployment at h
  split at h
  · have hf := (Option.filter_eq_some_iff.1 h).2
    rw [Bool.and_eq_true] at hf
    exact ⟨hf.2, hf.1⟩
  · cases h

/-! ## Single steps -/

section

variable {P : Dispatch → Prop} {α : Type} {u : Setup} {w : World} {b : Bound}

theorem question_emits (f : Nat → α) : Emits Gate.sent P (fun _ => True) (question f) :=
  Emits.of_silent (fun _ => rfl) fun _ _ _ => trivial

theorem exec_attempt (call : GateM Unit) (s : Gate) :
    exec (attempt call) s =
      if maxChainAttempts ≤ s.attempts then (.error .deadline, s)
      else exec call { s with attempts := s.attempts + 1 } := by
  show exec (if maxChainAttempts ≤ s.attempts then _ else _) s = _
  by_cases hs : maxChainAttempts ≤ s.attempts
  · rw [if_pos hs, if_pos hs]
    rfl
  · rw [if_neg hs, if_neg hs]
    rfl

variable {call : GateM Unit}

theorem attempt_emits (h : Emits Gate.sent P (fun _ => True) call) : Emits Gate.sent P (fun _ => True) (attempt call) := by
  intro s
  rw [exec_attempt]
  by_cases hs : maxChainAttempts ≤ s.attempts
  · rw [if_pos hs]
    exact ⟨⟨[], (append_nil _).symm, nofun⟩, fun _ _ => trivial⟩
  · rw [if_neg hs]
    exact h { s with attempts := s.attempts + 1 }

theorem send_emits {d : Dispatch} (hd : P d) : Emits Gate.sent P (fun _ => True) (send w d) := by
  have hlog : Emits Gate.sent P (fun _ => True)
      (modify fun s : Gate => { s with sent := s.sent ++ [d] } : GateM Unit) := by
    intro s
    refine ⟨⟨[d], rfl, fun e he => ?_⟩, fun _ _ => trivial⟩
    rw [mem_singleton.1 he]
    exact hd
  refine (question_emits w.reply).bind fun reply _ => ?_
  cases reply with
  | notSent => exact Emits.throw _
  | failed => exact hlog.bind fun _ _ => Emits.throw _
  | unusable => exact hlog.bind fun _ _ => Emits.throw _
  | answered => exact hlog.bind fun _ _ => Emits.pure trivial

theorem guarded_emits {c : Option Connection} (h : Emits Gate.sent P (fun _ => True) call) :
    Emits Gate.sent P (fun _ => True) (guarded w c call) := by
  cases c with
  | none => exact h
  | some c =>
    exact (question_emits _).bind fun _ _ => Emits.ite (fun _ => Emits.throw _) fun _ => h

theorem deadlineGate_emits (later : Bool) : Emits Gate.sent P (fun _ => True) (deadlineGate w later) := by
  exact Emits.ite
    (fun _ => (question_emits _).bind fun _ _ =>
      Emits.ite (fun _ => Emits.throw _) fun _ => Emits.pure trivial)
    fun _ => Emits.pure trivial

theorem stops_emits (c : Connection) :
    Emits Gate.sent P (fun spent => spent = true → c.monthlyBudget = true) (stops w c) := by
  refine Emits.ite (fun hc => ?_) fun _ => Emits.pure nofun
  exact (question_emits _).mono (fun _ h => h) fun _ _ _ => hc

theorem budgetCheck_emits (key : String) : Emits Gate.sent P (fun _ => True) (budgetCheck u w key) := by
  unfold budgetCheck
  cases u.registry.connection key with
  | none => exact Emits.pure trivial
  | some c =>
    exact (stops_emits c).bind fun _ _ =>
      Emits.ite (fun _ => Emits.throw _) fun _ => Emits.pure trivial

/-! ## Adapters and plans -/

theorem callOpenai_emits (label wire : String) (c : Option Connection) :
    Emits Gate.sent (Made u b) (fun _ => True) (callOpenai u w b label wire c) := by
  refine Emits.ite (fun _ => Emits.throw _) fun _ => ?_
  refine Emits.ite (fun _ => Emits.throw _) fun hpii => ?_
  refine Emits.ite (fun _ => Emits.throw _) fun hscope => ?_
  cases hc : (c.orElse fun _ => u.registry.connectionOrBuiltin openaiConnectionKey) with
  | none => exact Emits.throw _
  | some c' =>
    rw [hc] at hscope
    refine send_emits (Made.checked c' wire (by simpa using hpii) ?_)
    simpa [openaiScopeAllowed, openaiDataScope] using hscope

theorem dispatchTarget_emits (m : CatalogModel) {t : Target} (ht : Kept b t) :
    Emits Gate.sent (Made u b) (fun _ => True) (dispatchTarget u w b m t) := by
  unfold dispatchTarget
  have hsend := send_emits (w := w) (Made.kept (u := u) t ht)
  cases t.connection.kind with
  | anthropic => exact hsend
  | openai => exact callOpenai_emits _ _ _
  | azureOpenai => exact callOpenai_emits _ _ _
  | bedrockGuardrails => exact Emits.throw _
  | mock => exact Emits.throw _
  | bedrock =>
    cases t.deployment.apiStyle.getD m.apiStyle with
    | converse => exact hsend
    | anthropicNative => exact Emits.ite (fun _ => hsend) fun _ => Emits.throw _
    | anthropicMessages => exact Emits.throw _
    | openaiChat => exact Emits.throw _
    | embed => exact Emits.throw _
    | decide => exact Emits.throw _

theorem callTarget_emits (m : CatalogModel) {t : Target} (ht : Kept b t) :
    Emits Gate.sent (Made u b) (fun _ => True) (callTarget u w b m t) :=
  attempt_emits (guarded_emits (dispatchTarget_emits m ht))

/-- A plan keeps to the policy; without one the registry does not describe the model. -/
def PlanOk (u : Setup) (b : Bound) (m : CatalogModel) : Option DeploymentPlan → Prop
  | none => u.planned m = false
  | some plan => ∀ t ∈ plan.targets, Kept b t

theorem deploymentPlan_emits (m : CatalogModel) :
    Emits Gate.sent P (fun plan => PlanOk u b m plan ∧ (plan = none → described u.registry m = false))
      (deploymentPlan u w m b) := by
  refine Emits.ite (fun hd => ?_) fun _ => ?_
  · have hd' : described u.registry m = false := by simpa using hd
    exact Emits.pure ⟨by simp [PlanOk, Setup.planned, hd'], fun _ => hd'⟩
  · refine Emits.bind (Q := fun plan : DeploymentPlan => ∀ t ∈ plan.targets, Kept b t) ?_
      fun plan hplan => Emits.pure ⟨hplan, fun h => by cases h⟩
    refine Emits.foldlM _ _ (fun t ht => by cases ht) fun plan hplan t ht => ?_
    refine (question_emits _).bind fun cls _ => ?_
    cases cls with
    | some cls => exact Emits.pure hplan
    | none =>
      refine (stops_emits _).bind fun spent _ => ?_
      refine Emits.ite (fun _ => Emits.pure hplan) fun _ => Emits.pure fun t' ht' => ?_
      rcases List.mem_append.1 ht' with ht' | ht'
      · exact hplan t' ht'
      · rw [List.mem_singleton.1 ht']
        exact candidates_kept t ht

theorem targetStep_emits (later : Bool) (m : CatalogModel) {t : Target} (ht : Kept b t)
    {next : GateM Unit} (hnext : Emits Gate.sent (Made u b) (fun _ => True) next) :
    Emits Gate.sent (Made u b) (fun _ => True) (do
      deadlineGate w later
      tryCatch (callTarget u w b m t) fun
        | .deadline => throw .deadline
        | .unusable => throw .unusable
        | .other => next) := by
  refine (deadlineGate_emits later).bind fun _ _ => ?_
  refine (callTarget_emits m ht).tryCatch fun e => ?_
  cases e with
  | deadline => exact Emits.throw _
  | unusable => exact Emits.throw _
  | other => exact hnext

theorem callTargets_emits (targets : List (CatalogModel × Target)) (later : Bool)
    (h : ∀ x ∈ targets, Kept b x.2) :
    Emits Gate.sent (Made u b) (fun _ => True) (callTargets u w b targets later) := by
  induction targets generalizing later with
  | nil => exact Emits.throw _
  | cons x rest ih =>
    exact targetStep_emits later x.1 (h x mem_cons_self)
      (ih true fun y hy => h y (mem_cons_of_mem _ hy))

/-! ## Catalog keys -/

theorem vendorDeploymentFor_emits (m : CatalogModel) : Emits Gate.sent P (fun found =>
      (∀ t, found = some t → allows b.scopes t.connection.dataScope = true) ∧
      (found = none → ∀ t, vendorRow u.registry m b = some t → t.connection.monthlyBudget = true))
      (vendorDeploymentFor u w m b) := by
  unfold vendorDeploymentFor
  cases hv : vendorRow u.registry m b with
  | none =>
    refine Emits.pure ⟨fun t h => ?_, fun _ t h => ?_⟩
    · cases h
    · cases h
  | some t =>
    refine (stops_emits t.connection).bind fun spent hspent => ?_
    refine Emits.ite (fun ho => Emits.pure ⟨fun t' h => ?_, fun _ t' h => ?_⟩)
      fun _ => Emits.pure ⟨fun t' h => ?_, fun h => ?_⟩
    · cases h
    · cases h
      exact hspent ho
    · cases h
      exact vendorRow_allows hv
    · cases h

theorem openaiFallback_emits (m : CatalogModel) : Emits Gate.sent (Made u b) (fun _ => True) (openaiFallback u w b m) :=
  attempt_emits ((budgetCheck_emits _).bind fun _ _ => guarded_emits (callOpenai_emits _ _ _))

variable {key : String}

variable {m : CatalogModel}

theorem converseFallback_emits (hpii : b.pii.personal = false)
    (hkey : keyOf key = .catalog key) (hm : u.registry.catalog key = some m) (h : FallsBack u b m) :
    Emits Gate.sent (Made u b) (fun _ => True) (converseFallback u w m) := by
  unfold converseFallback
  cases hacc : m.accountFor u.registry defaultSatelliteAccount with
  | none => exact Emits.throw _
  | some account =>
    refine Emits.ite (fun _ => Emits.throw _) fun hne => ?_
    exact attempt_emits ((budgetCheck_emits _).bind fun _ _ =>
      guarded_emits (send_emits (Made.converse key m account hpii hkey hm h hacc hne)))

theorem callUnplanned_emits (hkey : keyOf key = .catalog key)
    (hm : u.registry.catalog key = some m) (he : m.enabled = true) (hplan : u.planned m = false) :
    Emits Gate.sent (Made u b) (fun _ => True) (callUnplanned u w b m) := by
  refine Emits.ite (fun _ => Emits.throw _) fun hpii => ?_
  have hpii' : b.pii.personal = false := by simpa using hpii
  refine (vendorDeploymentFor_emits m).bind fun found hfound => ?_
  cases found with
  | some t =>
    exact attempt_emits (guarded_emits (send_emits (Made.checked _ _ hpii' (hfound.1 t rfl))))
  | none =>
    cases hs : m.apiStyle with
    | openaiChat => exact openaiFallback_emits m
    | converse => exact converseFallback_emits hpii' hkey hm ⟨he, hs, hplan, hfound.2 rfl⟩
    | anthropicNative => exact Emits.throw _
    | anthropicMessages => exact Emits.throw _
    | embed => exact Emits.throw _
    | decide => exact Emits.throw _

/-- The plan of the route's sink check is one of the model's. -/
def GivenOk (u : Setup) (b : Bound) (key : String) (given : Option (Option DeploymentPlan)) : Prop :=
  ∀ m plan, u.registry.catalog key = some m → given = some plan → PlanOk u b m plan

variable {given : Option (Option DeploymentPlan)}

theorem planOf_emits (hm : u.registry.catalog key = some m) (hg : GivenOk u b key given) :
    Emits Gate.sent P (PlanOk u b m) (planOf u w b m given) := by
  cases given with
  | some plan => exact Emits.pure (hg m plan hm rfl)
  | none =>
    refine Emits.ite (fun _ => (deploymentPlan_emits m).mono (fun _ h => h) fun _ h => h.1)
      fun hr => Emits.pure ?_
    show u.planned m = false
    simp [Setup.planned, hr]

theorem callCatalogModel_emits (hkey : keyOf key = .catalog key) (hg : GivenOk u b key given) :
    Emits Gate.sent (Made u b) (fun _ => True) (callCatalogModel u w b key none given) := by
  unfold callCatalogModel
  cases hm : u.registry.catalog key with
  | none => exact Emits.throw _
  | some m =>
    refine Emits.ite (fun _ => Emits.throw _) fun he => ?_
    refine (planOf_emits hm hg).bind fun plan hplan => ?_
    cases plan with
    | some plan =>
      refine callTargets_emits _ _ fun x hx => ?_
      obtain ⟨t, ht, rfl⟩ := mem_map.1 hx
      exact hplan t ht
    | none => exact callUnplanned_emits hkey hm (by simpa using he) hplan

theorem callPinned_emits (model connection : String) : Emits Gate.sent (Made u b) (fun _ => True)
      (callCatalogModel u w b model (some connection) none) := by
  unfold callCatalogModel
  cases u.registry.catalog model with
  | none => exact Emits.throw _
  | some m =>
    refine Emits.ite (fun _ => Emits.throw _) fun _ => ?_
    show Emits _ _ _ (callPinned u w b m connection)
    unfold callPinned
    cases hp : pinnedDeployment u.registry m connection b with
    | none => exact Emits.throw _
    | some t => exact attempt_emits (send_emits (Made.kept t (pinned_kept hp)))

/-! ## Legacy keys -/

variable (tier : LegacyTier)

theorem aliasSteps_emits (hne : tier ≠ .gpt41) : Emits Gate.sent P (fun steps =>
      (steps = none → u.chained tier = true) ∧ ∀ l, steps = some l → ∀ x ∈ l, Kept b x.2) (aliasSteps u w b tier) := by
  refine Emits.ite (fun h => Emits.pure ⟨fun _ => ?_, nofun⟩) fun _ => ?_
  · rcases h with h | h
    · exact absurd h hne
    · simp [Setup.chained, h]
  refine Emits.ite (fun h => Emits.pure ⟨fun _ => ?_, nofun⟩) fun _ => ?_
  · simp [Setup.chained, h]
  refine Emits.foldlM _ _ ⟨nofun, fun l h x hx => ?_⟩ fun steps hsteps key hkey => ?_
  · cases h
    cases hx
  -- a missing or undescribed target is one that `chained` finds
  have hblock : u.blocksAlias key = true → u.chained tier = true := by
    intro hb
    unfold Setup.chained
    rw [Bool.or_eq_true]
    exact .inr (List.any_eq_true.2 ⟨key, hkey, hb⟩)
  unfold aliasStep
  cases steps with
  | none => exact Emits.pure ⟨fun _ => hsteps.1 rfl, nofun⟩
  | some steps =>
    cases hm : u.registry.catalog key with
    | none => exact Emits.pure ⟨fun _ => hblock (by simp [Setup.blocksAlias, hm]), nofun⟩
    | some m =>
      refine Emits.ite (fun _ => Emits.pure hsteps) fun he => ?_
      refine (deploymentPlan_emits m).bind fun plan hplan => ?_
      cases plan with
      | none =>
        refine Emits.pure ⟨fun _ => hblock ?_, nofun⟩
        have he' : m.enabled = true := by simpa using he
        simp [Setup.blocksAlias, hm, he', hplan.2 rfl]
      | some plan =>
        refine Emits.pure ⟨nofun, fun l h x hx => ?_⟩
        cases h
        rcases mem_append.1 hx with hx | hx
        · exact hsteps.2 steps rfl x hx
        · obtain ⟨t, ht, rfl⟩ := mem_map.1 hx
          exact hplan.1 t ht

theorem legacyTier_emits (key : String) (h : Emits Gate.sent P (fun _ => True) call) :
    Emits Gate.sent P (fun _ => True) (legacyTier u w key call) := by
  refine Emits.bind (Q := fun _ => True) (Emits.of_silent (fun _ => rfl) fun _ _ _ => trivial)
    fun s _ => ?_
  refine (deadlineGate_emits _).bind fun _ _ => ?_
  exact attempt_emits ((budgetCheck_emits _).bind fun _ _ => guarded_emits h)

theorem legacyLastResort_emits : Emits Gate.sent (Made u b) (fun _ => True) (legacyLastResort u w b) := by
  refine Emits.ite (fun _ => Emits.throw _) fun _ => ?_
  refine Emits.ite (fun _ => Emits.throw _) fun _ => ?_
  refine (legacyTier_emits _ (callOpenai_emits _ _ _)).tryCatch fun e => ?_
  cases e with
  | deadline => exact Emits.throw _
  | unusable => exact Emits.throw _
  | other => exact Emits.throw _

theorem runTiers_emits (tiers : List (String × String))
    (h : ∀ x ∈ tiers, Made u b ⟨u.registry.connectionOrBuiltin x.1, some x.2⟩) :
    Emits Gate.sent (Made u b) (fun _ => True) (runTiers u w b tiers) := by
  induction tiers with
  | nil => exact legacyLastResort_emits
  | cons x rest ih =>
    have hrest := ih fun y hy => h y (mem_cons_of_mem _ hy)
    refine (legacyTier_emits _ (send_emits (h x mem_cons_self))).tryCatch fun e => ?_
    cases e with
    | deadline => exact Emits.throw _
    | unusable => exact hrest
    | other => exact hrest

theorem legacyChain_emits (hpii : b.pii.personal = false) (hchain : tier ≠ .gpt41 → u.chained tier = true) :
    Emits Gate.sent (Made u b) (fun _ => True) (legacyChain u w b tier) := by
  have htiers : tier ≠ .gpt41 →
      Emits Gate.sent (Made u b) (fun _ => True) (runTiers u w b (legacyTiers u tier)) :=
    fun hne => runTiers_emits _ fun x hx => Made.tier tier x.1 x.2 hpii hne (hchain hne) hx
  cases tier with
  | haiku => exact htiers (by decide)
  | sonnet => exact htiers (by decide)
  | gpt41 =>
    refine (budgetCheck_emits _).bind fun _ _ => ?_
    exact (attempt_emits (guarded_emits (callOpenai_emits _ _ _))).tryCatch fun _ => Emits.throw _

theorem runAlias_emits (steps : List (CatalogModel × Target)) (later : Bool)
    (h : ∀ x ∈ steps, Kept b x.2) :
    Emits Gate.sent (Made u b) (fun _ => True) (runAlias u w b steps later) := by
  induction steps generalizing later with
  | nil => exact legacyLastResort_emits
  | cons x rest ih =>
    exact targetStep_emits later x.1 (h x mem_cons_self)
      (ih true fun y hy => h y (mem_cons_of_mem _ hy))

theorem stepsOf_emits : Emits Gate.sent P (fun steps =>
      (steps = none → tier ≠ .gpt41 → u.chained tier = true) ∧ ∀ l, steps = some l → ∀ x ∈ l, Kept b x.2)
      (stepsOf u w b tier) := by
  refine Emits.ite (fun _ => ?_) fun ha => Emits.pure ⟨fun _ _ => ?_, nofun⟩
  · by_cases hne : tier = .gpt41
    · subst hne
      exact Emits.pure ⟨fun _ h => absurd rfl h, nofun⟩
    · exact (aliasSteps_emits tier hne).mono (fun _ h => h) fun _ h => ⟨fun hs _ => h.1 hs, h.2⟩
  · simp [Setup.chained, ha]

theorem legacyCall_emits : Emits Gate.sent (Made u b) (fun _ => True) (legacyCall u w b tier) := by
  refine (stepsOf_emits tier).bind fun steps hsteps => ?_
  cases steps with
  | none =>
    refine Emits.ite (fun _ => Emits.throw _) fun hpii => ?_
    exact legacyChain_emits tier (by simpa using hpii) (hsteps.1 rfl)
  | some steps => exact runAlias_emits steps false (hsteps.2 steps rfl)

/-! ## Keys -/

variable {q : Request}

theorem givenOk_none (key : String) : GivenOk u b key none := by
  intro m plan _ h
  cases h

theorem keyOf_catalog {model : String} (h : keyOf key = .catalog model) : model = key := by
  unfold keyOf at h
  split at h
  · cases h
  · split at h
    · cases h
    · split at h
      · cases h
      · split at h
        · cases h
        · cases h
          rfl

theorem callKey_emits (key : String) (hg : GivenOk u b key given) :
    Emits Gate.sent (Made u b) (fun _ => True) (callKey u w q b key given) := by
  unfold callKey
  cases hk : keyOf key with
  | legacy tier =>
    refine Emits.ite (fun _ => ?_) fun _ => legacyCall_emits tier
    refine (legacyCall_emits tier).bind fun _ _ => (question_emits _).bind fun _ _ => ?_
    exact Emits.ite (fun _ => Emits.pure trivial) fun _ => Emits.throw _
  | pin model connection => exact callPinned_emits model connection
  | catalog model =>
    have hmodel := keyOf_catalog hk
    subst hmodel
    exact callCatalogModel_emits hk hg

theorem callKeyOnce_emits (key : String) (hg : GivenOk u b key given) (position : Nat) (shadow : Bool) :
    Emits Gate.sent (Made u b) (fun _ => True) (callKeyOnce u w q b key given position shadow) := by
  exact Emits.ite (fun _ => attempt_emits (Emits.throw _)) fun _ => callKey_emits key hg

theorem retryCut_emits (key : String) (position : Nat) (shadow : Bool) (failed : Option Fault) :
    Emits Gate.sent (Made u b) (fun _ => True) (retryCut u w q b key position shadow failed) := by
  have hretry := callKeyOnce_emits (u := u) (w := w) (b := b) (q := q) key (givenOk_none key)
    position shadow
  cases failed with
  | none =>
    exact (question_emits _).bind fun _ _ =>
      Emits.ite (fun _ => hretry) fun _ => Emits.pure trivial
  | some fault =>
    cases fault with
    | deadline => exact Emits.throw _
    | unusable =>
      exact (question_emits _).bind fun _ _ => Emits.ite (fun _ => hretry) fun _ => Emits.throw _
    | other =>
      exact (question_emits _).bind fun _ _ => Emits.ite (fun _ => hretry) fun _ => Emits.throw _

theorem callKeyLogged_emits (key : String) (hg : GivenOk u b key given) (position : Nat) (shadow : Bool) :
    Emits Gate.sent (Made u b) (fun _ => True) (callKeyLogged u w q b key given position shadow) := by
  refine Emits.bind (Q := fun _ => True) ?_ fun failed _ => retryCut_emits key position shadow failed
  refine Emits.tryCatch ?_ fun _ => Emits.pure trivial
  exact (callKeyOnce_emits key hg position shadow).bind fun _ _ => Emits.pure trivial

/-! ## Routes -/

/-- The policy of the stage, or one a pass narrowed where the stage allows both scopes. -/
def Within (b b' : Bound) : Prop :=
  b' = b ∨ (b'.pii = b.pii ∧ ∀ scope, allows b.scopes scope = true)

theorem allows_of_both (h : b.both = true) (scope : DataScope) : allows b.scopes scope = true := by
  unfold Bound.both at h
  unfold allows
  cases hb : b.scopes with
  | none => rfl
  | some scopes =>
    simp only [hb, Bool.and_eq_true, decide_eq_true_eq] at h
    cases scope with
    | awsOnly => simpa using h.2
    | vendorDirect => simpa using h.1

theorem narrowed_within {chain : List String} {r : String × Option (List DataScope)}
    (hr : r ∈ routeAttempts u b chain) : Within b (b.narrow r.2) := by
  unfold routeAttempts at hr
  split at hr
  · obtain ⟨k, -, rfl⟩ := mem_map.1 hr
    exact .inl rfl
  · next hc =>
    simp only [not_or, Bool.not_eq_true', Bool.not_eq_false] at hc
    cases r.2 with
    | none => exact .inl rfl
    | some narrowed => exact .inr ⟨rfl, allows_of_both hc.2.2.2⟩

theorem sunkRung_emits (key : String) (position : Nat) :
    Emits Gate.sent P (GivenOk u b key) (sunkRung u w q b key position) := by
  unfold sunkRung
  cases hk : keyOf key with
  | legacy tier => exact Emits.pure (givenOk_none key)
  | pin model connection => exact Emits.pure (givenOk_none key)
  | catalog model =>
    have hmodel := keyOf_catalog hk
    subst hmodel
    refine Emits.ite (fun _ => Emits.pure (givenOk_none _)) fun _ => ?_
    cases hm : u.registry.catalog model with
    | none => exact Emits.pure (givenOk_none _)
    | some m =>
      refine Emits.ite (fun _ => ?_) fun _ => Emits.pure (givenOk_none _)
      refine (deploymentPlan_emits m).bind fun plan hplan => Emits.pure ?_
      intro m' plan' hm' hplan'
      rw [hm] at hm'
      cases hm'
      cases hplan'
      exact hplan.1

def MadeWithin (u : Setup) (b : Bound) (d : Dispatch) : Prop := ∃ b', Within b b' ∧ Made u b' d

theorem callRung_emits (r : Rung) (hr : Within b (b.narrow r.2.2)) (sink : Bool) :
    Emits Gate.sent (MadeWithin u b) (fun _ => True) (callRung u w q b r sink) := by
  have hcheck : Emits Gate.sent (MadeWithin u b) (GivenOk u (b.narrow r.2.2) r.2.1)
      (sinkCheck u w q b r sink) := by
    exact Emits.ite (fun _ => sunkRung_emits _ _) fun _ => Emits.pure (givenOk_none _)
  refine hcheck.bind fun given hg => ?_
  refine Emits.ite (fun _ => Emits.pure trivial) fun _ => ?_
  refine (deadlineGate_emits _).bind fun _ _ => ?_
  refine Emits.tryCatch ?_ fun e => ?_
  · refine Emits.bind (Q := fun _ => True) ?_ fun _ _ => Emits.pure trivial
    exact (callKeyLogged_emits r.2.1 hg r.1 false).mono (fun d hd => ⟨_, hr, hd⟩) fun _ h => h
  · cases e with
    | deadline => exact Emits.throw _
    | unusable => exact Emits.pure trivial
    | other => exact Emits.pure trivial

theorem liveRungs_emits (rungs deferred : List Rung) (h : ∀ r ∈ rungs, Within b (b.narrow r.2.2))
    (hd : ∀ r ∈ deferred, Within b (b.narrow r.2.2)) :
    Emits Gate.sent (MadeWithin u b) (fun live => ∀ r ∈ live.2, Within b (b.narrow r.2.2))
      (liveRungs u w q b rungs deferred) := by
  induction rungs generalizing deferred with
  | nil => exact Emits.pure hd
  | cons r rest ih =>
    have hrest : ∀ r ∈ rest, Within b (b.narrow r.2.2) :=
      fun r' hr' => h r' (mem_cons_of_mem _ hr')
    refine Emits.ite (fun _ => ih deferred hrest hd) fun _ => ?_
    refine (callRung_emits r (h r mem_cons_self) true).bind fun outcome _ => ?_
    cases outcome with
    | answered => exact Emits.pure hd
    | failed => exact ih deferred hrest hd
    | deferred =>
      refine ih (deferred ++ [r]) hrest fun r' hr' => ?_
      rcases mem_append.1 hr' with hr' | hr'
      · exact hd r' hr'
      · rw [mem_singleton.1 hr']
        exact h r mem_cons_self

theorem deferredRungs_emits (rungs : List Rung) (h : ∀ r ∈ rungs, Within b (b.narrow r.2.2)) :
    Emits Gate.sent (MadeWithin u b) (fun _ => True) (deferredRungs u w q b rungs) := by
  induction rungs with
  | nil => exact Emits.pure trivial
  | cons r rest ih =>
    have hrest := ih fun r' hr' => h r' (mem_cons_of_mem _ hr')
    refine (question_emits _).bind fun _ _ => Emits.ite (fun _ => hrest) fun _ => ?_
    refine (callRung_emits r (h r mem_cons_self) false).bind fun outcome _ => ?_
    cases outcome with
    | answered => exact Emits.pure trivial
    | failed => exact hrest
    | deferred => exact hrest

theorem callRoute_emits (chain : List String) :
    Emits Gate.sent (MadeWithin u b) (fun _ => True) (callRoute u w q b chain) := by
  have hrungs : ∀ r ∈ ((routeAttempts u b chain).zipIdx.map fun r => (r.2, r.1)),
      Within b (b.narrow r.2.2) := by
    intro r hr
    obtain ⟨x, hx, rfl⟩ := mem_map.1 hr
    exact narrowed_within (fst_mem_of_mem_zipIdx hx)
  refine (liveRungs_emits _ [] hrungs nofun).bind fun live hlive => ?_
  refine Emits.ite (fun _ => Emits.pure trivial) fun _ => ?_
  refine (deferredRungs_emits live.2 hlive).bind fun _ _ => ?_
  exact Emits.ite (fun _ => Emits.pure trivial) fun _ => Emits.throw _

theorem callKeyLogged_within (key : String) (shadow : Bool) :
    Emits Gate.sent (MadeWithin u b) (fun _ => True) (callKeyLogged u w q b key none 0 shadow) :=
  (callKeyLogged_emits key (givenOk_none key) 0 shadow).mono (fun _ hd => ⟨b, .inl rfl, hd⟩)
    fun _ h => h

theorem callChain_emits (chain : List String) :
    Emits Gate.sent (MadeWithin u b) (fun _ => True) (callChain u w q b chain) := by
  unfold callChain
  split
  · exact callKeyLogged_within _ false
  · exact callRoute_emits _

theorem shadowStep_emits : Emits Gate.sent (MadeWithin u b) (fun _ => True) (shadowStep u w q b) := by
  unfold shadowStep
  cases q.shadowModelId with
  | none => exact Emits.pure trivial
  | some key =>
    refine Emits.ite (fun _ => ?_) fun _ => Emits.pure trivial
    refine (question_emits _).bind fun _ _ => Emits.ite (fun _ => ?_) fun _ => Emits.pure trivial
    refine Emits.bind (Q := fun _ => True) (Emits.of_silent (fun _ => rfl) fun _ _ _ => trivial)
      fun _ _ => ?_
    exact (callKeyLogged_within key true).tryCatch fun _ => Emits.pure trivial

variable (u w q) in
theorem dispatches_made : ∀ d ∈ dispatches u w q, MadeWithin u u.bound d := by
  have hrun : Emits Gate.sent (MadeWithin u u.bound) (fun _ => True) (generateM u w q) := by
    unfold generateM
    refine (question_emits _).bind fun _ _ => Emits.ite (fun _ => Emits.throw _) fun _ => ?_
    exact (callChain_emits _).bind fun _ _ => shadowStep_emits
  obtain ⟨⟨l, hl, hmade⟩, -⟩ := hrun {}
  intro d hd
  unfold dispatches at hd
  rw [hl] at hd
  exact hmade d (by simpa using hd)

end

end CisApp.Policy
