import CisApp.Lib.Emits
import CisApp.Policy.Registry

/-!
# The provider calls of the AI gateway

`LLMClient.generate` (`shared/llm_client/client.py`) with every path that ends in
a provider request, which is logged as a `Dispatch`:

* `callCatalogModel`: a pin, the deployment plan (its own or the route's), the
  Anthropic row of slice S2, and the OpenAI and Converse fallbacks.
* `legacyCall`: the alias steps of a legacy key, else the hard-coded chain
  (`legacyChain`) with its last resort.
* `callRoute`: the route with its deferred rungs, in one pass or AWS first.
* `generate`: a route or one key, and the shadow call.

What the gateway asks of the world (circuits, budgets, the deadline, what a
provider replies) is answered by `World`, question by question, so that an
answer may change from one question to the next.  Errors are told apart as far
as a path does: `Fault`.
-/

namespace CisApp.Policy

open Lib

/-! ## Requests -/

/-- `LEGACY_KEYS`. -/
inductive LegacyTier where
  | haiku
  | sonnet
  | gpt41
deriving Repr, DecidableEq

def LegacyTier.key : LegacyTier → String
  | .haiku => "haiku"
  | .sonnet => "sonnet"
  | .gpt41 => "gpt-4.1"

/-- What a key of a route or a `model_tier` names. -/
inductive RouteKey where
  | legacy (tier : LegacyTier)
  | pin (model connection : String)
  | catalog (model : String)
deriving Repr, DecidableEq

/-- `split_pin`: `model@connection`, both not empty. -/
def splitPin (key : String) : Option (String × String) :=
  let model := key.toList.takeWhile (· ≠ '@')
  let connection := key.toList.drop (model.length + 1)
  if model = [] ∨ connection = [] then none
  else some (String.ofList model, String.ofList connection)

def keyOf (key : String) : RouteKey :=
  if key = "haiku" then .legacy .haiku
  else if key = "sonnet" then .legacy .sonnet
  else if key = "gpt-4.1" then .legacy .gpt41
  else
    match splitPin key with
    | some (model, connection) => .pin model connection
    | none => .catalog key

/-- The switches, read from the environment and the route settings. -/
structure Switches where
  deploymentRouting : Bool := true
  legacyAliases : Bool := false
  acc2Native : Bool := false
  awsFirst : Bool := false
  breaker : Bool := true
deriving Repr, DecidableEq

/-- What a request meets apart from its route: the row of its stage (none without a
stage), the tables, the switches, and the role it states. -/
structure Setup where
  stage : Option StageRow
  registry : Registry
  switches : Switches
  statedRole : Option String := none

/-- A request with the route of its stage row (the default tier without a stage): the
key it names for itself, whether it asks for a schema, and whether it is a route test
that refuses the first model. -/
structure Request where
  modelTier : Option String
  modelId : String
  fallbackModelIds : List String := []
  shadowModelId : Option String := none
  jsonSchema : Bool := false
  forcedRefusal : Bool := false
deriving Repr, DecidableEq

/-- What `_generate` binds for the call. -/
def Setup.bound (u : Setup) : Bound where
  scopes := (u.stage.bind (·.allowedScopes)).map normalize
  role :=
    match u.stage.bind (·.role) with
    | some r => if r = "" then u.statedRole else some r
    | none => u.statedRole
  pii := (u.stage.map (·.piiClass)).getD .content

/-! ## The world and the log -/

inductive Reply where
  | notSent
  | failed
  | unusable
  | answered
deriving Repr, DecidableEq

/-- The answers of the world, by the number of the question. -/
structure World where
  refuses : Nat → Bool
  circuit : Nat → String → String → Option String
  overBudget : Nat → String → Bool
  blocked : Nat → String → Bool
  late : Nat → Bool
  reply : Nat → Reply
  conforms : Nat → Bool
  cut : Nat → Bool
  sampled : Nat → Bool

/-- A provider request: the connection it goes through and the model id sent. -/
structure Dispatch where
  connection : Option Connection
  wire : Option String
deriving Repr, DecidableEq

/-- The errors a path tells apart. -/
inductive Fault where
  /-- `RouteDeadlineExceeded`, the attempt cap included. -/
  | deadline
  /-- `UnusableReply`. -/
  | unusable
  | other
deriving Repr, DecidableEq

/-- The questions asked, the attempts of the request, and what was sent. -/
structure Gate where
  asked : Nat := 0
  attempts : Nat := 0
  sent : List Dispatch := []

abbrev GateM := Prog Fault Gate

section

variable (u : Setup) (w : World)

def question {α : Type} (f : Nat → α) : GateM α := do
  let s ← get
  set { s with asked := s.asked + 1 }
  return f s.asked

def maxChainAttempts : Nat := 6

/-- `_attempt`: one provider attempt, if the request has one left. -/
def attempt (call : GateM Unit) : GateM Unit := do
  let s ← get
  if maxChainAttempts ≤ s.attempts then throw .deadline
  else do
    set { s with attempts := s.attempts + 1 }
    call

/-- The provider request itself. -/
def send (d : Dispatch) : GateM Unit := do
  match ← question w.reply with
  | .notSent => throw .other
  | reply =>
    modify fun s => { s with sent := s.sent ++ [d] }
    match reply with
    | .answered => return
    | .unusable => throw .unusable
    | _ => throw .other

/-- `_guarded`: the breaker and the limiter of the connection, if it is known. -/
def guarded (c : Option Connection) (call : GateM Unit) : GateM Unit := do
  match c with
  | none => call
  | some c => if ← question fun n => w.blocked n c.key then throw .other else call

/-- `_deadline_gate`, before an attempt that is not the first. -/
def deadlineGate (later : Bool) : GateM Unit := do
  if later then
    if ← question w.late then throw .deadline else return
  else return

/-- `connection_budget.stops`. -/
def stops (c : Connection) : GateM Bool := do
  if c.monthlyBudget then question fun n => w.overBudget n c.key else return false

/-- `connection_budget.check`. -/
def budgetCheck (key : String) : GateM Unit := do
  match u.registry.connection key with
  | none => return
  | some c => if ← stops w c then throw .other else return

/-! ## Adapters -/

def openaiPlatformAllowed (modelKey : String) : Bool :=
  match u.registry.catalog modelKey with
  | none => false
  | some m => m.provider ∈ ["openai", "azure_openai"] && m.enabled

/-- The scope of an OpenAI connection, of the built-in one by default. -/
def openaiDataScope (c : Option Connection) : DataScope :=
  match c with
  | some c => c.dataScope
  | none => ((u.registry.connectionOrBuiltin openaiConnectionKey).map (·.dataScope)).getD .vendorDirect

def openaiScopeAllowed (b : Bound) (c : Option Connection) : Bool :=
  allows b.scopes (openaiDataScope u c)

/-- The OpenAI adapter, with its own gate. -/
def callOpenai (b : Bound) (label wire : String) (connection : Option Connection) : GateM Unit :=
  let conn := connection.orElse fun _ => u.registry.connectionOrBuiltin openaiConnectionKey
  if !openaiPlatformAllowed u label then throw .other
  else if b.pii.personal then throw .other
  else if !openaiScopeAllowed u b conn then throw .other
  else
    match conn with
    | none => throw .other
    | some c => send w ⟨some c, some wire⟩

/-- `_dispatch_target`: a model on one deployment, by the connection's kind. -/
def dispatchTarget (b : Bound) (m : CatalogModel) (t : Target) : GateM Unit :=
  let d : Dispatch := ⟨some t.connection, some t.deployment.wireId⟩
  match t.connection.kind with
  | .anthropic => send w d
  | .openai => callOpenai u w b m.key t.deployment.wireId (some t.connection)
  | .azureOpenai => callOpenai u w b m.key t.deployment.wireId (some t.connection)
  | .bedrock =>
    match t.deployment.apiStyle.getD m.apiStyle with
    | .converse => send w d
    | .anthropicNative => if m.key ∈ ["sonnet", "haiku"] then send w d else throw .other
    | _ => throw .other
  | _ => throw .other

def callTarget (b : Bound) (m : CatalogModel) (t : Target) : GateM Unit :=
  attempt (guarded w (some t.connection) (dispatchTarget u w b m t))

/-! ## Plans -/

/-- The deployments to call, and the circuits and budgets that left some out. -/
structure DeploymentPlan where
  targets : List Target
  circuitSkips : List (String × String) := []
  budgetSkips : List String := []

/-- `deployment_plan`: the candidates whose circuits are closed and whose connections
are in budget; none when the registry does not describe the model. -/
def deploymentPlan (m : CatalogModel) (b : Bound) : GateM (Option DeploymentPlan) := do
  if !described u.registry m then return none
  else do
    let plan ← (candidates b (callableRows u.registry m)).foldlM (fun plan t => do
      match ← question fun n => w.circuit n t.connection.key m.key with
      | some cls =>
        return { plan with circuitSkips := plan.circuitSkips ++ [(t.connection.key, cls)] }
      | none =>
        if ← stops w t.connection then
          return { plan with budgetSkips := plan.budgetSkips ++ [t.connection.key] }
        else return { plan with targets := plan.targets ++ [t] })
      ({ targets := [] } : DeploymentPlan)
    return some plan

def vendorDeploymentFor (m : CatalogModel) (b : Bound) : GateM (Option Target) := do
  match vendorRow u.registry m b with
  | none => return none
  | some t => if ← stops w t.connection then return none else return some t

/-- The deployments in turn until one answers: an unusable reply is an answer, and the
deadline ends the request. -/
def callTargets (b : Bound) : List (CatalogModel × Target) → Bool → GateM Unit
  | [], _ => throw .other
  | (m, t) :: rest, later => do
    deadlineGate w later
    tryCatch (callTarget u w b m t) fun
      | .deadline => throw .deadline
      | .unusable => throw .unusable
      | .other => callTargets b rest true

def callPlan (b : Bound) (m : CatalogModel) (plan : DeploymentPlan) : GateM Unit :=
  callTargets u w b (plan.targets.map (m, ·)) false

/-! ## Catalog keys -/

/-- The OpenAI connection, for a catalog row without a plan. -/
def openaiFallback (b : Bound) (m : CatalogModel) : GateM Unit :=
  attempt (do
    budgetCheck u w openaiConnectionKey
    guarded w (u.registry.connectionOrBuiltin openaiConnectionKey)
      (callOpenai u w b m.key (m.wireModel.getD m.key) none))

/-- Converse on the satellite account, for a catalog row without a plan. -/
def converseFallback (m : CatalogModel) : GateM Unit :=
  match m.accountFor u.registry defaultSatelliteAccount with
  | none => throw .other
  | some account =>
    if account = acc2ConnectionKey then throw .other
    else
      attempt (do
        budgetCheck u w account
        guarded w (u.registry.connectionOrBuiltin account)
          (send w ⟨u.registry.connectionOrBuiltin account, m.bedrockProfileIds.lookup account⟩))

/-- A model without a plan: refused for personal data, else the Anthropic row in front
of its deployments, else the fallback of its API style. -/
def callUnplanned (b : Bound) (m : CatalogModel) : GateM Unit :=
  if b.pii.personal then throw .other
  else do
    match ← vendorDeploymentFor u w m b with
    | some t =>
      attempt (guarded w (some t.connection)
        (send w ⟨some t.connection, some t.deployment.wireId⟩))
    | none =>
      match m.apiStyle with
      | .openaiChat => openaiFallback u w b m
      | .converse => converseFallback u w m
      | _ => throw .other

/-- The plan the route's sink check made, else a new one. -/
def planOf (b : Bound) (m : CatalogModel) (given : Option (Option DeploymentPlan)) :
    GateM (Option DeploymentPlan) :=
  match given with
  | some plan => pure plan
  | none => if u.switches.deploymentRouting then deploymentPlan u w m b else pure none

/-- A model that is not pinned. -/
def callModel (b : Bound) (m : CatalogModel) (given : Option (Option DeploymentPlan)) :
    GateM Unit := do
  match ← planOf u w b m given with
  | some plan => callPlan u w b m plan
  | none => callUnplanned u w b m

def callPinned (b : Bound) (m : CatalogModel) (connection : String) : GateM Unit :=
  match pinnedDeployment u.registry m connection b with
  | none => throw .other
  | some t => attempt (send w ⟨some t.connection, some t.deployment.wireId⟩)

def callCatalogModel (b : Bound) (key : String) (pin : Option String)
    (given : Option (Option DeploymentPlan)) : GateM Unit :=
  match u.registry.catalog key with
  | none => throw .other
  | some m =>
    if !m.enabled then throw .other
    else
      match pin with
      | some connection => callPinned u w b m connection
      | none => callModel u w b m given

/-! ## Legacy keys -/

def bedrockSonnet : String := "us.anthropic.claude-sonnet-4-5-20250929-v1:0"

def bedrockHaiku : String := "us.anthropic.claude-haiku-4-5-20251001-v1:0"

def profileIdSonnet : String := "global.anthropic.claude-sonnet-4-6"

def profileIdHaiku : String := "global.anthropic.claude-haiku-4-5-20251001-v1:0"

/-- One target of an alias: on each deployment of its plan; none ends the steps. -/
def aliasStep (b : Bound) (steps : Option (List (CatalogModel × Target))) (key : String) :
    GateM (Option (List (CatalogModel × Target))) := do
  match steps, u.registry.catalog key with
  | some steps, some m =>
    if !m.enabled then return some steps
    else
      match ← deploymentPlan u w m b with
      | none => return none
      | some plan => return some (steps ++ plan.targets.map (m, ·))
  | _, _ => return none

/-- `_alias_steps`: every target of the alias on each deployment of its plan; none where
the chain is taken. -/
def aliasSteps (b : Bound) (tier : LegacyTier) : GateM (Option (List (CatalogModel × Target))) := do
  if tier = .gpt41 ∨ u.switches.acc2Native then return none
  else if (u.registry.aliases tier.key).isEmpty then return none
  else (u.registry.aliases tier.key).foldlM (aliasStep u w b) (some [])

/-- `_legacy_tier`: the deadline before a later attempt, the budget, the breaker. -/
def legacyTier (connectionKey : String) (call : GateM Unit) : GateM Unit := do
  let s ← get
  deadlineGate w (0 < s.attempts)
  attempt (do
    budgetCheck u w connectionKey
    guarded w (u.registry.connectionOrBuiltin connectionKey) call)

/-- `_legacy_last_resort`: GPT-4.1, if the catalog and the stage still allow it. -/
def legacyLastResort (b : Bound) : GateM Unit :=
  if !(openaiPlatformAllowed u "gpt-4.1" && openaiScopeAllowed u b none) then throw .other
  else if b.pii.personal then throw .other
  else
    tryCatch (legacyTier u w openaiConnectionKey (callOpenai u w b "gpt-4.1" "gpt-4.1" none)) fun
      | .deadline => throw .deadline
      | _ => throw .other

/-- The Bedrock tiers of a legacy key: Sonnet on acc2, on acc3, Haiku on acc2, on acc3;
acc2 only with its switch, Sonnet only when it was asked for. -/
def legacyTiers (tier : LegacyTier) : List (String × String) :=
  (if tier = .sonnet then
    (if u.switches.acc2Native then [(acc2ConnectionKey, bedrockSonnet)] else []) ++
      [(defaultSatelliteAccount, profileIdSonnet)]
  else []) ++
  (if u.switches.acc2Native then [(acc2ConnectionKey, bedrockHaiku)] else []) ++
    [(defaultSatelliteAccount, profileIdHaiku)]

/-- The tiers in turn, then the last resort. -/
def runTiers (b : Bound) : List (String × String) → GateM Unit
  | [] => legacyLastResort u w b
  | (key, wire) :: rest =>
    tryCatch
      (legacyTier u w key (send w ⟨u.registry.connectionOrBuiltin key, some wire⟩)) fun
      | .deadline => throw .deadline
      | _ => runTiers b rest

def legacyChain (b : Bound) (tier : LegacyTier) : GateM Unit :=
  match tier with
  | .gpt41 => do
    budgetCheck u w openaiConnectionKey
    -- whatever fails here is wrapped, the attempt cap too
    tryCatch (attempt (guarded w (u.registry.connectionOrBuiltin openaiConnectionKey)
      (callOpenai u w b "gpt-4.1" "gpt-4.1" none))) fun _ => throw .other
  | _ => runTiers u w b (legacyTiers u tier)

def runAlias (b : Bound) : List (CatalogModel × Target) → Bool → GateM Unit
  | [], _ => legacyLastResort u w b
  | (m, t) :: rest, later => do
    deadlineGate w later
    tryCatch (callTarget u w b m t) fun
      | .deadline => throw .deadline
      | .unusable => throw .unusable
      | .other => runAlias b rest true

/-- The alias steps, with the aliases switched on. -/
def stepsOf (b : Bound) (tier : LegacyTier) : GateM (Option (List (CatalogModel × Target))) :=
  if u.switches.legacyAliases then aliasSteps u w b tier else pure none

def legacyCall (b : Bound) (tier : LegacyTier) : GateM Unit := do
  match ← stepsOf u w b tier with
  | none => if b.pii.personal then throw .other else legacyChain u w b tier
  | some steps => runAlias u w b steps false

/-- `_legacy_structured`: the reply is read against the schema. -/
def legacyStructured (b : Bound) (tier : LegacyTier) : GateM Unit := do
  legacyCall u w b tier
  if ← question w.conforms then return else throw .unusable

/-! ## Keys -/

variable (q : Request)

def callKey (b : Bound) (key : String) (given : Option (Option DeploymentPlan)) : GateM Unit :=
  match keyOf key with
  | .legacy tier =>
    if q.jsonSchema ∧ tier ≠ .gpt41 then legacyStructured u w b tier else legacyCall u w b tier
  | .pin model connection => callCatalogModel u w b model (some connection) none
  | .catalog model => callCatalogModel u w b model none given

/-- `_call_key_once`: the forced refusal of a route test sends nothing. -/
def callKeyOnce (b : Bound) (key : String) (given : Option (Option DeploymentPlan))
    (position : Nat) (shadow : Bool) : GateM Unit :=
  if position = 0 ∧ q.forcedRefusal ∧ ¬ shadow then attempt (throw .other)
  else callKey u w q b key given

/-- A reply cut at its token ceiling is retried once; the retry makes its own plan. -/
def retryCut (b : Bound) (key : String) (position : Nat) (shadow : Bool) (failed : Option Fault) :
    GateM Unit :=
  match failed with
  | some .deadline => throw .deadline
  | some fault => do
    if ← question w.cut then callKeyOnce u w q b key none position shadow else throw fault
  | none => do
    if ← question w.cut then callKeyOnce u w q b key none position shadow else return

def callKeyLogged (b : Bound) (key : String) (given : Option (Option DeploymentPlan))
    (position : Nat) (shadow : Bool) : GateM Unit := do
  let failed ← tryCatch
    (do
      callKeyOnce u w q b key given position shadow
      return none)
    fun fault => return some fault
  retryCut u w q b key position shadow failed

/-! ## Routes -/

/-- The stage allows both scopes. -/
def Bound.both (b : Bound) : Bool :=
  match b.scopes with
  | none => false
  | some scopes => .vendorDirect ∈ scopes && .awsOnly ∈ scopes

/-- `route_reach` of an enabled catalog key. -/
def reachOf (b : Bound) (key : String) : Option (List DataScope × List DataScope) :=
  match keyOf key with
  | .catalog model =>
    (u.registry.catalog model).bind fun m =>
      if m.enabled then routeReach u.registry m b.role else none
  | _ => none

/-- A key in the AWS pass: on its AWS deployments, or as it is when the registry does not
describe it or nothing of it is usable. -/
def awsAttempt (b : Bound) (key : String) : Option (String × Option (List DataScope)) :=
  match reachOf u b key with
  | none => some (key, none)
  | some (usable, described) =>
    if usable ≠ [] then
      if .awsOnly ∈ usable then some (key, some [.awsOnly]) else none
    else if .awsOnly ∈ described then some (key, none) else none

def vendorAttempt (b : Bound) (key : String) : Option (String × Option (List DataScope)) :=
  match reachOf u b key with
  | none => none
  | some (usable, described) =>
    if usable ≠ [] then
      if .vendorDirect ∈ usable then some (key, some [.vendorDirect]) else none
    else if .awsOnly ∈ described then none else some (key, none)

/-- `route_attempts`: the keys in order, or an AWS pass and then a vendor pass, each key
with the scopes it is narrowed to. -/
def routeAttempts (b : Bound) (chain : List String) : List (String × Option (List DataScope)) :=
  if chain.length < 2 ∨ !u.switches.awsFirst ∨ !u.switches.deploymentRouting ∨ !b.both then
    chain.map fun k => (k, none)
  else chain.filterMap (awsAttempt u b) ++ chain.filterMap (vendorAttempt u b)

/-- The scopes a rung is narrowed to replace the stage's. -/
def Bound.narrow (b : Bound) : Option (List DataScope) → Bound
  | none => b
  | some scopes => { b with scopes := some scopes }

def refusingCircuitClasses : List String := ["access_denied", "quota_exhausted", "credential"]

/-- `sunk_skips`: the plan is empty, and only because of refusing circuits. -/
def sunk : Option DeploymentPlan → Bool
  | none => false
  | some plan =>
    plan.targets.isEmpty && plan.budgetSkips.isEmpty && !plan.circuitSkips.isEmpty &&
      plan.circuitSkips.all fun skip => skip.2 ∈ refusingCircuitClasses

/-- `_sunk_rung`: the plan of a catalog rung, where the sink check makes one. -/
def sunkRung (b : Bound) (key : String) (position : Nat) : GateM (Option (Option DeploymentPlan)) := do
  match keyOf key with
  | .catalog model =>
    if !u.switches.breaker ∨ !u.switches.deploymentRouting ∨ (position = 0 ∧ q.forcedRefusal) then
      return none
    else
      match u.registry.catalog model with
      | none => return none
      | some m =>
        if m.enabled then do
          let plan ← deploymentPlan u w m b
          return some plan
        else return none
  | _ => return none

inductive Outcome where
  | deferred
  | failed
  | answered
deriving Repr, DecidableEq

/-- A rung: its position, its key, and the scopes it is narrowed to. -/
abbrev Rung := Nat × String × Option (List DataScope)

/-- The sink check of the first pass. -/
def sinkCheck (b : Bound) (r : Rung) (sink : Bool) : GateM (Option (Option DeploymentPlan)) :=
  if sink then sunkRung u w q (b.narrow r.2.2) r.2.1 r.1 else pure none

/-- The route's inner call. -/
def callRung (b : Bound) (r : Rung) (sink : Bool) : GateM Outcome := do
  let given ← sinkCheck u w q b r sink
  if sunk (given.getD none) then return .deferred
  else do
    deadlineGate w (0 < r.1)
    tryCatch
      (do
        callKeyLogged u w q (b.narrow r.2.2) r.2.1 given r.1 false
        return .answered)
      fun
      | .deadline => throw .deadline
      | _ => return .failed

/-- A rung the route tries: a legacy key, or an enabled model of the catalog. -/
def tried (key : String) : Bool :=
  key ∈ legacyKeys || ((u.registry.catalog key).map (·.enabled)).getD false

/-- The rungs in turn: whether one answered, and the deferred ones. -/
def liveRungs (b : Bound) : List Rung → List Rung → GateM (Bool × List Rung)
  | [], deferred => return (false, deferred)
  | r :: rest, deferred => do
    if !tried u r.2.1 then liveRungs b rest deferred
    else
      match ← callRung u w q b r true with
      | .answered => return (true, deferred)
      | .deferred => liveRungs b rest (deferred ++ [r])
      | .failed => liveRungs b rest deferred

/-- The deferred rungs, until one answers; past the deadline none is called. -/
def deferredRungs (b : Bound) : List Rung → GateM Bool
  | [] => return false
  | r :: rest => do
    if ← question w.late then deferredRungs b rest
    else
      match ← callRung u w q b r false with
      | .answered => return true
      | _ => deferredRungs b rest

def callRoute (b : Bound) (chain : List String) : GateM Unit := do
  let live ← liveRungs u w q b ((routeAttempts u b chain).zipIdx.map fun r => (r.2, r.1)) []
  if live.1 then return
  else do
    if ← deferredRungs u w q b live.2 then return else throw .other

/-- The shadow call: a request of its own, whose errors are kept to itself. -/
def shadowCall (b : Bound) (key : String) : GateM Unit := do
  modify fun s => { s with attempts := 0 }
  tryCatch (callKeyLogged u w q b key none 0 true) fun _ => pure ()

/-- The request's own key runs alone; else the route of the stage. -/
def chainOf : List String :=
  match q.modelTier with
  | some key => [key]
  | none => if u.stage.isSome then q.modelId :: q.fallbackModelIds else [q.modelId]

def callChain (b : Bound) (chain : List String) : GateM Unit :=
  match chain with
  | [key] => callKeyLogged u w q b key none 0 false
  | chain => callRoute u w q b chain

/-- A sample of the answered calls of a stage is sent to the shadow model. -/
def shadowStep (b : Bound) : GateM Unit :=
  match q.shadowModelId with
  | none => return
  | some key =>
    if q.modelTier.isNone ∧ u.stage.isSome then do
      if ← question w.sampled then shadowCall u w q b key else return
    else return

/-- `generate`: the switches and budgets of the app, the stage and the tenant first. -/
def generateM : GateM Unit := do
  if ← question w.refuses then throw .other
  else do
    callChain u w q u.bound (chainOf u q)
    shadowStep u w q u.bound

/-- Every provider request of a call of `generate`. -/
def dispatches : List Dispatch := (exec (generateM u w q) {}).2.sent

end

end CisApp.Policy
