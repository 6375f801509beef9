import CisApp.Lib.Sorted
import Mathlib.Data.Prod.Lex
import Mathlib.Data.String.Basic

/-!
# Data scopes, connections and deployments of the AI gateway

What decides where a stage's content may be sent: the stage row
(`llm_role_config`: `allowed_scopes`, `pii_class`, role), the registry of
connections and deployments, the catalog and the aliases.

* `normalize`, `piiAllows`, `deploymentGeo`: `shared/llm_client/data_scope.py`.
* `connectionOrBuiltin`, `bedrockConnectionKeys`: `connections.py`;
  `CatalogModel.accountFor`: `catalog.py`.
* `callableRows`, `candidates`, `firstEnabled`, `pinnedDeployment`, `routeReach`:
  the part of `vendor_route.py` that reads no circuit and no budget.

The rows are as their loaders give them: a model's deployments by priority.
-/

namespace CisApp.Policy

open Lib

/-! ## Stages -/

inductive DataScope where
  | awsOnly
  | vendorDirect
deriving Repr, DecidableEq

def dataScopes : List DataScope := [.awsOnly, .vendorDirect]

/-- `content`, `pii`, or the class of a stage whose row could not be read. -/
inductive PiiClass where
  | content
  | pii
  | unread
deriving Repr, DecidableEq

/-- `pii_class == PII_PERSONAL`; the unread class equals it. -/
def PiiClass.personal : PiiClass → Bool
  | .content => false
  | .pii => true
  | .unread => true

/-- A row of `llm_role_config`, without its route: the scopes are null or not
empty (the table's CHECK). -/
structure StageRow where
  allowedScopes : Option (List DataScope)
  piiClass : PiiClass
  role : Option String
  nonempty : allowedScopes ≠ some []

/-- A stored `allowed_scopes` in the order of `dataScopes`. -/
def normalize (value : List DataScope) : List DataScope :=
  let known := dataScopes.filter (· ∈ value)
  if known = [] then [.awsOnly] else known

def allows (allowedScopes : Option (List DataScope)) (scope : DataScope) : Bool :=
  match allowedScopes with
  | none => true
  | some scopes => scope ∈ scopes

/-! ## Connections -/

inductive Kind where
  | bedrock
  | anthropic
  | openai
  | azureOpenai
  | bedrockGuardrails
  | mock
deriving Repr, DecidableEq

inductive AuthMode where
  | assumeRole
  | taskRole
  | bedrockApiKey
  | apiKey
  | none
deriving Repr, DecidableEq

/-- A row of `llm_provider_connection`.  `policyProblems` is what the function of
this name says of the row's secret, address and role. -/
structure Connection where
  key : String
  kind : Kind
  authMode : AuthMode
  dataScope : DataScope
  enabled : Bool := true
  region : Option String := none
  servedRoles : Option (List String) := none
  monthlyBudget : Bool := false
  policyProblems : List String := []
deriving Repr, DecidableEq

def openaiConnectionKey : String := "openai-direct"

def acc2ConnectionKey : String := "acc2"

def defaultSatelliteAccount : String := "acc3"

/-- The rows that stand in for a missing or unusable one. -/
def builtinConnections : List Connection :=
  [ { key := defaultSatelliteAccount, kind := .bedrock, authMode := .assumeRole,
      dataScope := .awsOnly, region := some "us-west-1" },
    { key := acc2ConnectionKey, kind := .bedrock, authMode := .taskRole,
      dataScope := .awsOnly, region := some "us-west-1" },
    { key := openaiConnectionKey, kind := .openai, authMode := .apiKey,
      dataScope := .vendorDirect } ]

/-- May the connection serve a call of `role`? -/
def servesRole (c : Connection) (role : Option String) : Bool :=
  match role, c.servedRoles with
  | some r, some roles => r = "" || r ∈ roles
  | _, _ => true

/-! ## Geography -/

def geos : List String := ["global", "us", "eu", "apac", "jp", "au", "ca"]

/-- The prefixes of in-region Bedrock ids. -/
def bedrockProviders : List String :=
  ["ai21", "amazon", "anthropic", "cohere", "deepseek", "google", "luma", "meta", "minimax",
    "mistral", "moonshot", "moonshotai", "nvidia", "openai", "qwen", "stability", "twelvelabs",
    "writer"]

/-- Where a deployment runs: the prefix of its wire id, `us` for an in-region id on a
`us-` connection, else `unknown`. -/
def deploymentGeo (wireId region : Option String) : String :=
  let wire := (wireId.getD "").trimAscii.toString.toLower.toList
  let head := wire.takeWhile (· ≠ '.')
  let rest := wire.drop (head.length + 1)
  let name := String.ofList head
  if wire = [] ∨ "arn:".toList.isPrefixOf wire ∨ rest = [] then "unknown"
  else if name ∈ geos then name
  else if name ∈ bedrockProviders ∧ "us-".toList.isPrefixOf (region.getD "").toLower.toList then "us"
  else "unknown"

def awsKinds : List Kind := [.bedrock, .bedrockGuardrails, .mock]

/-- A personal-data stage: an `aws_only` connection of an AWS kind, in the US. -/
def piiAllows (cls : PiiClass) (scope : DataScope) (wireId region : Option String) (kind : Kind) :
    Bool :=
  if cls.personal then
    scope = .awsOnly && kind ∈ awsKinds && deploymentGeo wireId region = "us"
  else true

/-! ## Models -/

inductive ApiStyle where
  | converse
  | anthropicNative
  | anthropicMessages
  | openaiChat
  | embed
  | decide
deriving Repr, DecidableEq

/-- A row of the catalog. -/
structure CatalogModel where
  key : String
  vendor : String
  provider : String
  apiStyle : ApiStyle
  bedrockProfileIds : List (String × String) := []
  wireModel : Option String := none
  enabled : Bool := true
deriving Repr, DecidableEq

/-- A row of `llm_model_deployment`. -/
structure Deployment where
  connectionKey : String
  wireId : String
  enabled : Bool := true
  apiStyle : Option ApiStyle := none
deriving Repr, DecidableEq

/-- `VendorDeployment`: a deployment with its connection. -/
structure Target where
  deployment : Deployment
  connection : Connection
deriving Repr, DecidableEq

def legacyKeys : List String := ["haiku", "sonnet", "gpt-4.1"]

/-- The tables the gateway reads; no connections when they cannot be read. -/
structure Registry where
  connections : List Connection
  deployments : String → List Deployment
  catalog : String → Option CatalogModel
  aliases : String → List String

def Registry.connection (g : Registry) (key : String) : Option Connection :=
  g.connections.find? (·.key = key)

def builtin (key : String) : Option Connection := builtinConnections.find? (·.key = key)

/-- The row, else its built-in mirror; the mirror also for a row that breaks the
policy. -/
def Registry.connectionOrBuiltin (g : Registry) (key : String) : Option Connection :=
  match g.connection key, builtin key with
  | some row, some mirror => if row.policyProblems ≠ [] then some mirror else some row
  | some row, none => some row
  | none, mirror => mirror

/-- The Bedrock connections a profile may name: satellites first, each by key. -/
def Registry.bedrockConnectionKeys (g : Registry) : List String :=
  let rows := builtinConnections.filter (fun b => (g.connection b.key).isNone) ++ g.connections
  let usable := rows.filter fun c =>
    c.kind = .bedrock ∧ (c.authMode = .assumeRole ∨ c.authMode = .taskRole)
  (sortBy (fun c : Connection => (toLex (if c.authMode = .assumeRole then 0 else 1, c.key) : Nat ×ₗ String))
    usable).map (·.key)

/-- The preferred account if it serves the model, else the first that does. -/
def CatalogModel.accountFor (g : Registry) (m : CatalogModel) (preferred : String) : Option String :=
  let serving := g.bedrockConnectionKeys
  if preferred ∈ serving ∧ (m.bedrockProfileIds.lookup preferred).isSome then some preferred
  else serving.find? fun account => (m.bedrockProfileIds.lookup account).isSome

/-! ## Where a model may be called -/

/-- The connection kinds with an adapter for an API style. -/
def adapters : Kind → List ApiStyle
  | .bedrock => [.converse, .anthropicNative, .embed]
  | .anthropic => [.converse, .anthropicMessages]
  | .openai => [.openaiChat]
  | .azureOpenai => [.openaiChat]
  | .bedrockGuardrails => []
  | .mock => []

/-- `_callable`: the gateway has a way to call the model on the connection. -/
def callable (m : CatalogModel) (c : Connection) : Bool :=
  if m.apiStyle ∉ adapters c.kind then false
  else
    match c.kind with
    | .bedrock => c.authMode = .assumeRole || c.authMode = .taskRole
    | .anthropic => m.key ∉ legacyKeys && m.vendor = "anthropic" && c.policyProblems = []
    | .openai => m.provider = "openai" && c.policyProblems = []
    | .azureOpenai => m.provider ∈ ["openai", "azure_openai"] && c.policyProblems = []
    | .bedrockGuardrails => c.policyProblems = []
    | .mock => c.policyProblems = []

/-- The deployments on known connections that can be called. -/
def callableRows (g : Registry) (m : CatalogModel) : List Target :=
  (g.deployments m.key).filterMap fun d =>
    (g.connection d.connectionKey).bind fun c => if callable m c then some ⟨d, c⟩ else none

def described (g : Registry) (m : CatalogModel) : Bool :=
  g.connections ≠ [] && callableRows g m ≠ []

/-- What a call goes by: the stage's scopes, perhaps narrowed, role and class. -/
structure Bound where
  scopes : Option (List DataScope)
  role : Option String
  pii : PiiClass
deriving Repr, DecidableEq

/-- One callable row against the candidates before it: enabled, of the role, and of
the data policy; without a stage policy a vendor row only in front. -/
def keeps (b : Bound) (before : List Target) (t : Target) : Bool :=
  t.deployment.enabled && t.connection.enabled && servesRole t.connection b.role &&
  piiAllows b.pii t.connection.dataScope (some t.deployment.wireId) t.connection.region
    t.connection.kind &&
  match b.scopes with
  | some scopes => t.connection.dataScope ∈ scopes
  | none => before = [] || t.connection.dataScope = .awsOnly

def candidates (b : Bound) (rows : List Target) : List Target :=
  rows.foldl (fun before t => if keeps b before t then before ++ [t] else before) []

/-- `_first_enabled`: the first enabled deployment on an enabled connection. -/
def firstEnabled (g : Registry) (m : CatalogModel) : Option Target :=
  ((g.deployments m.key).filter (·.enabled)).findSome? fun d =>
    (g.connection d.connectionKey).bind fun c => if c.enabled then some ⟨d, c⟩ else none

/-- `_usable`: an Anthropic connection, for an Anthropic model. -/
def usable (m : CatalogModel) (found : Option Target) : Option Target :=
  found.filter fun t =>
    t.connection.kind = .anthropic && m.key ∉ legacyKeys && m.vendor = "anthropic"

/-- `vendor_deployment_for`, before the budget. -/
def vendorRow (g : Registry) (m : CatalogModel) (b : Bound) : Option Target :=
  (usable m (firstEnabled g m)).filter fun t =>
    servesRole t.connection b.role && allows b.scopes t.connection.dataScope

/-- The deployment a pin names, if the data policy allows it. -/
def pinnedDeployment (g : Registry) (m : CatalogModel) (connectionKey : String) (b : Bound) :
    Option Target :=
  match (g.deployments m.key).find? (·.connectionKey = connectionKey), g.connection connectionKey with
  | some d, some c =>
    (usable m (if d.enabled && c.enabled then some ⟨d, c⟩ else none)).filter fun t =>
      allows b.scopes t.connection.dataScope &&
      piiAllows b.pii t.connection.dataScope (some t.deployment.wireId) t.connection.region
        t.connection.kind
  | _, _ => none

/-- `route_reach`: the scopes of the connections the model may be called on now, and
of every callable row. -/
def routeReach (g : Registry) (m : CatalogModel) (role : Option String) :
    Option (List DataScope × List DataScope) :=
  if described g m then
    some
      ( ((callableRows g m).filter fun t =>
          t.deployment.enabled && t.connection.enabled && servesRole t.connection role).map
          (·.connection.dataScope),
        (callableRows g m).map (·.connection.dataScope) )
  else none

end CisApp.Policy
