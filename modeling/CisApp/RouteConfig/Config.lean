import CisApp.Lib.Sorted
import CisApp.Lib.Table
import CisApp.Lib.Text

/-!
# Route configs

A route config is what the admin route control edits: the order mode, the chain
of models of every stage (`llm_role_config`) and the priority of every
connection of a model (`llm_model_deployment`).  The nested dict
`{model: {connection: priority}}` of a snapshot is the table of the pairs.

`diff` compares two configs by what the gateway does with them: the order mode,
the chains, and for every model the order of its connections, not their numbers.
`buildTarget` is a proposal put on top of the live config, `applyWrites` the
`UPDATE`s of an apply: only what the preview's diff names.
-/

namespace CisApp.RouteConfig

open Lib

inductive OrderMode
  | modelFirst
  | awsFirst
deriving DecidableEq

/-- `ORDER_MODES` -/
def OrderMode.ofText? : String → Option OrderMode
  | "model_first" => some .modelFirst
  | "aws_first" => some .awsFirst
  | _ => none

def OrderMode.text : OrderMode → String
  | .modelFirst => "model_first"
  | .awsFirst => "aws_first"

structure Route where
  modelId : String
  fallbackModelIds : List String
deriving DecidableEq

abbrev Routes := Table String Route

abbrev Priorities := Table (String × String) Int

structure Config where
  orderMode : OrderMode
  routes : Routes
  priorities : Priorities

/-! ## Snapshots compared -/

def chainOf (r : Route) : List String := (r.modelId :: r.fallbackModelIds).filter (· ≠ "")

/-- `priorities[model]` -/
def connsOf (p : Priorities) (model : String) : List (String × Int) :=
  p.rows.filterMap fun x => if x.1.1 = model then some (x.1.2, x.2) else none

def providerOrder (conns : List (String × Int)) : List String :=
  (sortBy (fun x => toLex (x.2, x.1)) conns).map Prod.fst

/-- The order of a model's connections, `none` for a model the snapshot does not have. -/
def orderOf (p : Priorities) (model : String) : Option (List String) :=
  if (connsOf p model).isEmpty then none else some (providerOrder (connsOf p model))

inductive Change
  | orderMode (before : Option OrderMode) (after : OrderMode)
  | route (stage : String) (before after : Option (List String))
  | providerOrder (model : String) (before after : Option (List String))
deriving DecidableEq

/-- `sorted(set(a) | set(b))` -/
def sortedUnion (a b : List String) : List String := sortBy id (a ++ b).dedup

def Config.stages (c : Config) : List String := c.routes.rows.map Prod.fst

def Config.models (c : Config) : List String := c.priorities.rows.map fun x => x.1.1

def Config.chain? (c : Config) (stage : String) : Option (List String) := (c.routes.get? stage).map chainOf

/-- The keys of `llm_model_deployment`. -/
def Config.deployments (c : Config) : List (String × String) := c.priorities.rows.map Prod.fst

def diff (before after : Config) : List Change :=
  (if before.orderMode ≠ after.orderMode then [.orderMode (some before.orderMode) after.orderMode] else []) ++
    (sortedUnion before.stages after.stages).filterMap (fun stage =>
      if before.chain? stage ≠ after.chain? stage then some (.route stage (before.chain? stage) (after.chain? stage))
      else none) ++
    (sortedUnion before.models after.models).filterMap fun model =>
      if orderOf before.priorities model ≠ orderOf after.priorities model then
        some (.providerOrder model (orderOf before.priorities model) (orderOf after.priorities model))
      else none

/-! ## Proposals -/

/-- What a proposal sets; `priorities` only for a revert. -/
structure Proposal where
  orderMode : Option String
  routes : List (String × List String)
  providerOrder : List (String × List String)
  priorities : List ((String × String) × Int)

/-- The shape errors of a proposal. -/
inductive Problem
  | orderMode (mode : String)
  | unknownStage (stage : String)
  | emptyChain (stage : String)
  | unknownModel (model : String)
  | providerOrder (model : String)
deriving DecidableEq

/-- `not k.strip()` -/
def blank (k : String) : Bool := (strip k.toList).isEmpty

def setOrderMode (mode : Option String) (t : Config × List Problem) : Config × List Problem :=
  match mode with
  | none => t
  | some m =>
    match OrderMode.ofText? m with
    | none => (t.1, t.2 ++ [.orderMode m])
    | some mode => ({ t.1 with orderMode := mode }, t.2)

def setRoute (stages : List String) (t : Config × List Problem) (x : String × List String) : Config × List Problem :=
  if x.1 ∈ stages then
    match x.2.filter (!blank ·) with
    | [] => (t.1, t.2 ++ [.emptyChain x.1])
    | k :: ks => ({ t.1 with routes := t.1.routes.upsert x.1 ⟨k, ks⟩ }, t.2)
  else (t.1, t.2 ++ [.unknownStage x.1])

/-- `priorities[model] = conns` -/
def setConns (p : Priorities) (model : String) (conns : List (String × Int)) : Priorities :=
  conns.foldl (fun p x => p.upsert (model, x.1) x.2) (p.delete fun k _ => k.1 = model)

def priorityStep : Int := 10

def setProviderOrder (deployments : List (String × String)) (t : Config × List Problem)
    (x : String × List String) : Config × List Problem :=
  let conns := (deployments.filter fun d => d.1 = x.1).map Prod.snd
  if conns.isEmpty then (t.1, t.2 ++ [.unknownModel x.1])
  else if sortBy id x.2 ≠ sortBy id conns ∨ ¬x.2.Nodup then (t.1, t.2 ++ [.providerOrder x.1])
  else if providerOrder (connsOf t.1.priorities x.1) = x.2 then t
  else
    let numbered := x.2.zipIdx.map fun y => (y.1, ((y.2 : Int) + 1) * priorityStep)
    ({ t.1 with priorities := setConns t.1.priorities x.1 numbered }, t.2)

/-- The exact numbers of a revert; connections that no longer exist are dropped. -/
def setPriority (deployments : List (String × String)) (p : Priorities) (x : (String × String) × Int) : Priorities :=
  if x.1 ∈ deployments then p.upsert x.1 x.2 else p

def buildTarget (live : Config) (prop : Proposal) (deployments : List (String × String)) (stages : List String) :
    Config × List Problem :=
  let t := setOrderMode prop.orderMode (live, [])
  let t := prop.routes.foldl (setRoute stages) t
  let t := prop.providerOrder.foldl (setProviderOrder deployments) t
  ({ t.1 with priorities := prop.priorities.foldl (setPriority deployments) t.1.priorities }, t.2)

/-- What the presets read of the catalog: the Claude models, the Anthropic API connections
and the AWS ones. -/
structure Catalog where
  writerFamily : String → Bool
  anthropicKind : String → Bool
  awsOnly : String → Bool

inductive Preset
  | preferAnthropicApi
  | preferAws
deriving DecidableEq

def presets : String → Option Preset
  | "prefer_anthropic_api" => some .preferAnthropicApi
  | "prefer_aws" => some .preferAws
  | _ => none

/-- The order a preset wants of one model, `none` when it is left as it is. -/
def presetOrder (cat : Catalog) (preset : Preset) (p : Priorities) (model : String) : Option (String × List String) :=
  let order := providerOrder (connsOf p model)
  if order.length < 2 then none
  else if preset = .preferAnthropicApi ∧ ¬cat.writerFamily model then none
  else
    let first := order.filter (if preset = .preferAnthropicApi then cat.anthropicKind else cat.awsOnly)
    let wanted := first ++ order.filter (!first.contains ·)
    if wanted ≠ order then some (model, wanted) else none

def presetChanges (cat : Catalog) (preset : Preset) (live : Config) : Proposal :=
  { orderMode := if preset = .preferAnthropicApi then some OrderMode.modelFirst.text else none
    routes := []
    providerOrder := live.models.dedup.filterMap (presetOrder cat preset live.priorities)
    priorities := [] }

/-- A revert; `_proposal` keeps the stages that exist. -/
def revertChanges (snapshot : Config) (stages : List String) : Proposal :=
  { orderMode := some snapshot.orderMode.text
    routes := (snapshot.routes.rows.map fun x => (x.1, chainOf x.2)).filter fun x => x.1 ∈ stages
    providerOrder := []
    priorities := snapshot.priorities.rows }

/-! ## The writes -/

/-- The `UPDATE` of a Routing tab writer: the primary model or the fallbacks of a stage. -/
inductive Patch
  | modelId (stage key : String)
  | fallbacks (stage : String) (keys : List String)
deriving DecidableEq

def Patch.stage : Patch → String
  | .modelId stage _ => stage
  | .fallbacks stage _ => stage

def Patch.set : Patch → Route → Route
  | .modelId _ key, r => { r with modelId := key }
  | .fallbacks _ keys, r => { r with fallbackModelIds := keys }

inductive Write
  | patch (p : Patch)
  | route (stage : String) (r : Route)
  | priority (model conn : String) (p : Int)
  | orderMode (mode : OrderMode)
deriving DecidableEq

def Write.perform (c : Config) : Write → Config
  | .patch p => { c with routes := c.routes.update (fun k _ => k = p.stage) fun _ r => p.set r }
  | .route stage r => { c with routes := c.routes.update (fun k _ => k = stage) fun _ _ => r }
  | .priority model conn n => { c with priorities := c.priorities.update (fun k _ => k = (model, conn)) fun _ _ => n }
  | .orderMode mode => { c with orderMode := mode }

/-- The updates of one change; `live` is the config read under the lock. -/
def changeWrites (stages : List String) (target live : Config) : Change → List Write
  | .route stage _ after =>
    if stage ∈ stages ∧ after.any (!·.isEmpty) then (target.routes.get? stage).toList.map (.route stage) else []
  | .providerOrder model _ _ =>
    (sortBy Prod.fst (connsOf target.priorities model)).filterMap fun x =>
      match live.priorities.get? (model, x.1) with
      | none => none
      | some n => if n ≠ x.2 then some (.priority model x.1 x.2) else none
  | .orderMode _ after => [.orderMode after]

def applyWrites (stages : List String) (changes : List Change) (target live : Config) : List Write :=
  changes.flatMap (changeWrites stages target live)

end CisApp.RouteConfig
