import CisApp.Lib.Dict
import CisApp.Lib.Run
import CisApp.Routes.Spans

/-!
# One run of route detection

`run_route_detection` of `services/acp_contract/route_detection.py`: every family
gets a hub, the one that its tours' current Routes overlap most, else the oldest
free one of its name, else a new one; then the Routes with their hubs are compared
with the current rows, and what differs is superseded and inserted as a new version.

Hubs are written one by one, the rows in one transaction: an `INSERT` that meets the
primary key `route_id` or the unique index of the current identities raises, and the
rows stay as they were.  Ratios are exact.
-/

namespace CisApp.Routes

open Lib

structure Hub where
  name : String
  createdAt : Nat
deriving Repr, DecidableEq

structure Identity where
  tourId : String
  firstDay : Int
  lastDay : Int
deriving Repr, DecidableEq

/-- A row of `acp_contract.route`, stored under its `route_id`. -/
structure RouteRow where
  identity : Identity
  version : Nat
  hubId : Option String
  hubName : String
  segmentIds : List String
  superseded : Bool
deriving Repr, DecidableEq

structure Db where
  hubs : Table String Hub
  routes : Table String RouteRow

def Db.empty : Db := ⟨Table.empty, Table.empty⟩

/-- What an `INSERT` gives a new hub: an id that no hub has, and the time. -/
structure Mint where
  newId : List String → String
  fresh : ∀ l, newId l ∉ l
  createdAt : List String → Nat

def Route.identity (r : Route) : Identity := ⟨r.tourId, r.firstDay, r.lastDay⟩

/-! ## What is stored -/

def Db.current (db : Db) : List (String × RouteRow) := db.routes.rows.filter fun e => !e.2.superseded

def Db.toursIn (db : Db) (hub : String) : Finset String :=
  ((db.current.filter fun e => e.2.hubId = some hub).map fun e => e.2.identity.tourId).toFinset

/-- `old_hubs`: the hubs that have current Routes. -/
def Db.oldHubs (db : Db) : List (String × Finset String) :=
  (db.hubs.rows.map fun e => (e.1, db.toursIn e.1)).filter fun e => 0 < e.2.card

def Db.existing (db : Db) : Table Identity (String × RouteRow) := Table.dictBy (fun e => e.2.identity) db.current

def Db.maxVersion (db : Db) (i : Identity) : Option Nat :=
  ((db.routes.rows.filter fun e => e.2.identity = i).map fun e => e.2.version).max?

/-! ## Hubs -/

structure Match where
  hub : Option String
  ratio : ℚ
  overlap : Nat
deriving DecidableEq

def Match.rank (m : Match) : ℚ ×ₗ Nat ×ₗ String := toLex (m.ratio, toLex (m.overlap, m.hub.getD ""))

def bestHubMatch (members : Finset String) (old : List (String × Finset String)) : Match :=
  old.foldl (fun best e =>
    let inter := (members ∩ e.2).card
    if inter = 0 then best
    else
      let found : Match := ⟨some e.1, inter / (members ∪ e.2).card, inter⟩
      if best.rank < found.rank then found else best) ⟨none, 0, 0⟩

/-- The oldest hub of the name that is not taken. -/
def namedHub (hubs : Table String Hub) (name : String) (taken : List String) : Option String :=
  (Table.firstBy (fun x y => toLex (x.2.createdAt, x.1) ≤ toLex (y.2.createdAt, y.1))
    (hubs.rows.filter fun e => e.2.name = name && e.1 ∉ taken)).map Prod.fst

/-- The hubs of the families so far: key, hub and name of the hub. -/
structure Resolving where
  hubs : Table String Hub
  resolved : List (String × String × String)
  created : Nat

def Db.overlapHub (db : Db) (f : Family) : Option String :=
  let best := bestHubMatch f.tours db.oldHubs
  best.hub.filter fun _ => 3 / 10 ≤ best.ratio

def Resolving.add (st : Resolving) (f : Family) (hub name : String) : Resolving :=
  { st with resolved := st.resolved ++ [(f.key, hub, name)] }

def resolve (W : Mint) (db : Db) (st : Resolving) (f : Family) : Resolving :=
  match db.overlapHub f with
  | some hub => st.add f hub (((db.hubs.get? hub).map Hub.name).getD "")
  | none =>
    match namedHub st.hubs f.name (st.resolved.map fun e => e.2.1) with
    | some hub => st.add f hub f.name
    | none =>
      let ids := st.hubs.rows.map Prod.fst
      { hubs := st.hubs.insert (W.newId ids) ⟨f.name, W.createdAt ids⟩
        resolved := st.resolved ++ [(f.key, W.newId ids, f.name)]
        created := st.created + 1 }

def resolveAll (W : Mint) (db : Db) (families : List Family) : Resolving :=
  families.foldl (resolve W db) ⟨db.hubs, [], 0⟩

/-! ## The diff -/

/-- A Route with its hub; a tour without a family has none. -/
def finish (P : Plan) (resolved : List (String × String × String)) (r : Route) : Route :=
  match (P.familyOf.get? r.tourId).bind fun key => resolved.lookup key with
  | some (hub, name) => { r with hubId := some hub, hubName := name }
  | none => { r with hubId := none, hubName := journeyName r.places }

def finishedBy (P : Plan) (resolved : List (String × String × String)) : Table Identity Route :=
  Table.dictBy Route.identity (P.routes.map (finish P resolved))

def unchanged (r : Route) (old : RouteRow) : Bool :=
  r.segmentIds = old.segmentIds && r.hubId = old.hubId && r.hubName = old.hubName

def Route.versionId (r : Route) (version : Nat) : String := r.routeId ++ ":v" ++ toString version

def Route.row (r : Route) (version : Nat) : RouteRow := ⟨r.identity, version, r.hubId, r.hubName, r.segmentIds, false⟩

/-- The row that a finished Route asks for, `none` where the current one is the same. -/
def Db.insertFor (db : Db) (i : Identity) (r : Route) : Option (String × RouteRow) :=
  match db.existing.get? i with
  | none =>
    match db.maxVersion i with
    | none => some (r.routeId, r.row 1)
    | some priorMax => some (r.versionId (priorMax + 1), r.row (priorMax + 1))
  | some (_, old) =>
    if unchanged r old then none
    else
      let newVersion := max old.version ((db.maxVersion i).getD old.version) + 1
      some (r.versionId newVersion, r.row newVersion)

def Db.toInsert (db : Db) (finished : Table Identity Route) : List (String × RouteRow) :=
  finished.rows.filterMap fun e => db.insertFor e.1 e.2

/-- The current rows that are replaced, then those whose identity is gone. -/
def Db.toSupersede (db : Db) (finished : Table Identity Route) : List String :=
  (finished.rows.filterMap fun e =>
    (db.existing.get? e.1).bind fun x => if unchanged e.2 x.2 then none else some x.1) ++
  (db.existing.rows.filter fun e => (finished.get? e.1).isNone).map fun e => e.2.1

/-! ## The writes -/

def supersede (routes : Table String RouteRow) (ids : List String) : Table String RouteRow :=
  routes.update (fun id _ => id ∈ ids) fun _ row => { row with superseded := true }

def refused (routes : Table String RouteRow) (e : String × RouteRow) : Bool :=
  (routes.get? e.1).isSome || routes.rows.any fun x => !x.2.superseded && x.2.identity = e.2.identity

/-- `executemany`: `none` where a row is refused. -/
def insertRows? : Table String RouteRow → List (String × RouteRow) → Option (Table String RouteRow)
  | routes, [] => some routes
  | routes, e :: rest => if refused routes e then none else insertRows? (routes.insert e.1 e.2) rest

def Db.write? (db : Db) (finished : Table Identity Route) : Option (Table String RouteRow) :=
  insertRows? (supersede db.routes (db.toSupersede finished)) (db.toInsert finished)

structure Report where
  routesWritten : Nat
  routesSuperseded : Nat
  hubsCreated : Nat
deriving Repr, DecidableEq

def detect (W : Mint) (P : Plan) (db : Db) : Db × Option Report :=
  let st := resolveAll W db P.families
  let finished := finishedBy P st.resolved
  match db.write? finished with
  | some routes =>
    (⟨st.hubs, routes⟩, some ⟨(db.toInsert finished).length, (db.toSupersede finished).length, st.created⟩)
  | none => (⟨st.hubs, db.routes⟩, none)

def runRouteDetection (W : Mint) (R : Ranking) (db : Db) : Db × Option Report := detect W (plan R) db

/-- Runs over any rankings, and hubs that are renamed between them. -/
inductive Event where
  | detect (W : Mint) (R : Ranking)
  | rename (hub name : String)

def step (db : Db) : Event → Db
  | .detect W R => (runRouteDetection W R db).1
  | .rename hub name => { db with hubs := db.hubs.update (fun k _ => k = hub) fun _ h => { h with name } }

end CisApp.Routes
