import CisApp.Erasure.Catalog

/-! The tenant plan (`plan_tenant`).

The inventory's entries become the first nodes.  From every deleted table a walk over the foreign
keys then looks at the tables that point at it: a child without a node and without a tenant key
becomes a `cascade` node and is walked from in turn, a child with a node of its own is left for a
check, and so on (`visitEdge`, one case for each kind of child).  The checks are counts that must
be 0 before an apply, or static findings that always block it.

`predicate` builds nested sub-selects: a row of a cascade table is in the erasure when it points at
a row that is, along any foreign key the walk found, except those that lead back to a table the
nesting already went through. -/

namespace CisApp.Erasure

/-! ## Nodes and predicates -/

structure Node where
  action : Action
  template : Option Template := none
  via : List Edge := []
  nullAlso : List String := []
  softParents : List String := []

abbrev Nodes := Table String Node

def Action.deletes : Action → Bool
  | .delete => true
  | .cascade => true
  | _ => false

def Nodes.action? (nodes : Nodes) (table : String) : Option Action :=
  (nodes.get? table).map Node.action

def Nodes.deleted (nodes : Nodes) (table : String) : Bool :=
  (nodes.action? table).any Action.deletes

/-- Some row of `table` that the foreign key links to satisfies `p`. -/
def pointsAt (db : Db) (e : Edge) (p : Row → Bool) (row : Row) : Bool :=
  (db.of e.parent).any fun parent => e.links row parent && p parent

/-- The WHERE clause of `predicate` for a row, below the tables of `seen`.  Every level goes through
a table not seen before, so as many levels as there are nodes are enough. -/
def selectsFrom (nodes : Nodes) (tenant : Val) (db : Db) : Nat → List String → String → Row → Bool
  | 0, _, _, _ => false
  | fuel + 1, seen, table, row =>
    match nodes.get? table with
    | none => false
    | some node =>
      match node.template with
      | some t => t.holds tenant db row
      | none =>
        node.via.any fun e =>
          !(table :: seen).contains e.parent &&
            pointsAt db e (selectsFrom nodes tenant db fuel (table :: seen) e.parent) row

/-- The rows of `table` in the erasure. -/
def selects (nodes : Nodes) (tenant : Val) (db : Db) (table : String) (row : Row) : Bool :=
  selectsFrom nodes tenant db nodes.rows.length [] table row

/-! ## The walk -/

def maxDepth : Nat := 8

inductive ChildKind where
  | quarantined
  | foreign
  | registered
deriving Repr, DecidableEq

/-- A finding of the plan. -/
inductive Check where
  | tooDeep (e : Edge)
  | unsupportedCycle (tables : List String)
  | unregistered (table : String)
  | quarantinedChild (e : Edge)
  | foreignOwner (e : Edge)
  | crossTenant (e : Edge)
  | keptRowReference (e : Edge)
  | selfReference (e : Edge)
deriving Repr, DecidableEq

structure Walk where
  nodes : Nodes
  visited : List (String × String) := []
  pending : List (ChildKind × Edge) := []
  checks : List Check := []
  frontier : List (String × Nat)

def Walk.defer (w : Walk) (kind : ChildKind) (e : Edge) : Walk :=
  { w with pending := w.pending ++ [(kind, e)] }

/-- A further foreign key that reaches a cascade table. -/
def addVia (nodes : Nodes) (e : Edge) : Nodes :=
  nodes.update (fun table _ => table = e.child) fun _ n => { n with via := n.via ++ [e] }

/-- One foreign key into a deleted table at `depth`. -/
def visitEdge (c : Catalog) (depth : Nat) (w : Walk) (e : Edge) : Walk :=
  if e.key ∈ w.visited ∨ e.child = e.parent then w
  else
    let w := { w with visited := w.visited ++ [e.key] }
    if schemaOf e.child ∈ quarantineSchemas then w.defer .quarantined e
    else if schemaOf e.child ∉ cisSchemas then w.defer .foreign e
    else
      match w.nodes.get? e.child with
      | some node =>
        if node.action = .cascade then { w with nodes := addVia w.nodes e }
        else w.defer .registered e
      | none =>
        if e.child ∈ c.keyTables then w
        else if maxDepth < depth + 1 then { w with checks := w.checks ++ [.tooDeep e] }
        else
          { w with
            nodes := w.nodes.upsert e.child { action := .cascade, via := [e] }
            frontier := w.frontier ++ [(e.child, depth + 1)] }

def Catalog.byParent (c : Catalog) (table : String) : List Edge :=
  c.edges.filter fun e => e.parent = table

/-- The walk over the frontier.  A table joins it with a foreign key of its own, so there are at
most as many rounds as tables in it and foreign keys together. -/
def walkFrom (c : Catalog) : Nat → Walk → Walk
  | 0, w => w
  | fuel + 1, w =>
    match w.frontier with
    | [] => w
    | (parent, depth) :: rest =>
      walkFrom c fuel ((c.byParent parent).foldl (visitEdge c depth) { w with frontier := rest })

/-- The nodes of the inventory. -/
def addEntry (c : Catalog) (nodes : Nodes) (t : TenantTable) : Nodes :=
  if t.table ∉ c.tables then nodes
  else
    match registryTemplate t c with
    | none => nodes
    | some (template, soft) =>
      nodes.upsert t.table
        { action := t.action, template := some template, nullAlso := t.nullAlso, softParents := soft }

def registryNodes (r : Registry) (c : Catalog) : Nodes := r.foldl (addEntry c) Table.empty

/-- Inventory tables that are absent or cannot be planned. -/
def missingTables (r : Registry) (c : Catalog) : List String :=
  Lib.sortBy id ((r.filter fun t =>
    t.table ∉ c.tables || (registryTemplate t c).isNone).map TenantTable.table)

/-- Tenant tables without an entry. -/
def unregisteredTables (r : Registry) (c : Catalog) : List String :=
  Lib.sortBy id (c.keyTables.filter (· ∉ r.names))

def startWalk (r : Registry) (c : Catalog) : Walk :=
  let nodes := registryNodes r c
  { nodes, frontier := (nodes.rows.filter fun x => x.2.action.deletes).map fun x => (x.1, 0) }

def walk (r : Registry) (c : Catalog) : Walk :=
  let w := startWalk r c
  walkFrom c (w.frontier.length + c.edges.length) w

/-! ## The delete order -/

/-- A table whose predicate reads another must be deleted before it. -/
def softEdges (nodes : Nodes) : List Edge :=
  (nodes.rows.filter fun x => x.2.action.deletes).flatMap fun x =>
    (x.2.softParents.filter nodes.deleted).map fun sp =>
      { conname := "soft:" ++ x.1 ++ "->" ++ sp, child := x.1, parent := sp, childCols := [],
        parentCols := [], childNullable := false, deltype := .noAction }

/-- The foreign keys among the deleted tables, by name. -/
def liveEdges (nodes : Nodes) (edges : List Edge) : List Edge :=
  let own := edges.filter fun e =>
    nodes.deleted e.child && nodes.deleted e.parent && e.child ≠ e.parent
  Lib.sortBy (fun e => toLex (e.conname, e.child)) (own ++ softEdges nodes).dedup

/-- Order so far, keys to null first, and the tables of a cycle that cannot be broken. -/
structure DeleteOrder where
  order : List String := []
  nullFirst : List Edge := []
  cycle : List String := []
deriving Repr, DecidableEq

/-- No remaining table points at `table`. -/
def ready (live : List Edge) (remaining : List String) (table : String) : Bool :=
  !live.any fun e => e.parent = table && remaining.contains e.child && e.child ≠ table

def orderFrom : Nat → List Edge → List String → DeleteOrder → DeleteOrder
  | 0, _, _, d => d
  | fuel + 1, live, remaining, d =>
    if remaining = [] then d
    else
      let free := Lib.sortBy id (remaining.filter (ready live remaining))
      if free ≠ [] then
        orderFrom fuel live (remaining.filter (· ∉ free)) { d with order := d.order ++ free }
      else
        match live.find? fun e =>
          remaining.contains e.child && remaining.contains e.parent && e.childNullable with
        | none =>
          { d with order := d.order ++ Lib.sortBy id remaining, cycle := Lib.sortBy id remaining }
        | some e => orderFrom fuel (live.erase e) remaining { d with nullFirst := d.nullFirst ++ [e] }

/-- Children before parents; a cycle is broken by nulling a nullable foreign key first. -/
def deleteOrder (nodes : Nodes) (edges : List Edge) : DeleteOrder :=
  let deleted := (nodes.rows.filter fun x => x.2.action.deletes).map Prod.fst
  let live := liveEdges nodes edges
  orderFrom (deleted.length + live.length) live deleted {}

/-! ## The plan -/

def Template.ofTenantId (t : Template) : Bool :=
  "\x7bt\x7d.tenant_id".toList.isPrefixOf t.text.toList

/-- A tenant_id link between two tables whose predicates begin with `{t}.tenant_id`. -/
def sameTenantLink (e : Edge) (child parent : Node) : Bool :=
  e.childCols == ["tenant_id"] && e.parentCols == ["tenant_id"] &&
    child.template.any Template.ofTenantId && parent.template.any Template.ofTenantId

/-- The check of a foreign key the walk left for later. -/
def pendingCheck (nodes : Nodes) (p : ChildKind × Edge) : List Check :=
  let e := p.2
  match p.1 with
  | .quarantined => [.quarantinedChild e]
  | .foreign => [.foreignOwner e]
  | .registered =>
    match nodes.get? e.child, nodes.get? e.parent with
    | some child, some parent =>
      if child.action = .delete then
        if sameTenantLink e child parent then [] else [.crossTenant e]
      else if (child.action = .detach ∨ child.action = .merge) ∧ e.childCols = ["tenant_id"] then []
      else if e.deltype = .setNull then []
      else [.keptRowReference e]
    | _, _ => []

/-- Foreign keys of a deleted table to itself. -/
def selfChecks (nodes : Nodes) (edges : List Edge) : List Check :=
  (edges.filter fun e => e.child = e.parent && nodes.deleted e.child).map Check.selfReference

structure TenantPlan where
  nodes : Nodes
  checks : List Check
  order : List String
  nullFirst : List Edge
  unregistered : List String
  missing : List String

def planTenant (r : Registry) (c : Catalog) : TenantPlan :=
  let w := walk r c
  let d := deleteOrder w.nodes c.edges
  { nodes := w.nodes
    checks := w.checks ++ w.pending.flatMap (pendingCheck w.nodes) ++ selfChecks w.nodes c.edges ++
      (if d.cycle = [] then [] else [.unsupportedCycle d.cycle]) ++
      (unregisteredTables r c).map Check.unregistered
    order := d.order
    nullFirst := d.nullFirst
    unregistered := unregisteredTables r c
    missing := missingTables r c }

/-! ## The checks -/

/-- A static finding: it has no count and always blocks. -/
def Check.static : Check → Bool
  | .tooDeep _ => true
  | .unsupportedCycle _ => true
  | .unregistered _ => true
  | _ => false

/-- The tables a finding names. -/
def Check.tables : Check → List String
  | .tooDeep e => [e.child]
  | .unsupportedCycle tables => tables
  | .unregistered table => [table]
  | .quarantinedChild e => [e.child]
  | .foreignOwner e => [e.child]
  | .crossTenant e => [e.child]
  | .keptRowReference e => [e.child]
  | .selfReference e => [e.child]

/-- The rows of the child that point at rows of the parent in the erasure. -/
def referring (nodes : Nodes) (tenant : Val) (db : Db) (e : Edge) : List Row :=
  (db.of e.child).filter (pointsAt db e (selects nodes tenant db e.parent))

/-- What `count_tenant` counts for a check. -/
def Check.count (nodes : Nodes) (tenant : Val) (db : Db) : Check → Nat
  | .tooDeep _ => 0
  | .unsupportedCycle _ => 0
  | .unregistered _ => 0
  | .quarantinedChild e => (referring nodes tenant db e).length
  | .foreignOwner e => (referring nodes tenant db e).length
  | .keptRowReference e => (referring nodes tenant db e).length
  | .crossTenant e =>
    ((referring nodes tenant db e).filter fun row => !selects nodes tenant db e.child row).length
  | .selfReference e =>
    ((referring nodes tenant db e).filter fun row => !selects nodes tenant db e.child row).length

end CisApp.Erasure
