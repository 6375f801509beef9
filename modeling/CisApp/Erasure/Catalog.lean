import CisApp.Lib.Sorted
import CisApp.Lib.Table

/-! What the erasure planner is given: the rows, the catalog and the inventory.

A row is its non-NULL columns, and the database keeps the rows of all tables under their table's
name and an id of their own.  A foreign key (`Edge`) links a child row to the parent row whose key
columns it repeats; a NULL in one of the child's columns links nothing (`MATCH SIMPLE`).

An inventory entry selects rows by a SQL text over the alias `{t}`.  The planner reads such a text
in one place only, for its beginning (`same_tenant_link`); apart from that it is what it selects,
so a `Template` is its text and the rows for which it is true. -/

namespace CisApp.Erasure

abbrev Val := String

abbrev Row := List (String × Val)

/-- The rows of every table, each with an id of its own. -/
abbrev Db := Table (String × Nat) Row

def Db.of (db : Db) (table : String) : List Row :=
  (db.rows.filter fun x => x.1.1 = table).map Prod.snd

/-! ## The catalog -/

/-- `pg_constraint.confdeltype`. -/
inductive DelType where
  | noAction
  | restrict
  | cascade
  | setNull
  | setDefault
deriving Repr, DecidableEq

/-- A foreign key. -/
structure Edge where
  conname : String
  child : String
  parent : String
  childCols : List String
  parentCols : List String
  childNullable : Bool
  deltype : DelType
deriving Repr, DecidableEq

def Edge.key (e : Edge) : String × String := (e.conname, e.child)

/-- `(child cols) = (parent cols)` is true: no column is NULL and all agree. -/
def Edge.links (e : Edge) (child parent : Row) : Bool :=
  (e.childCols.zip e.parentCols).all fun x =>
    (child.lookup x.1).isSome && child.lookup x.1 == parent.lookup x.2

/-- The catalog of the CIS schemas, as `load_catalog` reads it. -/
structure Catalog where
  tables : List String
  tenantColumns : List (String × String)
  tenantKeys : List (String × List String)
  edges : List Edge
  nodup : (edges.map Edge.key).Nodup

/-- Tables that hold a tenant key (`key_tables`). -/
def Catalog.keyTables (c : Catalog) : List String :=
  (c.tenantColumns.map Prod.fst ++ c.tenantKeys.map Prod.fst).dedup

theorem Catalog.edge_eq_of_key {c : Catalog} {e e' : Edge} (he : e ∈ c.edges) (he' : e' ∈ c.edges)
    (h : e.key = e'.key) : e = e' :=
  List.inj_on_of_nodup_map c.nodup he he' h

def cisSchemas : List String :=
  ["acp_contract", "acp_deliver", "acp_shared", "geo", "gold_aa_internal", "shared",
    "silver_aa_internal"]

def quarantineSchemas : List String := ["retired"]

def schemaOf (table : String) : String := String.ofList (table.toList.takeWhile (· != '.'))

/-! ## The inventory -/

/-- A predicate over a table's rows: its SQL text and the rows it is true for, given `$1`. -/
structure Template where
  text : String
  holds : Val → Db → Row → Bool

inductive Action where
  | delete
  | detach
  | merge
  | keep
  | cascade
deriving Repr, DecidableEq

/-- An inventory entry. -/
structure TenantTable where
  table : String
  action : Action
  where? : Option Template := none
  nullAlso : List String := []
  whereAny : List (Template × List String) := []
  registered : action ≠ .cascade

/-- The predicate of a table with a `tenant_id` column of this type. -/
def defaultTemplate (typ : String) : Template where
  text := if typ = "uuid" then "\x7bt\x7d.tenant_id = $1::uuid" else "\x7bt\x7d.tenant_id::text = $1::text"
  holds := fun tenant _ row => row.lookup "tenant_id" == some tenant

/-- Branches joined with OR. -/
def anyTemplate : List Template → Template
  | [t] => t
  | ts =>
    { text := " OR ".intercalate (ts.map fun t => "(" ++ t.text ++ ")")
      holds := fun tenant db row => ts.any fun t => t.holds tenant db row }

/-- The predicate of an entry on this database and the tables it reads; `none` when it cannot be
planned (`_registry_template`). -/
def registryTemplate (t : TenantTable) (c : Catalog) : Option (Template × List String) :=
  if t.whereAny ≠ [] then
    let used := t.whereAny.filter fun b => b.2.all (· ∈ c.tables)
    if used = [] then none
    else
      let soft := (used.flatMap Prod.snd).filter (· ≠ t.table)
      some (anyTemplate (used.map Prod.fst), Lib.sortBy id soft.dedup)
  else
    match t.where? with
    | some w => some (w, [])
    | none => (c.tenantColumns.lookup t.table).map fun typ => (defaultTemplate typ, [])

abbrev Registry := List TenantTable

def Registry.names (r : Registry) : List String := r.map TenantTable.table

end CisApp.Erasure
