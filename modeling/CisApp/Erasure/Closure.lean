import CisApp.Erasure.Walk

/-! Whether the erasure set is closed under the foreign keys.

A row of a table without a tenant key belongs to the erasure when a chain of references leads from
it to a row that an entry selects (`Reaches`).  `predicate` follows the chains that pass no table
twice (`selects_iff`).  So a row all of whose chains come back to a table is left out although a row
it points at is erased, and no check counts it: its foreign key is on the walk.

With no static finding and every count 0, what remains open besides is the foreign keys the plan
counts nothing for: a `tenant_id` link whose child has further conditions in its predicate, and the
foreign keys of a tenant table that could not be planned (`erasure_closed_iff`). -/

namespace CisApp.Erasure

open List

variable {r : Registry} {c : Catalog} {tenant : Val} {db : Db}

/-! ## Chains of references -/

/-- The predicate of an inventory node. -/
def Node.holds (n : Node) (tenant : Val) (db : Db) (row : Row) : Bool :=
  n.template.any fun t => t.holds tenant db row

/-- A table of the CIS schemas without a tenant key and without a plannable entry. -/
structure Keyless (r : Registry) (c : Catalog) (table : String) : Prop where
  entry : (registryNodes r c).get? table = none
  key : table ∉ c.keyTables
  cis : schemaOf table ∈ cisSchemas

/-- A chain of references through the tables of `path` to a row that an entry deletes. -/
inductive Reaches (r : Registry) (c : Catalog) (tenant : Val) (db : Db) :
    List String → String → Row → Prop where
  | own {table : String} {n : Node} {row : Row} (hn : (registryNodes r c).get? table = some n)
    (hact : n.action = .delete) (h : n.holds tenant db row = true) :
    Reaches r c tenant db [table] table row
  | link {e : Edge} {row parent : Row} {path : List String} (he : e ∈ c.edges)
    (hchild : Keyless r c e.child) (hparent : parent ∈ db.of e.parent)
    (hlink : e.links row parent = true) (h : Reaches r c tenant db path e.parent parent) :
    Reaches r c tenant db (e.child :: path) e.child row

variable {path : List String} {table : String} {row : Row}

theorem Reaches.head (h : Reaches r c tenant db path table row) : table ∈ path := by
  cases h with
  | own _ _ _ => exact List.mem_singleton.2 rfl
  | link _ _ _ _ _ => exact mem_cons_self

variable {e : Edge}

theorem pointsAt_iff {p : Row → Bool} :
    pointsAt db e p row = true ↔ ∃ parent ∈ db.of e.parent, e.links row parent = true ∧ p parent = true := by
  simp only [pointsAt, any_eq_true, Bool.and_eq_true]

def NotDeep (r : Registry) (c : Catalog) : Prop := (walk r c).checks = []

theorem Keyless.via (hdeep : NotDeep r c) (he : e ∈ c.edges) (hchild : Keyless r c e.child)
    (hne : e.child ≠ e.parent) (hparent : (walk r c).nodes.deleted e.parent = true) :
    ∃ n, (walk r c).nodes.get? e.child = some n ∧ n.action = .cascade ∧ e ∈ n.via := by
  cases walk_done he hparent hne with
  | defer kind hkind _ =>
    cases kind with
    | quarantined =>
      have hcis := hchild.cis
      rw [List.mem_singleton.1 hkind] at hcis
      exact absurd hcis (by decide)
    | foreign => exact absurd hchild.cis hkind
    | registered =>
      obtain ⟨n, hn, hact⟩ := hkind
      rcases (walk_inv r c).1.cascade _ n hn with hreg | hcas
      · rw [hchild.entry] at hreg
        cases hreg
      · exact absurd hcas.action hact
  | cascade hn hact hvia => exact ⟨_, hn, hact, hvia⟩
  | unplanned hkey _ => exact absurd hkey hchild.key
  | tooDeep h =>
    rw [hdeep] at h
    cases h

theorem Reaches.deleted (hdeep : NotDeep r c)
    (h : Reaches r c tenant db path table row) : (walk r c).nodes.deleted table = true := by
  induction h with
  | own hn hact _ =>
    rw [deleted_of_get? ((walk_inv r c).1.registered _ _ hn), hact]
    rfl
  | @link e _ _ _ he hchild _ _ _ ih =>
    by_cases hself : e.child = e.parent
    · rw [hself]
      exact ih
    · obtain ⟨n, hn, hact, -⟩ := hchild.via hdeep he hself ih
      rw [deleted_of_get? hn, hact]
      rfl

theorem Reaches.path_deleted (hdeep : NotDeep r c) (h : Reaches r c tenant db path table row) :
    ∀ t ∈ path, (walk r c).nodes.deleted t = true := by
  induction h with
  | own hn hact hh =>
    intro t ht
    rw [List.mem_singleton.1 ht]
    exact (Reaches.own hn hact hh).deleted hdeep
  | link he hchild hparent hlink h ih =>
    intro t ht
    rcases List.mem_cons.1 ht with rfl | ht
    · exact (Reaches.link he hchild hparent hlink h).deleted hdeep
    · exact ih t ht

/-! ## The predicate -/

variable {n : Node}

theorem deleted_cases (hn : (walk r c).nodes.get? table = some n) (hd : n.action.deletes = true) :
    (registryNodes r c).get? table = some n ∧ n.action = .delete ∨
      Keyless r c table ∧ IsCascade c (walk r c).nodes table n := by
  obtain ⟨hinv, -⟩ := walk_inv r c
  rcases hinv.cascade table n hn with hreg | hcas
  · left
    have hact := (registryNode_own hreg).2
    refine ⟨hreg, ?_⟩
    cases h : n.action with
    | delete => rfl
    | cascade => exact absurd h hact
    | detach =>
      rw [h] at hd
      cases hd
    | merge =>
      rw [h] at hd
      cases hd
    | keep =>
      rw [h] at hd
      cases hd
  · right
    refine ⟨⟨?_, hcas.keyless, hcas.cis⟩, hcas⟩
    cases hreg : (registryNodes r c).get? table with
    | none => rfl
    | some n' =>
      have := hinv.registered table n' hreg
      rw [hn] at this
      cases this
      exact absurd hcas.action (registryNode_own hreg).2

theorem reaches_of_selectsFrom {fuel : Nat} {seen : List String}
    (hd : (walk r c).nodes.deleted table = true) (hseen : table ∉ seen)
    (h : selectsFrom (walk r c).nodes tenant db fuel seen table row = true) :
    ∃ path, Reaches r c tenant db path table row ∧ path.Nodup ∧ ∀ t ∈ path, t ∉ seen := by
  induction fuel generalizing seen table row with
  | zero => cases h
  | succ fuel ih =>
    obtain ⟨n, hn, hdel⟩ := exists_of_deleted hd
    rw [selectsFrom, hn] at h
    dsimp only at h
    rcases deleted_cases hn hdel with ⟨hreg, hact⟩ | ⟨hkeyless, hcas⟩
    · obtain ⟨t, ht⟩ := Option.isSome_iff_exists.1 (registryNode_own hreg).1
      rw [ht] at h
      refine ⟨[table], .own hreg hact ?_, nodup_singleton _, ?_⟩
      · rw [Node.holds, ht]
        exact h
      · intro t' ht'
        rw [List.mem_singleton.1 ht']
        exact hseen
    · rw [hcas.template] at h
      obtain ⟨e, he, hstep⟩ := List.any_eq_true.1 h
      obtain ⟨hnew, hpoint⟩ := Bool.and_eq_true_iff.1 hstep
      obtain ⟨hedge, hchild, -, hparent⟩ := hcas.via e he
      obtain ⟨parent, hmem, hlink, hsel⟩ := pointsAt_iff.1 hpoint
      have hnew' : e.parent ∉ table :: seen := by simpa using hnew
      obtain ⟨path, hreach, hnodup, havoid⟩ := ih hparent hnew' hsel
      subst hchild
      refine ⟨e.child :: path, .link hedge hkeyless hmem hlink hreach, ?_, ?_⟩
      · refine List.nodup_cons.2 ⟨?_, hnodup⟩
        intro hin
        exact havoid _ hin mem_cons_self
      · intro t ht
        rcases List.mem_cons.1 ht with rfl | ht
        · exact hseen
        · exact fun hin => havoid t ht (mem_cons_of_mem _ hin)

theorem selectsFrom_of_reaches (hdeep : NotDeep r c)
    (h : Reaches r c tenant db path table row) (hnodup : path.Nodup) {fuel : Nat} {seen : List String}
    (hseen : ∀ t ∈ path, t ∉ seen) (hfuel : path.length ≤ fuel) :
    selectsFrom (walk r c).nodes tenant db fuel seen table row = true := by
  induction h generalizing fuel seen with
  | @own table n row hn hact hh =>
    obtain ⟨fuel, rfl⟩ : ∃ k, fuel = k + 1 := ⟨fuel - 1, by simp at hfuel; omega⟩
    obtain ⟨t, ht⟩ := Option.isSome_iff_exists.1 (registryNode_own hn).1
    rw [Node.holds, ht] at hh
    rw [selectsFrom, (walk_inv r c).1.registered _ _ hn]
    dsimp only
    rw [ht]
    exact hh
  | @link e row parent path he hchild hparent hlink hreach ih =>
    obtain ⟨fuel, rfl⟩ : ∃ k, fuel = k + 1 := ⟨fuel - 1, by simp at hfuel; omega⟩
    obtain ⟨hfresh, hrest⟩ := List.nodup_cons.1 hnodup
    have hne : e.child ≠ e.parent := by
      intro heq
      rw [heq] at hfresh
      exact hfresh hreach.head
    obtain ⟨n, hn, hact, hvia⟩ := hchild.via hdeep he hne (hreach.deleted hdeep)
    rcases deleted_cases hn (by rw [hact]; rfl) with ⟨-, hdel⟩ | ⟨-, hcas⟩
    · rw [hact] at hdel
      cases hdel
    · rw [selectsFrom, hn]
      dsimp only
      rw [hcas.template]
      have havoid : ∀ t ∈ path, t ∉ e.child :: seen := by
        intro t ht hin
        rcases List.mem_cons.1 hin with rfl | hin
        · exact hfresh ht
        · exact hseen t (mem_cons_of_mem _ ht) hin
      refine List.any_eq_true.2 ⟨e, hvia, Bool.and_eq_true_iff.2 ⟨?_, pointsAt_iff.2 ⟨parent, hparent, hlink, ?_⟩⟩⟩
      · simpa using havoid e.parent hreach.head
      · exact ih hrest havoid (by simp at hfuel; omega)

theorem selects_iff (hdeep : NotDeep r c) (hd : (walk r c).nodes.deleted table = true) :
    selects (walk r c).nodes tenant db table row = true ↔ ∃ path, Reaches r c tenant db path table row ∧ path.Nodup := by
  constructor
  · intro h
    obtain ⟨path, hreach, hnodup, -⟩ := reaches_of_selectsFrom hd not_mem_nil h
    exact ⟨path, hreach, hnodup⟩
  · rintro ⟨path, hreach, hnodup⟩
    refine selectsFrom_of_reaches hdeep hreach hnodup (fun _ _ => not_mem_nil) ?_
    -- the tables of the chain are nodes, each once
    have hsub : path ⊆ (walk r c).nodes.rows.map Prod.fst := by
      intro t ht
      obtain ⟨n, hn, -⟩ := exists_of_deleted (hreach.path_deleted hdeep t ht)
      exact List.mem_map.2 ⟨(t, n), (Table.get?_eq_some_iff _ _ _).1 hn, rfl⟩
    have := (hnodup.subperm hsub).length_le
    rwa [length_map] at this

/-! ## Closure -/

/-- No static finding, and every count is 0. -/
def Clear (p : TenantPlan) (tenant : Val) (db : Db) : Prop :=
  ∀ k ∈ p.checks, k.static = false ∧ k.count p.nodes tenant db = 0

/-- A child whose rows may keep pointing at erased rows until the apply: its `tenant_id` is nulled or
merged away first, or the delete itself sets the link of its inventory table to NULL. -/
def Exempt (nodes : Nodes) (e : Edge) : Prop :=
  ∃ n, nodes.get? e.child = some n ∧
    ((n.action = .detach ∨ n.action = .merge) ∧ e.childCols = ["tenant_id"] ∨
      n.action ≠ .cascade ∧ e.deltype = .setNull)

/-- Every row that points at an erased row is erased. -/
def ErasureClosed (p : TenantPlan) (c : Catalog) (tenant : Val) (db : Db) : Prop :=
  ∀ e ∈ c.edges, p.nodes.deleted e.parent = true → ∀ row ∈ db.of e.child,
    pointsAt db e (selects p.nodes tenant db e.parent) row = true →
      selects p.nodes tenant db e.child row = true ∨ Exempt p.nodes e

/-- What the counts leave open. -/
structure ClosesUp (r : Registry) (c : Catalog) (tenant : Val) (db : Db) : Prop where
  /-- A row with a chain has one that passes no table twice. -/
  chains : ∀ table, ∀ row ∈ db.of table, ∀ path, Reaches r c tenant db path table row →
    ∃ path', Reaches r c tenant db path' table row ∧ path'.Nodup
  /-- A `tenant_id` link of two deleted tables stays within the tenant's rows. -/
  sameTenant : ∀ e ∈ c.edges, ∀ child parent, (registryNodes r c).get? e.child = some child →
    (registryNodes r c).get? e.parent = some parent → child.action = .delete →
    parent.action = .delete → sameTenantLink e child parent = true → e.deltype ≠ .setNull →
    ∀ row ∈ db.of e.child, ∀ prow ∈ db.of e.parent, e.links row prow = true →
      parent.holds tenant db prow = true → child.holds tenant db row = true
  /-- No row of a tenant table that cannot be planned points at a row with a chain. -/
  unplanned : ∀ e ∈ c.edges, e.child ∈ c.keyTables → (registryNodes r c).get? e.child = none →
    ∀ row ∈ db.of e.child, ∀ prow ∈ db.of e.parent, e.links row prow = true →
      ∀ path, ¬ Reaches r c tenant db path e.parent prow

theorem Clear.notDeep (h : Clear (planTenant r c) tenant db) : NotDeep r c := by
  rw [NotDeep, eq_nil_iff_forall_not_mem]
  intro k hk
  obtain ⟨e, rfl, -⟩ := (walk_inv r c).1.deep k hk
  have := (h (.tooDeep e) (by simp [planTenant, hk])).1
  cases this

theorem Clear.count {k : Check} (h : Clear (planTenant r c) tenant db)
    (hk : k ∈ (planTenant r c).checks) : k.count (walk r c).nodes tenant db = 0 :=
  (h k hk).2

theorem mem_checks_of_pending {p : ChildKind × Edge} {k : Check} (hp : p ∈ (walk r c).pending)
    (hk : k ∈ pendingCheck (walk r c).nodes p) : k ∈ (planTenant r c).checks := by
  simp only [planTenant, mem_append, mem_flatMap]
  exact Or.inl (Or.inl (Or.inl (Or.inr ⟨p, hp, hk⟩)))

theorem not_pointsAt_of_count (h : (referring (walk r c).nodes tenant db e).length = 0) (hrow : row ∈ db.of e.child)
    (hpoint : pointsAt db e (selects (walk r c).nodes tenant db e.parent) row = true) : False := by
  have hmem : row ∈ referring (walk r c).nodes tenant db e := List.mem_filter.2 ⟨hrow, hpoint⟩
  rw [List.length_eq_zero_iff.1 h] at hmem
  cases hmem

theorem selects_of_count (h : ((referring (walk r c).nodes tenant db e).filter fun row =>
      !selects (walk r c).nodes tenant db e.child row).length = 0) (hrow : row ∈ db.of e.child)
    (hpoint : pointsAt db e (selects (walk r c).nodes tenant db e.parent) row = true) :
    selects (walk r c).nodes tenant db e.child row = true := by
  by_contra hno
  have hmem : row ∈ (referring (walk r c).nodes tenant db e).filter fun row =>
      !selects (walk r c).nodes tenant db e.child row := by
    refine List.mem_filter.2 ⟨List.mem_filter.2 ⟨hrow, hpoint⟩, ?_⟩
    simpa using hno
  rw [List.length_eq_zero_iff.1 h] at hmem
  cases hmem

theorem selects_own (hn : (registryNodes r c).get? table = some n) :
    selects (walk r c).nodes tenant db table row = n.holds tenant db row := by
  have hget := (walk_inv r c).1.registered _ _ hn
  obtain ⟨t, ht⟩ := Option.isSome_iff_exists.1 (registryNode_own hn).1
  obtain ⟨k, hk⟩ : ∃ k, (walk r c).nodes.rows.length = k + 1 := by
    refine ⟨(walk r c).nodes.rows.length - 1, ?_⟩
    have := length_pos_of_mem ((Table.get?_eq_some_iff _ _ _).1 hget)
    omega
  rw [selects, hk, selectsFrom, hget, Node.holds]
  dsimp only
  rw [ht]
  rfl

theorem selects_of_no_node {nodes : Nodes} (hno : nodes.get? table = none) : selects nodes tenant db table row = false := by
  unfold selects
  cases nodes.rows.length with
  | zero => rfl
  | succ k => rw [selectsFrom, hno]

theorem registered_closed (hclear : Clear (planTenant r c) tenant db) (hcl : ClosesUp r c tenant db)
    (he : e ∈ c.edges) (hn : (registryNodes r c).get? e.child = some n)
    (hparent : (walk r c).nodes.deleted e.parent = true)
    (hpend : (.registered, e) ∈ (walk r c).pending) (hrow : row ∈ db.of e.child)
    (hpoint : pointsAt db e (selects (walk r c).nodes tenant db e.parent) row = true) :
    selects (walk r c).nodes tenant db e.child row = true ∨ Exempt (walk r c).nodes e := by
  have hget := (walk_inv r c).1.registered _ _ hn
  obtain ⟨pn, hpn, hpdel⟩ := exists_of_deleted hparent
  have hcheck : ∀ k ∈ pendingCheck (walk r c).nodes (.registered, e),
      k.count (walk r c).nodes tenant db = 0 :=
    fun k hk => hclear.count (mem_checks_of_pending hpend hk)
  unfold pendingCheck at hcheck
  simp only [hget, hpn] at hcheck
  by_cases hset : e.deltype = .setNull
  · exact Or.inr ⟨n, hget, Or.inr ⟨(registryNode_own hn).2, hset⟩⟩
  · split at hcheck
    · next hact =>
      split at hcheck
      · next hsame =>
        left
        -- both ends of a tenant_id link have a predicate of their own
        have hown : (registryNodes r c).get? e.parent = some pn ∧ pn.action = .delete := by
          rcases deleted_cases hpn hpdel with h | ⟨-, hcas⟩
          · exact h
          · simp [sameTenantLink, hcas.template] at hsame
        obtain ⟨prow, hprow, hlink, hsel⟩ := pointsAt_iff.1 hpoint
        rw [selects_own hown.1] at hsel
        rw [selects_own hn]
        exact hcl.sameTenant e he n pn hn hown.1 hact hown.2 hsame hset row hrow prow hprow hlink hsel
      · exact Or.inl (selects_of_count (hcheck _ (List.mem_singleton.2 rfl)) hrow hpoint)
    · split at hcheck
      · next hten => exact Or.inr ⟨n, hget, Or.inl hten⟩
      · exact (not_pointsAt_of_count (hcheck _ (List.mem_singleton.2 rfl)) hrow hpoint).elim

theorem cascade_closed (hdeep : NotDeep r c) (hcl : ClosesUp r c tenant db)
    (he : e ∈ c.edges) (hn : (walk r c).nodes.get? e.child = some n)
    (hact : n.action = .cascade) (hparent : (walk r c).nodes.deleted e.parent = true) (hrow : row ∈ db.of e.child)
    (hpoint : pointsAt db e (selects (walk r c).nodes tenant db e.parent) row = true) :
    selects (walk r c).nodes tenant db e.child row = true := by
  have hdel : n.action.deletes = true := by rw [hact]; rfl
  rcases deleted_cases hn hdel with ⟨-, hno⟩ | ⟨hkeyless, -⟩
  · rw [hact] at hno
    cases hno
  · obtain ⟨prow, hprow, hlink, hsel⟩ := pointsAt_iff.1 hpoint
    obtain ⟨path, hreach, -⟩ := (selects_iff hdeep hparent).1 hsel
    rw [selects_iff hdeep (by rw [deleted_of_get? hn]; exact hdel)]
    exact hcl.chains e.child row hrow _ (.link he hkeyless hprow hlink hreach)

theorem closed_of_closesUp (hclear : Clear (planTenant r c) tenant db)
    (hcl : ClosesUp r c tenant db) : ErasureClosed (planTenant r c) c tenant db := by
  intro e he hparent row hrow hpoint
  have hdeep := hclear.notDeep
  change (walk r c).nodes.deleted e.parent = true at hparent
  show selects (walk r c).nodes tenant db e.child row = true ∨ Exempt (walk r c).nodes e
  by_cases hself : e.child = e.parent
  · -- a foreign key of the table to itself is counted whatever its action
    left
    refine selects_of_count (hclear.count (k := .selfReference e) ?_) hrow hpoint
    simp only [planTenant, mem_append, selfChecks, mem_map, mem_filter]
    exact Or.inl (Or.inl (Or.inr ⟨e, ⟨he, by simp [hself, hparent]⟩, rfl⟩))
  · cases walk_done he hparent hself with
    | defer kind hkind hpend =>
      cases kind with
      | quarantined =>
        have hcount := hclear.count (mem_checks_of_pending hpend (List.mem_singleton.2 rfl))
        exact (not_pointsAt_of_count hcount hrow hpoint).elim
      | foreign =>
        have hcount := hclear.count (mem_checks_of_pending hpend (List.mem_singleton.2 rfl))
        exact (not_pointsAt_of_count hcount hrow hpoint).elim
      | registered =>
        obtain ⟨n, hn, hact⟩ := hkind
        rcases (walk_inv r c).1.cascade _ n hn with hreg | hcas
        · exact registered_closed hclear hcl he hreg hparent hpend hrow hpoint
        · exact absurd hcas.action hact
    | cascade hn hact _ => exact Or.inl (cascade_closed hdeep hcl he hn hact hparent hrow hpoint)
    | unplanned hkey hn =>
      obtain ⟨prow, hprow, hlink, hsel⟩ := pointsAt_iff.1 hpoint
      obtain ⟨path, hreach, -⟩ := (selects_iff hdeep hparent).1 hsel
      refine (hcl.unplanned e he hkey ?_ row hrow prow hprow hlink path hreach).elim
      cases hreg : (registryNodes r c).get? e.child with
      | none => rfl
      | some n =>
        rw [(walk_inv r c).1.registered _ _ hreg] at hn
        cases hn
    | tooDeep h =>
      rw [hdeep] at h
      cases h

theorem shorten_of_closed (hdeep : NotDeep r c) (hcl : ErasureClosed (planTenant r c) c tenant db)
    (h : Reaches r c tenant db path table row)
    (hrow : row ∈ db.of table) : ∃ path', Reaches r c tenant db path' table row ∧ path'.Nodup := by
  induction h with
  | own hn hact hh => exact ⟨_, .own hn hact hh, nodup_singleton _⟩
  | @link e row parent path he hchild hparent hlink hreach ih =>
    have hdel := hreach.deleted hdeep
    have hcdel := (Reaches.link he hchild hparent hlink hreach).deleted hdeep
    rw [← selects_iff hdeep hcdel]
    have hpoint : pointsAt db e (selects (walk r c).nodes tenant db e.parent) row = true :=
      pointsAt_iff.2 ⟨parent, hparent, hlink, (selects_iff hdeep hdel).2 (ih hparent)⟩
    rcases hcl e he hdel row hrow hpoint with hsel | ⟨n, hn, hexempt⟩
    · exact hsel
    · obtain ⟨n', hn', hdel'⟩ := exists_of_deleted hcdel
      change (walk r c).nodes.get? e.child = some n at hn
      rw [hn] at hn'
      cases hn'
      rcases deleted_cases hn hdel' with ⟨hreg, -⟩ | ⟨-, hcas⟩
      · rw [hchild.entry] at hreg
        cases hreg
      · simp [hcas.action] at hexempt

theorem closesUp_of_closed (hdeep : NotDeep r c)
    (hcl : ErasureClosed (planTenant r c) c tenant db) : ClosesUp r c tenant db := by
  refine ⟨?_, ?_, ?_⟩
  · intro table row hrow path h
    exact shorten_of_closed hdeep hcl h hrow
  · intro e he child parent hc hp hcact hpact _ hset row hrow prow hprow hlink hsel
    have hinv := (walk_inv r c).1
    have hdel : (walk r c).nodes.deleted e.parent = true := by
      rw [deleted_of_get? (hinv.registered _ _ hp), hpact]
      rfl
    have hpoint : pointsAt db e (selects (walk r c).nodes tenant db e.parent) row = true :=
      pointsAt_iff.2 ⟨prow, hprow, hlink, by rw [selects_own hp]; exact hsel⟩
    rcases hcl e he hdel row hrow hpoint with hchild | ⟨n, hn, hexempt⟩
    · rw [← selects_own hc]
      exact hchild
    · change (walk r c).nodes.get? e.child = some n at hn
      rw [hinv.registered _ _ hc] at hn
      cases hn
      simp [hcact, hset] at hexempt
  · intro e he hkey hnone row hrow prow hprow hlink path hreach
    have hinv := (walk_inv r c).1
    have hno : (walk r c).nodes.get? e.child = none := by
      cases hn : (walk r c).nodes.get? e.child with
      | none => rfl
      | some n =>
        rcases hinv.cascade _ n hn with hreg | hcas
        · rw [hnone] at hreg
          cases hreg
        · exact absurd hkey hcas.keyless
    have hdel := hreach.deleted hdeep
    have hsel := (selects_iff hdeep hdel).2 (shorten_of_closed hdeep hcl hreach hprow)
    rcases hcl e he hdel row hrow (pointsAt_iff.2 ⟨prow, hprow, hlink, hsel⟩) with hchild | ⟨n, hn, -⟩
    · change selects (walk r c).nodes tenant db e.child row = true at hchild
      rw [selects_of_no_node hno] at hchild
      cases hchild
    · change (walk r c).nodes.get? e.child = some n at hn
      rw [hno] at hn
      cases hn

/-- A clear plan's erasure is closed exactly when its chains, its tenant links and its unplanned
tables are harmless. -/
theorem erasure_closed_iff (r : Registry) (c : Catalog) (tenant : Val) (db : Db)
    (hclear : Clear (planTenant r c) tenant db) : ErasureClosed (planTenant r c) c tenant db ↔ ClosesUp r c tenant db :=
  ⟨closesUp_of_closed hclear.notDeep, closed_of_closesUp hclear⟩

/-- Tours of a tenant, their days, and notes: a note belongs to a day and a day may show a note. -/
def dayNotes : Catalog where
  tables := ["acp_shared.tours", "acp_shared.days", "acp_shared.notes"]
  tenantColumns := [("acp_shared.tours", "uuid")]
  tenantKeys := [("acp_shared.tours", ["tenant_id"])]
  edges :=
    [⟨"days_note_fk", "acp_shared.days", "acp_shared.notes", ["note_id"], ["id"], true, .noAction⟩,
      ⟨"days_tour_fk", "acp_shared.days", "acp_shared.tours", ["tour_id"], ["id"], true, .noAction⟩,
      ⟨"notes_day_fk", "acp_shared.notes", "acp_shared.days", ["day_id"], ["id"], true, .noAction⟩]
  nodup := by decide

theorem delete_ne_cascade : Action.delete ≠ .cascade := by decide

def toursEntry : TenantTable where
  table := "acp_shared.tours"
  action := .delete
  registered := delete_ne_cascade

/-- One tour of the tenant with a day and its note. -/
def tourRows : Db where
  rows :=
    [(("acp_shared.tours", 1), [("id", "t1"), ("tenant_id", "tenant")]),
      (("acp_shared.days", 1), [("id", "d1"), ("tour_id", "t1")]),
      (("acp_shared.notes", 1), [("id", "n1"), ("day_id", "d1")])]
  nodup := by decide

/-- A second day, of no tour, shows the note. -/
def sharedNote : Db where
  rows := (("acp_shared.days", 2), [("id", "d2"), ("note_id", "n1")]) :: tourRows.rows
  nodup := by decide

theorem dayNotes_clear (db : Db) : Clear (planTenant [toursEntry] dayNotes) "tenant" db := by
  have hchecks : (planTenant [toursEntry] dayNotes).checks = [] := by decide +kernel
  intro k hk
  rw [hchecks] at hk
  cases hk

theorem erasure_closed_tourRows : Clear (planTenant [toursEntry] dayNotes) "tenant" tourRows ∧
    ClosesUp [toursEntry] dayNotes "tenant" tourRows := by
  have hclear := dayNotes_clear tourRows
  refine ⟨hclear, (erasure_closed_iff [toursEntry] dayNotes "tenant" tourRows hclear).1 ?_⟩
  have hall : ∀ e ∈ dayNotes.edges, ∀ row ∈ tourRows.of e.child,
      pointsAt tourRows e
        (selects (planTenant [toursEntry] dayNotes).nodes "tenant" tourRows e.parent) row = true →
      selects (planTenant [toursEntry] dayNotes).nodes "tenant" tourRows e.child row = true := by
    decide +kernel
  intro e he _ row hrow hpoint
  exact Or.inl (hall e he row hrow hpoint)

/-- The second day shows an erased note, is not erased itself, and nothing counts it. -/
theorem shared_note_not_closed : Clear (planTenant [toursEntry] dayNotes) "tenant" sharedNote ∧
    ¬ ErasureClosed (planTenant [toursEntry] dayNotes) dayNotes "tenant" sharedNote := by
  refine ⟨dayNotes_clear sharedNote, ?_⟩
  intro hcl
  have h := hcl ⟨"days_note_fk", "acp_shared.days", "acp_shared.notes", ["note_id"], ["id"], true, .noAction⟩
    (by decide) (by decide +kernel) [("id", "d2"), ("note_id", "n1")] (by decide +kernel)
    (by decide +kernel)
  rcases h with hsel | ⟨n, hn, hexempt⟩
  · revert hsel
    decide +kernel
  · have hact : (planTenant [toursEntry] dayNotes).nodes.action? "acp_shared.days" = some .cascade := by
      decide +kernel
    rw [Nodes.action?, hn] at hact
    simp only [Option.map_some, Option.some.injEq] at hact
    simp [hact] at hexempt

end CisApp.Erasure
