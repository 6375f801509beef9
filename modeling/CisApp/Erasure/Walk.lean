import CisApp.Erasure.Plan

/-! What the walk over the foreign keys leaves behind.

`WalkInv` is kept by every foreign key visited: the inventory's nodes are as they were, a cascade
node belongs to a table without a tenant key and names the foreign keys that led to it, and every
foreign key visited so far was dealt with in one of the ways of `Done`.  A deleted table is either
still on the frontier or all its foreign keys are visited, and since a table only joins the frontier
with a foreign key of its own, the rounds of `walk` empty it (`walk_done`).

From this follows which tenant tables the plan knows (`tenantTable_noticed_iff`): a table with an
entry that cannot be planned is neither a node nor a finding. -/

namespace CisApp.Erasure

open List

/-! ## The nodes of the inventory -/

/-- An entry that gives its table a node. -/
def TenantTable.Planned (t : TenantTable) (c : Catalog) : Prop :=
  t.table ∈ c.tables ∧ (registryTemplate t c).isSome = true

theorem addEntry_cases (c : Catalog) (nodes : Nodes) (t : TenantTable) :
    (¬ t.Planned c ∧ addEntry c nodes t = nodes) ∨
    (t.Planned c ∧ ∃ n : Node, n.template.isSome = true ∧ n.action ≠ .cascade ∧
      addEntry c nodes t = nodes.upsert t.table n) := by
  unfold addEntry TenantTable.Planned
  by_cases ht : t.table ∈ c.tables
  · rw [if_neg (not_not.2 ht)]
    cases h : registryTemplate t c with
    | none => exact Or.inl ⟨by simp, rfl⟩
    | some p =>
      refine Or.inr ⟨⟨ht, rfl⟩, _, ?_, ?_, rfl⟩
      · rfl
      · exact t.registered
  · rw [if_pos ht]
    exact Or.inl ⟨fun h => ht h.1, rfl⟩

theorem exists_registryNode_iff (r : Registry) (c : Catalog) (table : String) :
    (∃ n, (registryNodes r c).get? table = some n) ↔ ∃ t ∈ r, t.table = table ∧ t.Planned c := by
  induction r using List.reverseRecOn with
  | nil => simp [registryNodes, Table.empty, Table.get?]
  | append_singleton r t ih =>
    have hsplit : (∃ t' ∈ r ++ [t], t'.table = table ∧ t'.Planned c) ↔
        (∃ t' ∈ r, t'.table = table ∧ t'.Planned c) ∨ t.table = table ∧ t.Planned c := by
      simp only [mem_append, mem_singleton, or_and_right, exists_or, exists_eq_left]
    rw [hsplit, ← ih, registryNodes, foldl_append]
    show (∃ n, (addEntry c (registryNodes r c) t).get? table = some n) ↔ _
    rcases addEntry_cases c (registryNodes r c) t with ⟨hno, heq⟩ | ⟨hyes, n, -, -, heq⟩
    · rw [heq]
      simp [hno]
    · rw [heq, Table.get?_upsert]
      by_cases htab : table = t.table
      · simp [htab, hyes]
      · simp [htab, Ne.symm htab]

variable {r : Registry} {c : Catalog} {table : String}

theorem registryNode_own {n : Node}
    (h : (registryNodes r c).get? table = some n) : n.template.isSome = true ∧ n.action ≠ .cascade := by
  induction r using List.reverseRecOn with
  | nil => cases h
  | append_singleton r t ih =>
    rw [registryNodes, foldl_append] at h
    change (addEntry c (registryNodes r c) t).get? table = some n at h
    rcases addEntry_cases c (registryNodes r c) t with ⟨-, heq⟩ | ⟨-, n', htemp, hact, heq⟩
    · rw [heq] at h
      exact ih h
    · rw [heq, Table.get?_upsert] at h
      split at h
      · cases h
        exact ⟨htemp, hact⟩
      · exact ih h

/-! ## One foreign key -/

/-- A child of this kind. -/
def Edge.ChildIs (e : Edge) (nodes : Nodes) : ChildKind → Prop
  | .quarantined => schemaOf e.child ∈ quarantineSchemas
  | .foreign => schemaOf e.child ∉ cisSchemas
  | .registered => ∃ n, nodes.get? e.child = some n ∧ n.action ≠ .cascade

/-- How a foreign key into a deleted table was dealt with. -/
inductive Done (c : Catalog) (w : Walk) (e : Edge) : Prop where
  | defer (kind : ChildKind) (hkind : e.ChildIs w.nodes kind) (h : (kind, e) ∈ w.pending)
  | cascade {n : Node} (hn : w.nodes.get? e.child = some n) (hact : n.action = .cascade)
    (h : e ∈ n.via)
  | unplanned (hkey : e.child ∈ c.keyTables) (h : w.nodes.get? e.child = none)
  | tooDeep (h : .tooDeep e ∈ w.checks)

/-- What a visit does to the walk. -/
inductive Visit (c : Catalog) (depth : Nat) (w : Walk) (e : Edge) : Walk → Prop where
  | unchanged (h : e.key ∈ w.visited ∨ e.child = e.parent) : Visit c depth w e w
  | defer (kind : ChildKind) (hne : e.child ≠ e.parent)
    (hkind : e.ChildIs w.nodes kind) :
    Visit c depth w e { w.defer kind e with visited := w.visited ++ [e.key] }
  | via {n : Node} (hne : e.child ≠ e.parent) (hn : w.nodes.get? e.child = some n)
    (hact : n.action = .cascade) :
    Visit c depth w e { w with visited := w.visited ++ [e.key], nodes := addVia w.nodes e }
  | skip (hne : e.child ≠ e.parent) (hn : w.nodes.get? e.child = none) (hkey : e.child ∈ c.keyTables) :
    Visit c depth w e { w with visited := w.visited ++ [e.key] }
  | tooDeep (hne : e.child ≠ e.parent) (hkey : e.child ∉ c.keyTables) :
    Visit c depth w e
      { w with visited := w.visited ++ [e.key], checks := w.checks ++ [.tooDeep e] }
  | add (hne : e.child ≠ e.parent) (hn : w.nodes.get? e.child = none) (hkey : e.child ∉ c.keyTables)
    (hcis : schemaOf e.child ∈ cisSchemas) (hnew : e.key ∉ w.visited) :
    Visit c depth w e
      { w with
        visited := w.visited ++ [e.key]
        nodes := w.nodes.upsert e.child { action := .cascade, via := [e] }
        frontier := w.frontier ++ [(e.child, depth + 1)] }

theorem visitEdge_visit (c : Catalog) (depth : Nat) (w : Walk) (e : Edge) : Visit c depth w e (visitEdge c depth w e) := by
  unfold visitEdge
  split
  · next h => exact .unchanged h
  · next h =>
    obtain ⟨hnew, hne⟩ := not_or.1 h
    dsimp only
    split
    · next hschema => exact .defer .quarantined hne hschema
    · split
      · next hschema => exact .defer .foreign hne hschema
      · next hcis =>
        split
        · next n hn =>
          split
          · next hact => exact .via hne hn hact
          · next hact => exact .defer .registered hne ⟨n, hn, hact⟩
        · next hn =>
          split
          · next hkey => exact .skip hne hn hkey
          · next hkey =>
            split
            · exact .tooDeep hne hkey
            · exact .add hne hn hkey (not_not.1 hcis) hnew

/-- A later state of the walk. -/
structure Grows (c : Catalog) (w w' : Walk) : Prop where
  node : ∀ table n, w.nodes.get? table = some n →
    ∃ n', w'.nodes.get? table = some n' ∧ n'.action = n.action ∧ n.via ⊆ n'.via
  fresh : ∀ table ∈ c.keyTables, w.nodes.get? table = none → w'.nodes.get? table = none
  pending : w.pending ⊆ w'.pending
  checks : w.checks ⊆ w'.checks
  visited : w.visited ⊆ w'.visited

variable {w w' : Walk}

theorem Grows.of_nodes_eq (hn : w'.nodes = w.nodes)
    (hp : w.pending ⊆ w'.pending) (hc : w.checks ⊆ w'.checks) (hv : w.visited ⊆ w'.visited) : Grows c w w' := by
  refine ⟨?_, ?_, hp, hc, hv⟩
  · intro table n h
    exact ⟨n, by rw [hn]; exact h, rfl, List.Subset.refl _⟩
  · intro table _ h
    rw [hn]
    exact h

theorem get?_addVia (nodes : Nodes) (e : Edge) (table : String) :
    (addVia nodes e).get? table =
      (nodes.get? table).map fun n => if table = e.child then { n with via := n.via ++ [e] } else n := by
  unfold addVia
  rw [Table.get?_update]
  simp only [decide_eq_true_eq]

variable {depth : Nat} {e : Edge}

theorem Visit.grows (h : Visit c depth w e w') : Grows c w w' := by
  have hself {α : Type} (l : List α) : l ⊆ l := List.Subset.refl l
  cases h with
  | unchanged _ => exact .of_nodes_eq rfl (hself _) (hself _) (hself _)
  | defer kind _ _ =>
    exact .of_nodes_eq rfl (subset_append_left _ _) (hself _) (subset_append_left _ _)
  | skip _ _ _ => exact .of_nodes_eq rfl (hself _) (hself _) (subset_append_left _ _)
  | tooDeep _ _ =>
    exact .of_nodes_eq rfl (hself _) (subset_append_left _ _) (subset_append_left _ _)
  | via _ _ _ =>
    refine ⟨?_, ?_, hself _, hself _, subset_append_left _ _⟩
    · intro table n hn
      rw [get?_addVia, hn]
      refine ⟨_, rfl, ?_, ?_⟩
      · split <;> rfl
      · split
        · exact subset_append_left _ _
        · exact hself _
    · intro table _ hn
      rw [get?_addVia, hn]
      rfl
  | add _ hnone hkey _ _ =>
    refine ⟨?_, ?_, hself _, hself _, subset_append_left _ _⟩
    · intro table n hn
      rw [Table.get?_upsert, if_neg]
      · exact ⟨n, hn, rfl, hself _⟩
      · rintro rfl
        rw [hnone] at hn
        cases hn
    · intro table ht hn
      rw [Table.get?_upsert, if_neg]
      · exact hn
      · rintro rfl
        exact hkey ht

variable {nodes : Nodes}

theorem deleted_of_get? {n : Node} (h : nodes.get? table = some n) : nodes.deleted table = n.action.deletes := by
  unfold Nodes.deleted Nodes.action?
  rw [h]
  rfl

theorem exists_of_deleted (h : nodes.deleted table = true) : ∃ n, nodes.get? table = some n ∧ n.action.deletes = true := by
  cases hn : nodes.get? table with
  | none =>
    rw [Nodes.deleted, Nodes.action?, hn] at h
    cases h
  | some n => exact ⟨n, rfl, by rw [← deleted_of_get? hn]; exact h⟩

theorem Grows.deleted (h : Grows c w w') (hd : w.nodes.deleted table = true) : w'.nodes.deleted table = true := by
  obtain ⟨n, hn, hdel⟩ := exists_of_deleted hd
  obtain ⟨n', hn', hact, -⟩ := h.node table n hn
  rw [deleted_of_get? hn', hact]
  exact hdel

theorem Edge.ChildIs.grows (h : Grows c w w') {kind : ChildKind}
    (hkind : e.ChildIs w.nodes kind) : e.ChildIs w'.nodes kind := by
  cases kind with
  | quarantined => exact hkind
  | foreign => exact hkind
  | registered =>
    obtain ⟨n, hn, hact⟩ := hkind
    obtain ⟨n', hn', hact', -⟩ := h.node _ _ hn
    exact ⟨n', hn', by rw [hact']; exact hact⟩

theorem Done.grows (h : Grows c w w') (hd : Done c w e) : Done c w' e := by
  cases hd with
  | defer kind hkind hmem => exact .defer kind (hkind.grows h) (h.pending hmem)
  | cascade hn hact hvia =>
    obtain ⟨n', hn', hact', hsub⟩ := h.node _ _ hn
    exact .cascade hn' (by rw [hact']; exact hact) (hsub hvia)
  | unplanned hkey hn => exact .unplanned hkey (h.fresh _ hkey hn)
  | tooDeep hmem => exact .tooDeep (h.checks hmem)

theorem Visit.done (h : Visit c depth w e w') (hnew : e.key ∉ w.visited) (hne : e.child ≠ e.parent) : Done c w' e := by
  cases h with
  | unchanged h => exact absurd h (not_or.2 ⟨hnew, hne⟩)
  | defer kind _ hkind =>
    have hmem : (kind, e) ∈ (w.defer kind e).pending := by simp [Walk.defer]
    exact .defer kind hkind hmem
  | skip _ hn hkey => exact .unplanned hkey hn
  | tooDeep _ _ => exact .tooDeep (by simp)
  | @via n _ hn hact =>
    refine .cascade (n := { n with via := n.via ++ [e] }) ?_ hact (by simp)
    rw [get?_addVia, hn, Option.map_some, if_pos rfl]
  | add _ hn _ _ _ =>
    refine .cascade (n := { action := .cascade, via := [e] }) ?_ rfl (by simp)
    rw [Table.get?_upsert, if_pos rfl]

theorem Visit.visited (h : Visit c depth w e w') : e.key ∈ w'.visited ∨ e.child = e.parent := by
  cases h with
  | unchanged h => exact h
  | defer kind _ _ => exact Or.inl (by simp)
  | skip _ _ _ => exact Or.inl (by simp)
  | tooDeep _ _ => exact Or.inl (by simp)
  | via _ _ _ => exact Or.inl (by simp)
  | add _ _ _ _ _ => exact Or.inl (by simp)

theorem Visit.visited_cases (h : Visit c depth w e w') {k : String × String} (hk : k ∈ w'.visited) :
    k ∈ w.visited ∨ k = e.key ∧ e.child ≠ e.parent := by
  cases h with
  | unchanged _ => exact Or.inl hk
  | defer kind hne _ => simpa [hne] using hk
  | skip hne _ _ => simpa [hne] using hk
  | tooDeep hne _ => simpa [hne] using hk
  | via hne _ _ => simpa [hne] using hk
  | add hne _ _ _ _ => simpa [hne] using hk

theorem Visit.node_cases
    (h : Visit c depth w e w') {n' : Node} (hn' : w'.nodes.get? table = some n') :
    w.nodes.get? table = some n' ∨ table = e.child ∧ e.child ≠ e.parent ∧
      ((∃ n, w.nodes.get? table = some n ∧ n.action = .cascade ∧ n' = { n with via := n.via ++ [e] }) ∨
        w.nodes.get? table = none ∧ table ∉ c.keyTables ∧ schemaOf table ∈ cisSchemas ∧
          table ∈ w'.frontier.map Prod.fst ∧ n' = { action := .cascade, via := [e] }) := by
  cases h with
  | unchanged _ => exact Or.inl hn'
  | defer kind _ _ => exact Or.inl hn'
  | skip _ _ _ => exact Or.inl hn'
  | tooDeep _ _ => exact Or.inl hn'
  | @via n hne hn hact =>
    rw [get?_addVia] at hn'
    by_cases htab : table = e.child
    · subst htab
      rw [hn, Option.map_some, if_pos rfl] at hn'
      cases hn'
      exact Or.inr ⟨rfl, hne, Or.inl ⟨n, hn, hact, rfl⟩⟩
    · simp only [if_neg htab, Option.map_id_fun', id_eq] at hn'
      exact Or.inl hn'
  | add hne hnone hkey hcis _ =>
    rw [Table.get?_upsert] at hn'
    split at hn'
    · next htab =>
      subst htab
      cases hn'
      exact Or.inr ⟨rfl, hne, Or.inr ⟨hnone, hkey, hcis, by simp, rfl⟩⟩
    · exact Or.inl hn'

theorem Visit.frontier (h : Visit c depth w e w') : w.frontier ⊆ w'.frontier := by
  cases h with
  | add _ _ _ _ _ => exact subset_append_left _ _
  | unchanged _ => exact List.Subset.refl _
  | defer kind _ _ => exact List.Subset.refl _
  | skip _ _ _ => exact List.Subset.refl _
  | tooDeep _ _ => exact List.Subset.refl _
  | via _ _ _ => exact List.Subset.refl _

theorem Visit.frontier_cases (h : Visit c depth w e w') {x : String × Nat} (hx : x ∈ w'.frontier) :
    x ∈ w.frontier ∨ w'.nodes.deleted x.1 = true := by
  cases h with
  | add _ _ _ _ _ =>
    rcases mem_append.1 hx with hold | hnew
    · exact Or.inl hold
    · rw [mem_singleton.1 hnew]
      refine Or.inr ?_
      rw [deleted_of_get? (n := { action := .cascade, via := [e] })]
      · rfl
      · rw [Table.get?_upsert, if_pos rfl]
  | unchanged _ => exact Or.inl hx
  | defer kind _ _ => exact Or.inl hx
  | skip _ _ _ => exact Or.inl hx
  | tooDeep _ _ => exact Or.inl hx
  | via _ _ _ => exact Or.inl hx

theorem Visit.checks_cases (h : Visit c depth w e w') {k : Check} (hk : k ∈ w'.checks) :
    k ∈ w.checks ∨ k = .tooDeep e ∧ e.child ∉ c.keyTables := by
  cases h with
  | tooDeep _ hkey => simpa [hkey] using hk
  | unchanged _ => exact Or.inl hk
  | defer kind _ _ => exact Or.inl hk
  | skip _ _ _ => exact Or.inl hk
  | via _ _ _ => exact Or.inl hk
  | add _ _ _ _ _ => exact Or.inl hk

/-! ## The whole walk -/

/-- A node the walk added for `table`. -/
structure IsCascade (c : Catalog) (nodes : Nodes) (table : String) (n : Node) : Prop where
  action : n.action = .cascade
  template : n.template = none
  keyless : table ∉ c.keyTables
  cis : schemaOf table ∈ cisSchemas
  via : ∀ e ∈ n.via, e ∈ c.edges ∧ e.child = table ∧ e.parent ≠ table ∧
    nodes.deleted e.parent = true

/-- What holds between two visits; `todo` are the foreign keys of the table at hand still ahead. -/
structure WalkInv (r : Registry) (c : Catalog) (todo : List Edge) (w : Walk) : Prop where
  registered : ∀ table n, (registryNodes r c).get? table = some n → w.nodes.get? table = some n
  cascade : ∀ table n, w.nodes.get? table = some n →
    (registryNodes r c).get? table = some n ∨ IsCascade c w.nodes table n
  done : ∀ e ∈ c.edges, e.key ∈ w.visited → Done c w e
  walked : ∀ table, w.nodes.deleted table = true → table ∈ w.frontier.map Prod.fst ∨
    ∀ e ∈ c.byParent table, (e.key ∈ w.visited ∨ e.child = e.parent) ∨ e ∈ todo
  deep : ∀ k ∈ w.checks, ∃ e, k = .tooDeep e ∧ e.child ∉ c.keyTables
  front : ∀ x ∈ w.frontier, w.nodes.deleted x.1 = true

theorem IsCascade.grows (h : Grows c w w') {n : Node}
    (hn : IsCascade c w.nodes table n) : IsCascade c w'.nodes table n := by
  refine ⟨hn.action, hn.template, hn.keyless, hn.cis, ?_⟩
  intro e he
  obtain ⟨hmem, hchild, hne, hd⟩ := hn.via e he
  exact ⟨hmem, hchild, hne, h.deleted hd⟩

theorem Visit.deleted_cases (h : Visit c depth w e w') (hd : w'.nodes.deleted table = true) :
    w.nodes.deleted table = true ∨ table ∈ w'.frontier.map Prod.fst := by
  obtain ⟨n', hn', hdel⟩ := exists_of_deleted hd
  rcases h.node_cases hn' with hn | ⟨-, -, ⟨n, hn, hact, -⟩ | ⟨-, -, -, hfront, -⟩⟩
  · exact Or.inl (by rw [deleted_of_get? hn]; exact hdel)
  · exact Or.inl (by rw [deleted_of_get? hn, hact]; rfl)
  · exact Or.inr hfront

theorem WalkInv.visit {todo : List Edge} (hi : WalkInv r c (e :: todo) w) (he : e ∈ c.edges)
    (hparent : w.nodes.deleted e.parent = true) (h : Visit c depth w e w') : WalkInv r c todo w' := by
  have hgrows := h.grows
  refine ⟨?_, ?_, ?_, ?_, ?_, ?_⟩
  · intro table n hn
    obtain ⟨n', hn', hact', -⟩ := hgrows.node table n (hi.registered table n hn)
    have hown := (registryNode_own hn).2
    rcases h.node_cases hn' with hold | ⟨-, -, ⟨m, hm, hcas, -⟩ | ⟨hnone, -⟩⟩
    · rw [hi.registered table n hn] at hold
      cases hold
      exact hn'
    · rw [hi.registered table n hn] at hm
      cases hm
      exact absurd hcas hown
    · rw [hi.registered table n hn] at hnone
      cases hnone
  · intro table n' hn'
    rcases h.node_cases hn' with hold | ⟨htab, hne, hnew⟩
    · exact (hi.cascade table n' hold).imp_right (IsCascade.grows hgrows)
    · have hedge : e ∈ c.edges ∧ e.child = table ∧ e.parent ≠ table ∧
          w'.nodes.deleted e.parent = true :=
        ⟨he, htab.symm, by rw [htab]; exact hne.symm, hgrows.deleted hparent⟩
      rcases hnew with ⟨n, hn, hact, rfl⟩ | ⟨-, hkey, hcis, -, rfl⟩
      · rcases hi.cascade table n hn with hreg | hcas
        · exact absurd hact (registryNode_own hreg).2
        · refine Or.inr ⟨hact, hcas.template, hcas.keyless, hcas.cis, ?_⟩
          intro e' he'
          rcases mem_append.1 he' with he' | he'
          · exact (hcas.grows hgrows).via e' he'
          · rw [mem_singleton.1 he']
            exact hedge
      · refine Or.inr ⟨rfl, rfl, hkey, hcis, ?_⟩
        intro e' he'
        rw [mem_singleton.1 he']
        exact hedge
  · intro e' he' hvis
    rcases h.visited_cases hvis with hold | ⟨hkey, hne⟩
    · exact (hi.done e' he' hold).grows hgrows
    · have heq : e' = e := c.edge_eq_of_key he' he hkey
      subst heq
      by_cases hnew : e'.key ∈ w.visited
      · exact (hi.done e' he' hnew).grows hgrows
      · exact h.done hnew hne
  · intro table hd
    rcases h.deleted_cases hd with hold | hfront
    · rcases hi.walked table hold with hfront | hall
      · exact Or.inl (map_subset _ h.frontier hfront)
      · refine Or.inr ?_
        intro e' he'
        rcases hall e' he' with (hvis | hself) | htodo
        · exact Or.inl (Or.inl (hgrows.visited hvis))
        · exact Or.inl (Or.inr hself)
        · rcases mem_cons.1 htodo with rfl | htodo
          · exact Or.inl h.visited
          · exact Or.inr htodo
    · exact Or.inl hfront
  · intro k hk
    rcases h.checks_cases hk with hold | ⟨rfl, hkey⟩
    · exact hi.deep k hold
    · exact ⟨e, rfl, hkey⟩
  · intro x hx
    rcases h.frontier_cases hx with hold | hdel
    · exact hgrows.deleted (hi.front x hold)
    · exact hdel

def Walk.unvisited (w : Walk) (c : Catalog) : Nat := c.edges.countP fun e => e.key ∉ w.visited

def Walk.work (w : Walk) (c : Catalog) : Nat := w.frontier.length + w.unvisited c

theorem unvisited_le (h : w.visited ⊆ w'.visited) : w'.unvisited c ≤ w.unvisited c := by
  apply countP_mono_left
  intro e _ hnew
  simp only [decide_eq_true_eq] at hnew ⊢
  exact fun hold => hnew (h hold)

theorem unvisited_lt (h : w.visited ⊆ w'.visited)
    (he : e ∈ c.edges) (hnew : e.key ∉ w.visited) (hvis : e.key ∈ w'.visited) : w'.unvisited c < w.unvisited c := by
  -- the keys unvisited before, split into those still unvisited and the others
  unfold Walk.unvisited
  rw [countP_eq_countP_filter_add c.edges (fun e => e.key ∉ w.visited) fun e =>
    decide (e.key ∈ w'.visited)]
  have hpos : 0 < (c.edges.filter fun e => decide (e.key ∈ w'.visited)).countP
      fun e => e.key ∉ w.visited := by
    rw [countP_pos_iff]
    exact ⟨e, mem_filter.2 ⟨he, decide_eq_true hvis⟩, decide_eq_true hnew⟩
  have hrest : c.edges.countP (fun e => e.key ∉ w'.visited) ≤
      (c.edges.filter fun e => !decide (e.key ∈ w'.visited)).countP fun e => e.key ∉ w.visited := by
    rw [countP_filter]
    apply countP_mono_left
    intro e' _ hno
    simp only [decide_eq_true_eq, Bool.and_eq_true, Bool.not_eq_true', decide_eq_false_iff_not] at hno ⊢
    exact ⟨fun hold => hno (h hold), hno⟩
  omega

theorem Visit.work_le (h : Visit c depth w e w') (he : e ∈ c.edges) : w'.work c ≤ w.work c := by
  have hle := unvisited_le (c := c) h.grows.visited
  unfold Walk.work
  cases h with
  | add _ _ _ _ hnew =>
    have hlt : ({ w with
        visited := w.visited ++ [e.key]
        nodes := w.nodes.upsert e.child { action := .cascade, via := [e] }
        frontier := w.frontier ++ [(e.child, depth + 1)] } : Walk).unvisited c < w.unvisited c :=
      unvisited_lt (subset_append_left _ _) he hnew (by simp)
    simp only [length_append, length_singleton]
    omega
  | unchanged _ => omega
  | defer kind _ _ => exact Nat.add_le_add_left hle _
  | skip _ _ _ => exact Nat.add_le_add_left hle _
  | tooDeep _ _ => exact Nat.add_le_add_left hle _
  | via _ _ _ => exact Nat.add_le_add_left hle _

theorem WalkInv.visits (depth : Nat) {es : List Edge}
    (hi : WalkInv r c es w) (hes : ∀ e ∈ es, e ∈ c.edges ∧ w.nodes.deleted e.parent = true) :
    WalkInv r c [] (es.foldl (visitEdge c depth) w) ∧ (es.foldl (visitEdge c depth) w).work c ≤ w.work c := by
  induction es generalizing w with
  | nil => exact ⟨hi, Nat.le_refl _⟩
  | cons e es ih =>
    have hvisit := visitEdge_visit c depth w e
    obtain ⟨he, hparent⟩ := hes e mem_cons_self
    obtain ⟨hinv, hwork⟩ := ih (hi.visit he hparent hvisit) (by
      intro e' he'
      obtain ⟨hmem, hd⟩ := hes e' (mem_cons_of_mem _ he')
      exact ⟨hmem, hvisit.grows.deleted hd⟩)
    exact ⟨hinv, hwork.trans (hvisit.work_le he)⟩

theorem WalkInv.pop
    {rest : List (String × Nat)} (hi : WalkInv r c [] w) (hw : w.frontier = (table, depth) :: rest) :
    WalkInv r c (c.byParent table) { w with frontier := rest } := by
  refine ⟨hi.registered, hi.cascade, ?_, ?_, hi.deep, ?_⟩
  · intro e he hvis
    -- `Done` does not read the frontier
    cases hi.done e he hvis with
    | defer kind hkind h => exact .defer kind hkind h
    | cascade hn hact h => exact .cascade hn hact h
    | unplanned hkey h => exact .unplanned hkey h
    | tooDeep h => exact .tooDeep h
  · intro t hd
    rcases hi.walked t hd with hfront | hall
    · rw [hw, map_cons, mem_cons] at hfront
      rcases hfront with rfl | hrest
      · exact Or.inr fun e he => Or.inr he
      · exact Or.inl hrest
    · refine Or.inr fun e he => ?_
      rcases hall e he with hdone | htodo
      · exact Or.inl hdone
      · cases htodo
  · intro x hx
    exact hi.front x (by rw [hw]; exact mem_cons_of_mem _ hx)

theorem walkFrom_inv {fuel : Nat} (hi : WalkInv r c [] w) (hfuel : w.work c ≤ fuel) :
    WalkInv r c [] (walkFrom c fuel w) ∧ (walkFrom c fuel w).frontier = [] := by
  induction fuel generalizing w with
  | zero =>
    refine ⟨hi, length_eq_zero_iff.1 ?_⟩
    unfold Walk.work at hfuel
    show w.frontier.length = 0
    omega
  | succ fuel ih =>
    rw [walkFrom]
    cases hfront : w.frontier with
    | nil => exact ⟨hi, hfront⟩
    | cons x rest =>
      obtain ⟨table, depth⟩ := x
      have htable : w.nodes.deleted table = true :=
        hi.front (table, depth) (by rw [hfront]; exact mem_cons_self)
      obtain ⟨hinv, hwork⟩ := (hi.pop hfront).visits depth (by
        intro e he
        obtain ⟨hmem, hparent⟩ := mem_filter.1 he
        rw [of_decide_eq_true hparent]
        exact ⟨hmem, htable⟩)
      apply ih hinv
      refine hwork.trans ?_
      unfold Walk.work at hfuel ⊢
      rw [hfront, length_cons] at hfuel
      show rest.length + w.unvisited c ≤ fuel
      omega

theorem startWalk_inv (r : Registry) (c : Catalog) : WalkInv r c [] (startWalk r c) := by
  refine ⟨fun _ _ h => h, fun _ _ h => Or.inl h, nofun, ?_, nofun, ?_⟩
  · intro table hd
    obtain ⟨n, hn, hdel⟩ := exists_of_deleted hd
    refine Or.inl (mem_map.2 ⟨(table, 0), ?_, rfl⟩)
    refine mem_map.2 ⟨(table, n), mem_filter.2 ⟨?_, hdel⟩, rfl⟩
    exact (Table.get?_eq_some_iff _ _ _).1 hn
  · intro x hx
    obtain ⟨⟨table, n⟩, hmem, rfl⟩ := mem_map.1 hx
    obtain ⟨hrow, hdel⟩ := mem_filter.1 hmem
    show (registryNodes r c).deleted table = true
    rw [deleted_of_get? ((Table.get?_eq_some_iff _ _ _).2 hrow)]
    exact hdel

theorem walk_inv (r : Registry) (c : Catalog) : WalkInv r c [] (walk r c) ∧ (walk r c).frontier = [] := by
  refine walkFrom_inv (startWalk_inv r c) (Nat.add_le_add_left ?_ _)
  exact countP_le_length

theorem walk_done (he : e ∈ c.edges) (hparent : (walk r c).nodes.deleted e.parent = true) (hne : e.child ≠ e.parent) :
    Done c (walk r c) e := by
  obtain ⟨hinv, hfront⟩ := walk_inv r c
  rcases hinv.walked e.parent hparent with hmem | hall
  · rw [hfront] at hmem
    cases hmem
  · rcases hall e (mem_filter.2 ⟨he, decide_eq_true rfl⟩) with (hvis | hself) | htodo
    · exact hinv.done e he hvis
    · exact absurd hself hne
    · cases htodo

/-! ## The tenant tables -/

theorem orderFrom_cycle {fuel : Nat} {live : List Edge} {remaining : List String} {d : DeleteOrder}
    (h : table ∈ (orderFrom fuel live remaining d).cycle) : table ∈ d.cycle ∨ table ∈ remaining := by
  induction fuel generalizing live remaining d with
  | zero => exact Or.inl h
  | succ fuel ih =>
    rw [orderFrom] at h
    split at h
    · exact Or.inl h
    · dsimp only at h
      split at h
      · rcases ih h with hd | hrem
        · exact Or.inl hd
        · exact Or.inr (mem_filter.1 hrem).1
      · split at h
        · exact Or.inr ((Lib.mem_sortBy _ _ _).1 h)
        · next e _ => exact ih (d := { d with nullFirst := d.nullFirst ++ [e] }) h

theorem exists_node_of_mem_cycle {edges : List Edge}
    (h : table ∈ (deleteOrder nodes edges).cycle) : ∃ n, nodes.get? table = some n := by
  rcases orderFrom_cycle h with hnil | hrem
  · cases hnil
  · obtain ⟨⟨t, n⟩, hmem, rfl⟩ := mem_map.1 hrem
    exact ⟨n, (Table.get?_eq_some_iff _ _ _).2 (mem_filter.1 hmem).1⟩

theorem pendingCheck_not_static {p : ChildKind × Edge} {k : Check} (h : k ∈ pendingCheck nodes p) : k.static = false := by
  unfold pendingCheck at h
  dsimp only at h
  split at h
  · rw [mem_singleton.1 h]
    rfl
  · rw [mem_singleton.1 h]
    rfl
  · repeat' split at h
    all_goals first
      | (rw [mem_singleton.1 h]; rfl)
      | cases h

theorem static_cases {k : Check} (h : k ∈ (planTenant r c).checks) (hk : k.static = true) : k ∈ (walk r c).checks ∨
      k = .unsupportedCycle (deleteOrder (walk r c).nodes c.edges).cycle ∨
      ∃ table ∈ unregisteredTables r c, k = .unregistered table := by
  simp only [planTenant, mem_append] at h
  rcases h with (((hwalk | hpend) | hself) | hcycle) | hunreg
  · exact Or.inl hwalk
  · obtain ⟨p, -, hp⟩ := mem_flatMap.1 hpend
    rw [pendingCheck_not_static hp] at hk
    cases hk
  · obtain ⟨e, -, rfl⟩ := mem_map.1 hself
    cases hk
  · split at hcycle
    · cases hcycle
    · exact Or.inr (Or.inl (mem_singleton.1 hcycle))
  · obtain ⟨table, htab, rfl⟩ := mem_map.1 hunreg
    exact Or.inr (Or.inr ⟨table, htab, rfl⟩)

/-- The table is a node of the plan, or a static finding names it. -/
def TenantPlan.Notices (p : TenantPlan) (table : String) : Prop :=
  (∃ n, p.nodes.get? table = some n) ∨ ∃ k ∈ p.checks, k.static = true ∧ table ∈ k.tables

theorem exists_node_iff_of_keyTable (r : Registry) (c : Catalog)
    (hkey : table ∈ c.keyTables) : (∃ n, (walk r c).nodes.get? table = some n) ↔
      ∃ t ∈ r, t.table = table ∧ t.Planned c := by
  rw [← exists_registryNode_iff]
  obtain ⟨hinv, -⟩ := walk_inv r c
  constructor
  · rintro ⟨n, hn⟩
    rcases hinv.cascade table n hn with hreg | hcas
    · exact ⟨n, hreg⟩
    · exact absurd hkey hcas.keyless
  · rintro ⟨n, hn⟩
    exact ⟨n, hinv.registered table n hn⟩

theorem mem_unregisteredTables : table ∈ unregisteredTables r c ↔ table ∈ c.keyTables ∧ table ∉ r.names := by
  unfold unregisteredTables
  rw [Lib.mem_sortBy, mem_filter, decide_eq_true_eq]

/-- A tenant table with an entry that cannot be planned is the one the plan does not notice. -/
theorem tenantTable_noticed_iff (r : Registry) (c : Catalog) (table : String)
    (hkey : table ∈ c.keyTables) : (planTenant r c).Notices table ↔
      table ∉ r.names ∨ ∃ t ∈ r, t.table = table ∧ t.Planned c := by
  have hnode := exists_node_iff_of_keyTable r c hkey
  constructor
  · rintro (hn | ⟨k, hmem, hstatic, htab⟩)
    · exact Or.inr (hnode.1 hn)
    · rcases static_cases hmem hstatic with hwalk | rfl | ⟨t, ht, rfl⟩
      · -- the walk reports only tables without a tenant key
        obtain ⟨e, rfl, hno⟩ := (walk_inv r c).1.deep k hwalk
        rw [List.mem_singleton.1 htab] at hkey
        exact absurd hkey hno
      · exact Or.inr (hnode.1 (exists_node_of_mem_cycle htab))
      · rw [List.mem_singleton.1 htab]
        exact Or.inl (mem_unregisteredTables.1 ht).2
  · rintro (hno | hplanned)
    · refine Or.inr ⟨.unregistered table, ?_, rfl, List.mem_singleton.2 rfl⟩
      refine mem_append_right _ (List.mem_map.2 ⟨table, ?_, rfl⟩)
      exact mem_unregisteredTables.2 ⟨hkey, hno⟩
    · exact Or.inl (hnode.2 hplanned)

/-- A catalog with one tenant table, keyed by a `tenant` column. -/
def pipelineJobs : Catalog where
  tables := ["acp_shared.pipeline_jobs"]
  tenantColumns := []
  tenantKeys := [("acp_shared.pipeline_jobs", ["tenant"])]
  edges := []
  nodup := List.nodup_nil

/-- Its entry, without a predicate. -/
def pipelineJobsEntry : TenantTable where
  table := "acp_shared.pipeline_jobs"
  action := .delete
  registered := nofun

theorem tenantTable_noticed_unregistered : (planTenant [] pipelineJobs).Notices "acp_shared.pipeline_jobs" :=
  (tenantTable_noticed_iff [] pipelineJobs "acp_shared.pipeline_jobs" (by decide)).2 (Or.inl nofun)

/-- The entry waits for a `tenant_id` column the table does not have: no node and no check at all. -/
theorem unplanned_table_missed : "acp_shared.pipeline_jobs" ∈ pipelineJobs.keyTables ∧
    (planTenant [pipelineJobsEntry] pipelineJobs).checks = [] ∧
    ¬ (planTenant [pipelineJobsEntry] pipelineJobs).Notices "acp_shared.pipeline_jobs" := by
  have hnodes : (planTenant [pipelineJobsEntry] pipelineJobs).nodes.rows = [] := by decide +kernel
  have hchecks : (planTenant [pipelineJobsEntry] pipelineJobs).checks = [] := by decide +kernel
  refine ⟨by decide, hchecks, ?_⟩
  rintro (⟨n, hn⟩ | ⟨k, hmem, -⟩)
  · rw [Table.get?, hnodes] at hn
    cases hn
  · rw [hchecks] at hmem
    cases hmem

end CisApp.Erasure
