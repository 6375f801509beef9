import CisApp.Lib.Downstream
import CisApp.Erasure.Walk

/-! The order in which the tables are deleted.

`_delete_order` peels off the tables that no remaining table points at, and where there is none takes one nullable foreign key
between remaining tables out.  `Orders` is that loop without its fuel, one case for each kind of round.  The tables that are left
when nothing can be peeled are those on a cycle or below one, so a key below a cycle can be taken out as well
(`mem_nullFirst_iff`). -/

namespace CisApp.Erasure

open CisApp.Lib Relation List

/-- A row of `a` may point at a row of `b`, another table. -/
def pointsTo (live : List Edge) (a b : String) : Prop := ∃ e ∈ live, e.child = a ∧ e.parent = b ∧ a ≠ b

/-- The key is nullable and between remaining tables. -/
def isStuck (remaining : List String) (e : Edge) : Bool :=
  remaining.contains e.child && remaining.contains e.parent && e.childNullable

/-- The loop from the keys `live` and the tables that remain: the order, the keys to null first and the cycle. -/
inductive Orders : List Edge → List String → List String → List Edge → List String → Prop
  | done (live : List Edge) : Orders live [] [] [] []
  | peel {live : List Edge} {remaining free order : List String} {nulled : List Edge} {cycle : List String}
      (hfree : free = sortBy id (remaining.filter (ready live remaining))) (hne : free ≠ [])
      (h : Orders live (remaining.filter (· ∉ free)) order nulled cycle) : Orders live remaining (free ++ order) nulled cycle
  | stop {live : List Edge} {remaining : List String} (hne : remaining ≠ [])
      (hfree : ∀ t ∈ remaining, ready live remaining t = false) (hstuck : ∀ e ∈ live, isStuck remaining e = false) :
      Orders live remaining (sortBy id remaining) [] (sortBy id remaining)
  | null {before after : List Edge} {e : Edge} {remaining order : List String} {nulled : List Edge} {cycle : List String}
      (hfree : ∀ t ∈ remaining, ready (before ++ e :: after) remaining t = false) (he : isStuck remaining e = true)
      (hfirst : ∀ e' ∈ before, isStuck remaining e' = false) (h : Orders (before ++ after) remaining order nulled cycle) :
      Orders (before ++ e :: after) remaining order (e :: nulled) cycle

/-! ## The loop ends -/

theorem orderFrom_orders {fuel : Nat} {live : List Edge} {remaining : List String} {d : DeleteOrder}
    (hfuel : remaining.length + live.length ≤ fuel) (hd : d.cycle = []) :
    ∃ order nulled cycle, Orders live remaining order nulled cycle ∧
      orderFrom fuel live remaining d = ⟨d.order ++ order, d.nullFirst ++ nulled, cycle⟩ := by
  induction fuel generalizing live remaining d with
  | zero =>
    obtain rfl : remaining = [] := length_eq_zero_iff.1 (by omega)
    refine ⟨[], [], [], Orders.done live, ?_⟩
    rw [append_nil, append_nil, ← hd]
    rfl
  | succ fuel ih =>
    rw [orderFrom]
    by_cases hnil : remaining = []
    · subst hnil
      refine ⟨[], [], [], Orders.done live, ?_⟩
      rw [if_pos rfl, append_nil, append_nil, ← hd]
    · rw [if_neg hnil]
      by_cases hfree : sortBy id (remaining.filter (ready live remaining)) = []
      · rw [if_neg (not_not.2 hfree)]
        have hnone : ∀ t ∈ remaining, ready live remaining t = false := by
          intro t ht
          by_contra hready
          have hmem : t ∈ sortBy id (remaining.filter (ready live remaining)) :=
            (mem_sortBy _ _ _).2 (mem_filter.2 ⟨ht, by simpa using hready⟩)
          rw [hfree] at hmem
          cases hmem
        cases hfind : live.find? fun e => remaining.contains e.child && remaining.contains e.parent && e.childNullable with
        | none =>
          refine ⟨_, [], _, Orders.stop hnil hnone fun e he => ?_, ?_⟩
          · have := List.find?_eq_none.1 hfind e he
            unfold isStuck
            simpa using this
          · rw [append_nil]
        | some e =>
          obtain ⟨he, before, after, rfl, hbefore⟩ := List.find?_eq_some_iff_append.1 hfind
          have herase : (before ++ e :: after).erase e = before ++ after := by
            rw [erase_append_right _ fun hmem => ?_, erase_cons_head]
            have := hbefore e hmem
            rw [he] at this
            cases this
          have hlen : remaining.length + (before ++ after).length ≤ fuel := by
            rw [length_append, length_cons] at hfuel
            rw [length_append]
            omega
          obtain ⟨order, nulled, cycle, horders, heq⟩ := @ih (before ++ after) remaining
            { d with nullFirst := d.nullFirst ++ [e] } hlen hd
          refine ⟨order, e :: nulled, cycle, Orders.null hnone he (fun e' he' => ?_) horders, ?_⟩
          · have := hbefore e' he'
            rwa [Bool.not_eq_true'] at this
          · dsimp only
            rw [herase, heq, append_assoc]
            rfl
      · rw [if_pos hfree]
        have hlen : (remaining.filter (· ∉ sortBy id (remaining.filter (ready live remaining)))).length + live.length ≤ fuel := by
          -- a table that is peeled off is out
          obtain ⟨t, ht⟩ := exists_mem_of_ne_nil _ hfree
          have hrem := (mem_filter.1 ((mem_sortBy _ _ _).1 ht)).1
          have hlt : (remaining.filter (· ∉ sortBy id (remaining.filter (ready live remaining)))).length < remaining.length :=
            length_filter_lt_length_iff_exists.2 ⟨t, hrem, by rw [decide_eq_true_eq, not_not]; exact ht⟩
          omega
        obtain ⟨order, nulled, cycle, horders, heq⟩ := @ih live _
          { d with order := d.order ++ sortBy id (remaining.filter (ready live remaining)) } hlen hd
        refine ⟨_, nulled, cycle, Orders.peel rfl hfree horders, ?_⟩
        rw [heq, append_assoc]

/-! ## What remains -/

def Covers (live : List Edge) (remaining : List String) : Prop := ∀ t, Below (pointsTo live) t → t ∈ remaining

theorem pointsTo_mono {live live' : List Edge} (h : ∀ e ∈ live, e ∈ live') {a b : String} (hab : pointsTo live a b) :
    pointsTo live' a b := by
  obtain ⟨e, he, hrest⟩ := hab
  exact ⟨e, h e he, hrest⟩

theorem ready_eq_false_iff {live : List Edge} {remaining : List String} {t : String} :
    ready live remaining t = false ↔ ∃ u ∈ remaining, pointsTo live u t := by
  unfold ready
  rw [Bool.not_eq_false', any_eq_true]
  constructor
  · rintro ⟨e, he, hcond⟩
    simp only [Bool.and_eq_true, decide_eq_true_eq, contains_iff_mem] at hcond
    obtain ⟨⟨hparent, hrem⟩, hne⟩ := hcond
    exact ⟨e.child, hrem, e, he, rfl, hparent, hne⟩
  · rintro ⟨u, hu, e, he, rfl, hparent, hne⟩
    refine ⟨e, he, ?_⟩
    simp only [Bool.and_eq_true, decide_eq_true_eq, contains_iff_mem]
    exact ⟨⟨hparent, hu⟩, hne⟩

theorem below_of_stuck {live : List Edge} {remaining : List String}
    (hfree : ∀ t ∈ remaining, ready live remaining t = false) {t : String} (ht : t ∈ remaining) :
    Below (pointsTo live) t := by
  refine below_of_preds (U := {u | u ∈ remaining}) (finite_toSet remaining) (fun u hu => ?_) ht
  exact ready_eq_false_iff.1 (hfree u hu)

theorem Covers.peel {live : List Edge} {remaining : List String} (h : Covers live remaining) :
    Covers live (remaining.filter (· ∉ sortBy id (remaining.filter (ready live remaining)))) := by
  intro t ht
  refine mem_filter.2 ⟨h t ht, decide_eq_true fun hmem => ?_⟩
  have hready := (mem_filter.1 ((mem_sortBy _ _ _).1 hmem)).2
  obtain ⟨u, hu, hut⟩ := ht.pred
  rw [ready_eq_false_iff.2 ⟨u, h u hu, hut⟩] at hready
  cases hready

theorem Covers.sub {live live' : List Edge} {remaining : List String} (h : Covers live remaining)
    (hsub : ∀ e ∈ live', e ∈ live) : Covers live' remaining :=
  fun t ht => h t (ht.mono fun _ _ => pointsTo_mono hsub)

theorem child_notMem {live : List Edge} {remaining : List String} (hcovers : Covers live remaining)
    (hfree : ∀ t ∈ remaining, ready live remaining t = false) {e : Edge} (he : e ∈ live) (hnull : e.childNullable = true)
    (hnot : isStuck remaining e = false) : e.child ∉ remaining := by
  intro hchild
  have hparent : e.parent ∈ remaining := by
    by_cases hsame : e.child = e.parent
    · rwa [← hsame]
    · exact hcovers _ ((below_of_stuck hfree hchild).step ⟨e, he, rfl, rfl, hsame⟩)
  unfold isStuck at hnot
  rw [contains_iff_mem.2 hchild, contains_iff_mem.2 hparent, hnull] at hnot
  cases hnot

/-! ## The order -/

theorem mem_free {live : List Edge} {remaining : List String} {t : String} (ht : t ∈ remaining) :
    t ∈ sortBy id (remaining.filter (ready live remaining)) ↔ ready live remaining t = true := by
  rw [mem_sortBy, mem_filter]
  exact and_iff_right ht

theorem Orders.perm {live : List Edge} {remaining order : List String} {nulled : List Edge} {cycle : List String}
    (h : Orders live remaining order nulled cycle) : order.Perm remaining := by
  induction h with
  | done => exact List.Perm.nil
  | @peel live remaining free order nulled cycle hfree _ _ ih =>
    have hrest : remaining.filter (· ∉ free) = remaining.filter fun t => !ready live remaining t := by
      refine filter_congr fun t ht => ?_
      rw [hfree, Bool.eq_iff_iff, decide_eq_true_eq, Bool.not_eq_true', mem_free ht, Bool.not_eq_true]
    rw [hrest] at ih
    have hfirst : free.Perm (remaining.filter (ready live remaining)) := hfree ▸ sortBy_perm _ _
    exact (hfirst.append ih).trans (filter_append_perm _ remaining)
  | stop => exact sortBy_perm _ _
  | null _ _ _ _ ih => exact ih

theorem Orders.before {live : List Edge} {remaining order : List String} {nulled : List Edge} {cycle : List String}
    (h : Orders live remaining order nulled cycle) (hcycle : cycle = []) {e : Edge} (he : e ∈ live) (hnot : e ∉ nulled)
    (hchild : e.child ∈ remaining) (hparent : e.parent ∈ remaining) (hne : e.child ≠ e.parent) :
    [e.child, e.parent].Sublist order := by
  induction h with
  | done => cases hchild
  | @peel live remaining free order nulled cycle hfree _ hrest ih =>
    -- the parent cannot go while the child remains
    have hlater : e.parent ∉ free := by
      rw [hfree, mem_free hparent, Bool.not_eq_true]
      exact ready_eq_false_iff.2 ⟨e.child, hchild, e, he, rfl, rfl, hne⟩
    have hparent' : e.parent ∈ remaining.filter (· ∉ free) := mem_filter.2 ⟨hparent, decide_eq_true hlater⟩
    by_cases hfirst : e.child ∈ free
    · have hone := singleton_sublist.2 hfirst
      have htwo := singleton_sublist.2 (hrest.perm.mem_iff.2 hparent')
      exact hone.append htwo
    · have hchild' : e.child ∈ remaining.filter (· ∉ free) := mem_filter.2 ⟨hchild, decide_eq_true hfirst⟩
      exact (ih hcycle he hnot hchild' hparent').trans (sublist_append_right free order)
  | @stop live remaining hrem =>
    have hperm := (sortBy_perm id remaining).symm
    rw [hcycle] at hperm
    exact absurd hperm.eq_nil hrem
  | @null before after e' remaining order nulled cycle _ _ _ _ ih =>
    rw [mem_cons, not_or] at hnot
    refine ih hcycle ?_ hnot.2 hchild hparent
    rcases mem_append.1 he with he | he
    · exact mem_append_left _ he
    · exact mem_append_right _ ((mem_cons.1 he).resolve_left hnot.1)

/-! ## The keys that are nulled -/

/-- The nullable key starts on a cycle, or below one, of the keys without the nullable ones before it. -/
def Nulls (live : List Edge) (e : Edge) : Prop :=
  ∃ before after, live = before ++ e :: after ∧ e.childNullable = true ∧
    Below (pointsTo (before.filter (!·.childNullable) ++ e :: after)) e.child

theorem Nulls.below {live : List Edge} {e : Edge} (h : Nulls live e) : Below (pointsTo live) e.child := by
  obtain ⟨before, after, rfl, -, hbelow⟩ := h
  refine hbelow.mono fun a b => pointsTo_mono fun e' he' => ?_
  rcases mem_append.1 he' with he' | he'
  · exact mem_append_left _ (mem_filter.1 he').1
  · exact mem_append_right _ he'

theorem mem_of_without {before after : List Edge} {e e' : Edge} (h : e' ∈ before ++ after) : e' ∈ before ++ e :: after := by
  rcases mem_append.1 h with h | h
  · exact mem_append_left _ h
  · exact mem_append_right _ (mem_cons_of_mem e h)

theorem nulls_split {before after : List Edge} {e : Edge} {remaining : List String}
    (hcovers : Covers (before ++ e :: after) remaining)
    (hfree : ∀ t ∈ remaining, ready (before ++ e :: after) remaining t = false) (he : isStuck remaining e = true)
    (hfirst : ∀ e' ∈ before, isStuck remaining e' = false) (e' : Edge) :
    Nulls (before ++ e :: after) e' ↔ e' = e ∨ Nulls (before ++ after) e' := by
  unfold isStuck at he
  simp only [Bool.and_eq_true, contains_iff_mem] at he
  -- a nullable key before it starts at no remaining table
  have hbefore : ∀ e' ∈ before, e'.childNullable = true → ¬Below (pointsTo (before ++ e :: after)) e'.child := by
    intro e' he' hnull hbelow
    exact child_notMem hcovers hfree (mem_append_left _ he') hnull (hfirst e' he') (hcovers _ hbelow)
  constructor
  · rintro ⟨A, B, heq, hnull, hbelow⟩
    have hwhole := Nulls.below ⟨A, B, heq, hnull, hbelow⟩
    rcases append_eq_append_iff.1 heq with ⟨as, rfl, has⟩ | ⟨as, rfl, has⟩
    · cases as with
      | nil => exact Or.inl (List.cons.inj has).1.symm
      | cons x as =>
        obtain ⟨rfl, rfl⟩ := List.cons.inj has
        right
        refine ⟨before ++ as, B, by simp, hnull, ?_⟩
        rwa [filter_append, filter_cons_of_neg (by simp [he.2]), ← filter_append] at hbelow
    · cases as with
      | nil => exact Or.inl (List.cons.inj has).1
      | cons x as =>
        obtain ⟨rfl, rfl⟩ := List.cons.inj has
        exact absurd hwhole (hbefore e' (by simp) hnull)
  · rintro (rfl | ⟨A, B, heq, hnull, hbelow⟩)
    · refine ⟨before, after, rfl, he.2, (below_of_stuck hfree he.1.1).restrict ?_⟩
      rintro a b ha ⟨e'', he'', rfl, hb, hne⟩
      refine ⟨e'', ?_, rfl, hb, hne⟩
      rcases mem_append.1 he'' with hmem | hmem
      · refine mem_append_left _ (mem_filter.2 ⟨hmem, ?_⟩)
        by_contra hnull
        exact hbefore e'' hmem (by simpa using hnull) ha
      · exact mem_append_right _ hmem
    · have hwhole : Below (pointsTo (before ++ e :: after)) e'.child :=
        (Nulls.below ⟨A, B, heq, hnull, hbelow⟩).mono fun a b => pointsTo_mono fun _ => mem_of_without
      have hafter : ∀ as, after = as ++ e' :: B → A = before ++ as → Nulls (before ++ e :: after) e' := by
        rintro as rfl rfl
        refine ⟨before ++ e :: as, B, by simp, hnull, ?_⟩
        rwa [filter_append, filter_cons_of_neg (by simp [he.2]), ← filter_append]
      rcases append_eq_append_iff.1 heq with ⟨as, hA, has⟩ | ⟨as, hbef, has⟩
      · exact hafter as has hA
      · cases as with
        | nil => exact hafter [] has.symm (by rw [hbef]; simp)
        | cons x as =>
          obtain ⟨rfl, rfl⟩ := List.cons.inj has
          exact absurd hwhole (hbefore e' (by rw [hbef]; simp) hnull)

theorem Orders.mem_nulled_iff {live : List Edge} {remaining order : List String} {nulled : List Edge} {cycle : List String}
    (h : Orders live remaining order nulled cycle) (hcovers : Covers live remaining) (e : Edge) :
    e ∈ nulled ↔ Nulls live e := by
  induction h with
  | done => exact ⟨fun he => (not_mem_nil he).elim, fun he => absurd (hcovers _ he.below) not_mem_nil⟩
  | peel hfree _ _ ih =>
    subst hfree
    exact ih hcovers.peel
  | stop _ hfree hstuck =>
    refine ⟨fun he => (not_mem_nil he).elim, fun he => absurd (hcovers _ he.below) ?_⟩
    obtain ⟨before, after, rfl, hnull, -⟩ := he
    exact child_notMem hcovers hfree (by simp) hnull (hstuck e (by simp))
  | null hfree he hfirst _ ih =>
    rw [nulls_split hcovers hfree he hfirst, mem_cons, ih]
    exact hcovers.sub fun _ => mem_of_without

/-! ## The cycle that stays -/

theorem Orders.cycle_iff {live : List Edge} {remaining order : List String} {nulled : List Edge} {cycle : List String}
    (h : Orders live remaining order nulled cycle) (hcovers : Covers live remaining) :
    cycle ≠ [] ↔ ∃ t, TransGen (pointsTo (live.filter (!·.childNullable))) t t := by
  have hpart : ∀ {live : List Edge} {t : String}, TransGen (pointsTo (live.filter (!·.childNullable))) t t →
      Below (pointsTo live) t := fun ht =>
    (Below.of_cycle ht).mono fun a b => pointsTo_mono fun e he => (mem_filter.1 he).1
  induction h with
  | done =>
    refine ⟨fun hne => absurd rfl hne, ?_⟩
    rintro ⟨t, ht⟩
    exact absurd (hcovers t (hpart ht)) not_mem_nil
  | peel hfree _ _ ih =>
    subst hfree
    exact ih hcovers.peel
  | @stop live remaining hrem hfree hstuck =>
    refine ⟨fun _ => ?_, fun _ hnil => hrem ?_⟩
    · obtain ⟨t, ht⟩ := exists_mem_of_ne_nil remaining hrem
      -- the keys between remaining tables are none of them nullable
      obtain ⟨c, hc, -⟩ : Below (pointsTo (live.filter (!·.childNullable))) t := by
        refine (below_of_stuck hfree ht).restrict ?_
        rintro a b ha ⟨e, he, rfl, rfl, hne⟩
        refine ⟨e, mem_filter.2 ⟨he, ?_⟩, rfl, rfl, hne⟩
        by_contra hnull
        exact child_notMem hcovers hfree he (by simpa using hnull) (hstuck e he) (hcovers _ ha)
      exact ⟨c, hc⟩
    · have hperm := (sortBy_perm id remaining).symm
      rw [hnil] at hperm
      exact hperm.eq_nil
  | @null before after e remaining order nulled cycle hfree he _ _ ih =>
    have hnull : e.childNullable = true := by
      exact (Bool.and_eq_true_iff.1 he).2
    rw [filter_append, filter_cons_of_neg (by simp [hnull]), ← filter_append]
    exact ih (hcovers.sub fun _ => mem_of_without)

/-! ## The plan's order -/

def deletedTables (nodes : Nodes) : List String := (nodes.rows.filter fun x => x.2.action.deletes).map Prod.fst

/-- The foreign keys and soft keys among the deleted tables; a table's key to itself is no edge. -/
def deletedGraph (nodes : Nodes) (edges : List Edge) : List Edge :=
  (edges.filter fun e => nodes.deleted e.child && nodes.deleted e.parent && e.child ≠ e.parent) ++ softEdges nodes

theorem mem_deletedTables {nodes : Nodes} {t : String} : t ∈ deletedTables nodes ↔ nodes.deleted t = true := by
  constructor
  · intro h
    obtain ⟨x, hx, rfl⟩ := mem_map.1 h
    obtain ⟨hrow, hdel⟩ := mem_filter.1 hx
    rw [deleted_of_get? ((Table.get?_eq_some_iff _ _ _).2 hrow)]
    exact hdel
  · intro h
    obtain ⟨n, hn, hdel⟩ := exists_of_deleted h
    exact mem_map.2 ⟨(t, n), mem_filter.2 ⟨(Table.get?_eq_some_iff _ _ _).1 hn, hdel⟩, rfl⟩

theorem mem_liveEdges {nodes : Nodes} {edges : List Edge} {e : Edge} : e ∈ liveEdges nodes edges ↔ e ∈ deletedGraph nodes edges := by
  unfold liveEdges
  rw [mem_sortBy, mem_dedup]
  rfl

theorem soft_of_mem {nodes : Nodes} {e : Edge} (h : e ∈ softEdges nodes) :
    e.childNullable = false ∧ nodes.deleted e.child = true ∧ nodes.deleted e.parent = true := by
  obtain ⟨x, hx, he⟩ := mem_flatMap.1 h
  obtain ⟨sp, hsp, rfl⟩ := mem_map.1 he
  refine ⟨rfl, mem_deletedTables.1 (mem_map.2 ⟨x, hx, rfl⟩), (mem_filter.1 hsp).2⟩

theorem deleted_of_mem_graph {nodes : Nodes} {edges : List Edge} {e : Edge} (h : e ∈ deletedGraph nodes edges) :
    nodes.deleted e.child = true ∧ nodes.deleted e.parent = true := by
  rcases mem_append.1 h with h | h
  · have := (mem_filter.1 h).2
    simp only [Bool.and_eq_true] at this
    exact this.1
  · exact (soft_of_mem h).2

theorem deleteOrder_orders (nodes : Nodes) (edges : List Edge) :
    Orders (liveEdges nodes edges) (deletedTables nodes) (deleteOrder nodes edges).order (deleteOrder nodes edges).nullFirst
      (deleteOrder nodes edges).cycle := by
  obtain ⟨order, nulled, cycle, horders, heq⟩ := @orderFrom_orders ((deletedTables nodes).length + (liveEdges nodes edges).length)
    (liveEdges nodes edges) (deletedTables nodes) {} le_rfl rfl
  have hresult : deleteOrder nodes edges = ⟨order, nulled, cycle⟩ := heq
  rw [hresult]
  exact horders

theorem deletedTables_covers (nodes : Nodes) (edges : List Edge) : Covers (liveEdges nodes edges) (deletedTables nodes) := by
  intro t ht
  obtain ⟨u, -, e, he, -, rfl, -⟩ := ht.pred
  exact mem_deletedTables.2 (deleted_of_mem_graph (mem_liveEdges.1 he)).2

/-- The order as it should be. -/
structure MinimalOrder (nodes : Nodes) (edges : List Edge) : Prop where
  ends : Orders (liveEdges nodes edges) (deletedTables nodes) (deleteOrder nodes edges).order (deleteOrder nodes edges).nullFirst
    (deleteOrder nodes edges).cycle
  once : (deleteOrder nodes edges).order.Nodup ∧ ∀ t, t ∈ (deleteOrder nodes edges).order ↔ nodes.deleted t = true
  childFirst : (deleteOrder nodes edges).cycle = [] → ∀ e ∈ deletedGraph nodes edges, e.child ≠ e.parent →
    e ∉ (deleteOrder nodes edges).nullFirst → [e.child, e.parent].Sublist (deleteOrder nodes edges).order
  nulled : ∀ e ∈ (deleteOrder nodes edges).nullFirst, e ∈ edges ∧ e.childNullable = true ∧ e ∉ softEdges nodes ∧
    ReflTransGen (pointsTo (deletedGraph nodes edges)) e.parent e.child
  error : (deleteOrder nodes edges).cycle ≠ [] ↔
    ∃ t, TransGen (pointsTo ((deletedGraph nodes edges).filter (!·.childNullable))) t t

/-- The order is as it should be exactly where no key is nulled that is below a cycle and on none. -/
theorem delete_order_minimal (nodes : Nodes) (edges : List Edge) :
    MinimalOrder nodes edges ↔
      ∀ before e after, liveEdges nodes edges = before ++ e :: after → e.childNullable = true →
        Below (pointsTo (before.filter (!·.childNullable) ++ e :: after)) e.child →
        ReflTransGen (pointsTo (deletedGraph nodes edges)) e.parent e.child := by
  have horders := deleteOrder_orders nodes edges
  have hcovers := deletedTables_covers nodes edges
  constructor
  · intro h before e after heq hnull hbelow
    exact (h.nulled e ((horders.mem_nulled_iff hcovers e).2 ⟨before, after, heq, hnull, hbelow⟩)).2.2.2
  · intro h
    refine ⟨horders, ⟨?_, fun t => ?_⟩, fun hcycle e he hne hnot => ?_, fun e he => ?_, ?_⟩
    · refine horders.perm.nodup_iff.2 ?_
      exact nodes.nodup.sublist (List.filter_sublist.map _)
    · rw [horders.perm.mem_iff, mem_deletedTables]
    · obtain ⟨hchild, hparent⟩ := deleted_of_mem_graph he
      exact horders.before hcycle (mem_liveEdges.2 he) hnot (mem_deletedTables.2 hchild) (mem_deletedTables.2 hparent) hne
    · obtain ⟨before, after, heq, hnull, hbelow⟩ := (horders.mem_nulled_iff hcovers e).1 he
      have hsoft : e ∉ softEdges nodes := by
        intro hsoft
        rw [(soft_of_mem hsoft).1] at hnull
        cases hnull
      have hgraph : e ∈ deletedGraph nodes edges := mem_liveEdges.1 (by rw [heq]; simp)
      have hown := (List.mem_append.1 hgraph).resolve_right hsoft
      exact ⟨(List.mem_filter.1 hown).1, hnull, hsoft, h before e after heq hnull hbelow⟩
    · have hsame : pointsTo ((liveEdges nodes edges).filter (!·.childNullable)) =
          pointsTo ((deletedGraph nodes edges).filter (!·.childNullable)) := by
        funext a b
        unfold pointsTo
        simp only [mem_filter, mem_liveEdges]
      rw [horders.cycle_iff hcovers, hsame]

/-- Three tables: `a` and `b` point at each other, and `b` points at `c`. -/
def cycleNodes : Nodes := ⟨[("a", { action := .delete }), ("b", { action := .delete }), ("c", { action := .delete })], by simp⟩

def fk (conname child parent : String) (childNullable : Bool) : Edge :=
  { conname, child, parent, childCols := ["x"], parentCols := ["id"], childNullable, deltype := .noAction }

def cycleEdges : List Edge := [fk "k1" "b" "c" true, fk "k2" "a" "b" true, fk "k3" "b" "a" false]

/-- The key from `b` to `c` is nulled as well, and it is on no cycle. -/
theorem nulled_off_cycle :
    fk "k1" "b" "c" true ∈ (deleteOrder cycleNodes cycleEdges).nullFirst ∧
      ¬ReflTransGen (pointsTo (deletedGraph cycleNodes cycleEdges)) "c" "b" ∧ ¬MinimalOrder cycleNodes cycleEdges := by
  have hnulled : (deleteOrder cycleNodes cycleEdges).nullFirst = [fk "k1" "b" "c" true, fk "k2" "a" "b" true] := by
    decide +kernel
  have hgraph : deletedGraph cycleNodes cycleEdges = cycleEdges := by decide +kernel
  have hmem : fk "k1" "b" "c" true ∈ (deleteOrder cycleNodes cycleEdges).nullFirst := by
    rw [hnulled]
    exact mem_cons_self
  -- no key starts at `c`
  have hpath : ¬ReflTransGen (pointsTo (deletedGraph cycleNodes cycleEdges)) "c" "b" := by
    rw [hgraph]
    intro h
    rcases ReflTransGen.cases_head h with heq | ⟨u, ⟨e, he, hchild, -⟩, -⟩
    · exact absurd heq (by decide)
    · simp only [cycleEdges, mem_cons, not_mem_nil, or_false] at he
      rcases he with rfl | rfl | rfl <;> exact absurd hchild (by decide)
  exact ⟨hmem, hpath, fun h => hpath (h.nulled _ hmem).2.2.2⟩

end CisApp.Erasure
