import CisApp.Lib.Run
import CisApp.RouteConfig.Restore

/-!
# The versions of the route config

Every change of the route config should be a version: its snapshot and its diff
against the version before.  `begin` locks the settings row and records as an
`external` version what changed outside; `finish` records the writer's own
change.  An apply (save, preset, revert) reads its preview before the lock, one
table after another, and inside the transaction writes what the preview's diff
names.  The Routing tab's writers go on when `begin` or `finish` fails: without
the lock in the first case, with an unrecorded change in both.

The history is exact in every state.  A revert restores its version when no
change went unrecorded since its preview began and `expected_version` is not
ahead of the version the preview saw; `unrecorded` counts such changes, which
the code does not.
-/

namespace CisApp.RouteConfig

open List Option

structure Version where
  number : Nat
  snapshot : Config
  changes : List Change

/-- `read_snapshot` -/
def snapshotOf (history : List Version) (number : Nat) : Option Config :=
  (history.find? (·.number = number)).map (·.snapshot)

/-- `diff` against a snapshot that may be missing. -/
def diffSince (previous : Option Config) (live : Config) : List Change :=
  match previous with
  | some before => diff before live
  | none => .orderMode none live.orderMode :: diff ⟨live.orderMode, .empty, .empty⟩ live

/-! ## An apply -/

inductive Ask
  | save (orderMode : Option String) (routes providerOrder : List (String × List String))
  | preset (key : String)
  | revert (version : Nat)

/-- An apply before its transaction: what its preview has read so far. -/
structure Request where
  ask : Ask
  expected : Nat
  /-- `settings["current_version"]` -/
  opened : Nat
  seen : Nat
  orderMode : OrderMode
  routes : Option Routes
  priorities : Option Priorities
  deployments : Option (List (String × String))
  stages : Option (List String)
  snapshot : Option (Option Config)

/-- The proposal of `_proposal`, `none` when it is refused. -/
def Request.proposal? (r : Request) (cat : Catalog) (live : Config) (stages : List String) : Option Proposal :=
  match r.ask, r.snapshot with
  | .save mode routes order, _ => some ⟨mode, routes, order, []⟩
  | .preset key, _ => (presets key).map (presetChanges cat · live)
  | .revert _, some (some snapshot) => some (revertChanges snapshot stages)
  | .revert _, _ => none

structure Plan where
  stages : List String
  changes : List Change
  target : Config

def Request.plan? (r : Request) (cat : Catalog) : Option Plan := do
  let routes ← r.routes
  let priorities ← r.priorities
  let deployments ← r.deployments
  let stages ← r.stages
  let live : Config := ⟨r.orderMode, routes, priorities⟩
  let proposal ← r.proposal? cat live stages
  let t := buildTarget live proposal deployments stages
  if t.2.isEmpty ∧ ¬(diff live t.1).isEmpty then some ⟨stages, diff live t.1, t.1⟩ else none

/-! ## The system -/

/-- The transaction that holds the settings row.  `request` is `none` for a Routing tab writer. -/
structure Holder where
  request : Option Request
  /-- `state["current_version"]` -/
  version : Nat
  inserted : List Version
  writes : List Write
  todo : List Write
  finished : Bool
  recorded : Bool

structure State where
  config : Config
  current : Nat
  history : List Version
  unrecorded : Nat
  requests : Table Nat Request
  holder : Option Holder

def init (c : Config) : State := ⟨c, 1, [⟨1, c, []⟩], 0, .empty, none⟩

def Holder.view (h : Holder) (c : Config) : Config := h.writes.foldl Write.perform c

def Holder.locks (h : Holder) (stage : String) : Bool :=
  h.writes.any fun
    | .patch p => p.stage = stage
    | .route s _ => s = stage
    | _ => false

instance {κ ρ : Type} [DecidableEq κ] [DecidableEq ρ] : DecidableEq (Table κ ρ) := fun a b =>
  if h : a.rows = b.rows then isTrue (by cases a; cases b; cases h; rfl)
  else isFalse fun heq => h (congrArg Table.rows heq)

instance : DecidableEq Config := fun a b =>
  if h : a.orderMode = b.orderMode ∧ a.routes = b.routes ∧ a.priorities = b.priorities then
    isTrue (by cases a; cases b; obtain ⟨rfl, rfl, rfl⟩ := h; rfl)
  else isFalse fun heq => h (by cases heq; exact ⟨rfl, rfl, rfl⟩)

def State.replace (s : State) (c : Config) : State :=
  if c = s.config then s else { s with config := c, unrecorded := s.unrecorded + 1 }

/-- The version `begin` continues from, and the external version it inserts. -/
def State.begin (s : State) : Nat × List Version :=
  let changes := diffSince (snapshotOf s.history s.current) s.config
  if changes.isEmpty then (s.current, []) else (s.current + 1, [⟨s.current + 1, s.config, changes⟩])

def State.ask (s : State) (i : Nat) (ask : Ask) (expected : Nat) : State :=
  { s with
    requests := s.requests.insert i
      ⟨ask, expected, s.current, s.unrecorded, s.config.orderMode, none, none, none, none, none⟩ }

/-- The next read of the preview. -/
def State.readInto (s : State) (r : Request) : Request :=
  if r.routes.isNone then { r with routes := some s.config.routes }
  else if r.priorities.isNone then { r with priorities := some s.config.priorities }
  else if r.deployments.isNone then { r with deployments := some s.config.deployments }
  else if r.stages.isNone then { r with stages := some s.config.stages }
  else
    match r.ask, r.snapshot with
    | .revert v, none => { r with snapshot := some (snapshotOf s.history v) }
    | _, _ => r

def State.dropRequest (s : State) (i : Nat) : State := { s with requests := s.requests.delete fun k _ => k = i }

/-- The transaction of an apply, up to its first update. -/
def State.lock (s : State) (r : Request) (plan : Plan) : State :=
  if s.current ≠ r.expected then s
  else
    { s with
      holder := some ⟨some r, s.begin.1, s.begin.2, [],
        applyWrites plan.stages plan.changes plan.target s.config, false, false⟩ }

def State.patch (s : State) (p : Patch) : State :=
  { s with holder := some ⟨none, s.begin.1, s.begin.2, [], [.patch p], false, false⟩ }

def Write.raises (c : Config) : Write → Bool
  | .patch p => !c.stages.contains p.stage
  | _ => false

/-- One update. -/
def State.statement (s : State) (h : Holder) : State :=
  match h.todo with
  | [] => s
  | w :: rest =>
    if w.raises (h.view s.config) then { s with holder := none }
    else { s with holder := some { h with writes := h.writes ++ [w], todo := rest } }

/-- `finish`, or `record_safe` for a Routing tab writer; `fails` is an exception in it. -/
def State.finish (s : State) (h : Holder) (fails : Bool) : State :=
  let changes := diffSince (snapshotOf (h.inserted ++ s.history) h.version) (h.view s.config)
  if fails || changes.isEmpty then
    if h.request.isSome then { s with holder := none } else { s with holder := some { h with finished := true } }
  else
    { s with
      holder := some { h with
        version := h.version + 1
        inserted := ⟨h.version + 1, h.view s.config, changes⟩ :: h.inserted
        finished := true
        recorded := true } }

def State.commit (s : State) (h : Holder) : State :=
  let s' := if h.recorded then { s with config := h.view s.config } else s.replace (h.view s.config)
  { s' with current := h.version, history := h.inserted ++ s.history, holder := none }

inductive Event
  | outside (c : Config)
  | bare (p : Patch)
  | ask (i : Nat) (ask : Ask) (expected : Nat)
  | read (i : Nat)
  | drop (i : Nat)
  | lock (i : Nat) (cat : Catalog)
  | patch (p : Patch)
  | statement
  | finish (fails : Bool)
  | commit
  | rollback

/-- A migration changes the rows only while no writer holds the settings row; a Routing
tab writer whose `begin` failed (`bare`) waits only for rows that are locked. -/
def step (s : State) : Event → State
  | .outside c => if s.holder.isNone then s.replace c else s
  | .bare p =>
    if s.holder.any (·.locks p.stage) || !s.config.stages.contains p.stage then s
    else s.replace ((Write.patch p).perform s.config)
  | .ask i ask expected => s.ask i ask expected
  | .read i =>
    match s.requests.get? i with
    | none => s
    | some r => { s with requests := s.requests.upsert i (s.readInto r) }
  | .drop i => s.dropRequest i
  | .lock i cat =>
    match s.holder, s.requests.get? i with
    | none, some r =>
      match r.plan? cat with
      | none => s.dropRequest i
      | some plan => (s.dropRequest i).lock r plan
    | _, _ => s
  | .patch p =>
    match s.holder with
    | none => s.patch p
    | some _ => s
  | .statement =>
    match s.holder with
    | none => s
    | some h => s.statement h
  | .finish fails =>
    match s.holder with
    | none => s
    | some h => if h.todo.isEmpty && !h.finished then s.finish h fails else s
  | .commit =>
    match s.holder with
    | none => s
    | some h => if h.finished then s.commit h else s
  | .rollback => { s with holder := none }

/-! ## An exact history -/

/-- Version numbers run from 1; every later version has its diff, and it is not empty. -/
def Linked : List Version → Prop
  | [] => False
  | [v] => v.number = 1
  | v :: w :: rest =>
    v.number = w.number + 1 ∧ v.changes = diff w.snapshot v.snapshot ∧ v.changes ≠ [] ∧ Linked (w :: rest)

/-- The history is linked and the settings row names its newest version. -/
def Exact (s : State) : Prop := Linked s.history ∧ s.history.head?.map (·.number) = some s.current

variable {s : State} {history : List Version} {n : Nat}

theorem Linked.ne_nil (h : Linked history) : history ≠ [] := by
  rintro rfl
  exact h

theorem Linked.decreasing (h : Linked history) : history.Pairwise fun v w => w.number < v.number := by
  induction history with
  | nil => exact List.Pairwise.nil
  | cons v rest ih =>
    cases rest with
    | nil => exact pairwise_singleton _ _
    | cons w rest =>
      obtain ⟨hnum, -, -, hrest⟩ := h
      have hpair := ih hrest
      refine pairwise_cons.2 ⟨fun u hu => ?_, hpair⟩
      rcases mem_cons.1 hu with rfl | hu
      · omega
      · have hlt := (pairwise_cons.1 hpair).1 u hu
        omega

theorem exists_newest (h : Linked history) (hn : history.head?.map (·.number) = some n) :
    ∃ v rest, history = v :: rest ∧ v.number = n ∧ snapshotOf history n = some v.snapshot := by
  cases history with
  | nil => exact absurd rfl h.ne_nil
  | cons v rest =>
    have hv : v.number = n := Option.some.inj hn
    refine ⟨v, rest, rfl, hv, ?_⟩
    have hfind : (v :: rest).find? (·.number = n) = some v := List.find?_cons_of_pos (by rw [hv]; exact decide_eq_true rfl)
    rw [snapshotOf, hfind]
    rfl

theorem Linked.cons (h : Linked history) (hn : history.head?.map (·.number) = some n) {c : Config}
    (hne : diffSince (snapshotOf history n) c ≠ []) :
    Linked (⟨n + 1, c, diffSince (snapshotOf history n) c⟩ :: history) := by
  obtain ⟨v, rest, rfl, hv, hsnap⟩ := exists_newest h hn
  rw [hsnap] at hne ⊢
  exact ⟨by rw [hv], rfl, hne, h⟩

theorem snapshotOf_append {inserted : List Version} (h : Linked (inserted ++ history)) {c : Config}
    (hc : snapshotOf history n = some c) : snapshotOf (inserted ++ history) n = some c := by
  obtain ⟨v, hv, rfl⟩ := map_eq_some_iff.1 hc
  have hnum : v.number = n := by
    have hp := List.find?_some hv
    exact of_decide_eq_true hp
  have hnone : inserted.find? (·.number = n) = none := by
    rw [List.find?_eq_none]
    intro w hw hwn
    have hlt := (pairwise_append.1 h.decreasing).2.2 w hw v (List.mem_of_find?_eq_some hv)
    rw [decide_eq_true_eq] at hwn
    omega
  rw [snapshotOf, List.find?_append, hnone, hv]
  rfl

/-! ## The invariant -/

/-- What a preview has read is what is there, as long as the version it saw is in force
and no change went unrecorded. -/
structure Fresh (s : State) (r : Request) : Prop where
  opened : r.opened ≤ s.current
  seen : r.seen ≤ s.unrecorded
  snapshot : ∀ v c, r.ask = .revert v → r.snapshot = some (some c) → snapshotOf s.history v = some c
  agrees : r.opened = s.current → r.seen = s.unrecorded → r.orderMode = s.config.orderMode ∧
    (∀ t, r.routes = some t → t = s.config.routes) ∧ (∀ t, r.priorities = some t → t = s.config.priorities) ∧
    (∀ d, r.deployments = some d → d = s.config.deployments) ∧ ∀ l, r.stages = some l → l = s.config.stages

/-- The transaction of an apply does what the preview said. -/
def Planned (s : State) (h : Holder) (r : Request) : Prop :=
  r.opened = s.current → r.seen = s.unrecorded → ∃ cat plan, r.plan? cat = some plan ∧
    h.writes ++ h.todo = applyWrites plan.stages plan.changes plan.target s.config

structure Held (s : State) (h : Holder) : Prop where
  linked : Linked (h.inserted ++ s.history)
  version : (h.inserted ++ s.history).head?.map (·.number) = some h.version
  same : h.inserted = [] → h.version = s.current
  later : h.inserted ≠ [] → s.current < h.version
  done : h.finished = true → h.todo = []
  recorded : h.recorded = true → h.inserted ≠ []
  request : ∀ r, h.request = some r → Fresh s r ∧ r.expected = s.current ∧ Planned s h r

structure Inv (s : State) : Prop where
  exact : Exact s
  requests : ∀ i r, s.requests.get? i = some r → Fresh s r
  holder : ∀ h, s.holder = some h → Held s h

theorem inv_init (c : Config) : Inv (init c) :=
  ⟨⟨rfl, rfl⟩, fun _ _ h => (by cases h), fun _ h => (by cases h)⟩

variable {r : Request}

theorem Fresh.of_later {s' : State} (hr : Fresh s r) (hcurrent : s.current ≤ s'.current)
    (hunrecorded : s.unrecorded ≤ s'.unrecorded)
    (hhistory : ∀ v c, snapshotOf s.history v = some c → snapshotOf s'.history v = some c)
    (hconfig : s'.current = s.current → s'.unrecorded = s.unrecorded → s'.config = s.config) : Fresh s' r := by
  refine ⟨hr.opened.trans hcurrent, hr.seen.trans hunrecorded,
    fun v c hask hsnap => hhistory v c (hr.snapshot v c hask hsnap), fun hopened hseen => ?_⟩
  have hopened' := hr.opened
  have hseen' := hr.seen
  have hc : s'.current = s.current := by omega
  have hu : s'.unrecorded = s.unrecorded := by omega
  rw [hconfig hc hu]
  exact hr.agrees (hopened.trans hc) (hseen.trans hu)

theorem replace_cases (s : State) (c : Config) :
    s.replace c = s ∨ s.replace c = { s with config := c, unrecorded := s.unrecorded + 1 } := by
  unfold State.replace
  split
  · exact Or.inl rfl
  · exact Or.inr rfl

theorem Inv.replace (hs : Inv s) (c : Config) : Inv (s.replace c) := by
  rcases replace_cases s c with heq | heq
  · rw [heq]
    exact hs
  · rw [heq]
    have hfresh : ∀ r, Fresh s r → Fresh { s with config := c, unrecorded := s.unrecorded + 1 } r := by
      intro r hr
      refine hr.of_later le_rfl (Nat.le_succ _) (fun _ _ h => h) fun _ hu => ?_
      exact absurd hu (Nat.succ_ne_self _)
    refine ⟨hs.exact, fun i r hr => hfresh r (hs.requests i r hr), fun h hh => ?_⟩
    have hheld := hs.holder h hh
    refine ⟨hheld.linked, hheld.version, hheld.same, hheld.later, hheld.done, hheld.recorded, fun r hr => ?_⟩
    obtain ⟨hfr, hexp, -⟩ := hheld.request r hr
    refine ⟨hfresh r hfr, hexp, fun _ hseen => ?_⟩
    have hle := hfr.seen
    replace hseen : r.seen = s.unrecorded + 1 := hseen
    omega

theorem Inv.release (hs : Inv s) : Inv { s with holder := none } :=
  ⟨hs.exact, fun i r hr => ⟨(hs.requests i r hr).opened, (hs.requests i r hr).seen, (hs.requests i r hr).snapshot,
    (hs.requests i r hr).agrees⟩, fun _ h => (by cases h)⟩

variable {h : Holder}

theorem Inv.hold (hs : Inv s) (hheld : Held s h) : Inv { s with holder := some h } := by
  refine ⟨hs.exact, fun i r hr => ⟨(hs.requests i r hr).opened, (hs.requests i r hr).seen, (hs.requests i r hr).snapshot,
    (hs.requests i r hr).agrees⟩, fun h' hh' => ?_⟩
  cases hh'
  refine ⟨hheld.linked, hheld.version, hheld.same, hheld.later, hheld.done, hheld.recorded, fun r hr => ?_⟩
  obtain ⟨hfr, hexp, hplan⟩ := hheld.request r hr
  exact ⟨⟨hfr.opened, hfr.seen, hfr.snapshot, hfr.agrees⟩, hexp, hplan⟩

theorem Inv.setRequests (hs : Inv s) {t : Table Nat Request} (ht : ∀ i r, t.get? i = some r → Fresh s r) :
    Inv { s with requests := t } := by
  have hfresh : ∀ r, Fresh s r → Fresh { s with requests := t } r :=
    fun r hr => ⟨hr.opened, hr.seen, hr.snapshot, hr.agrees⟩
  refine ⟨hs.exact, fun i r hr => hfresh r (ht i r hr), fun h hh => ?_⟩
  have hheld := hs.holder h hh
  exact ⟨hheld.linked, hheld.version, hheld.same, hheld.later, hheld.done, hheld.recorded,
    fun r hr => ⟨hfresh r (hheld.request r hr).1, (hheld.request r hr).2⟩⟩

theorem Inv.dropRequest (hs : Inv s) (i : Nat) : Inv (s.dropRequest i) := by
  refine hs.setRequests fun j r hr => ?_
  rw [Table.get?_delete] at hr
  exact hs.requests j r (filter_eq_some_iff.1 hr).1

theorem Fresh.readInto (hr : Fresh s r) : Fresh s (s.readInto r) := by
  unfold State.readInto
  split
  · refine ⟨hr.opened, hr.seen, hr.snapshot, fun ho hs => ?_⟩
    obtain ⟨hm, -, hp, hd, hst⟩ := hr.agrees ho hs
    exact ⟨hm, fun t ht => (Option.some.inj ht).symm, hp, hd, hst⟩
  · split
    · refine ⟨hr.opened, hr.seen, hr.snapshot, fun ho hs => ?_⟩
      obtain ⟨hm, hrt, -, hd, hst⟩ := hr.agrees ho hs
      exact ⟨hm, hrt, fun t ht => (Option.some.inj ht).symm, hd, hst⟩
    · split
      · refine ⟨hr.opened, hr.seen, hr.snapshot, fun ho hs => ?_⟩
        obtain ⟨hm, hrt, hp, -, hst⟩ := hr.agrees ho hs
        exact ⟨hm, hrt, hp, fun t ht => (Option.some.inj ht).symm, hst⟩
      · split
        · refine ⟨hr.opened, hr.seen, hr.snapshot, fun ho hs => ?_⟩
          obtain ⟨hm, hrt, hp, hd, -⟩ := hr.agrees ho hs
          exact ⟨hm, hrt, hp, hd, fun t ht => (Option.some.inj ht).symm⟩
        · split
          · next v hask hnone =>
            refine ⟨hr.opened, hr.seen, fun v' c hask' hsnap => ?_, hr.agrees⟩
            cases hask.symm.trans hask'
            exact Option.some.inj hsnap
          · exact hr

theorem begin_held (hs : Inv s) :
    Linked (s.begin.2 ++ s.history) ∧ (s.begin.2 ++ s.history).head?.map (·.number) = some s.begin.1 ∧
      (s.begin.2 = [] → s.begin.1 = s.current) ∧ (s.begin.2 ≠ [] → s.current < s.begin.1) := by
  unfold State.begin
  dsimp only
  split
  · exact ⟨hs.exact.1, hs.exact.2, fun _ => rfl, fun h => absurd rfl h⟩
  · next hne =>
    refine ⟨hs.exact.1.cons hs.exact.2 fun h => hne (List.isEmpty_iff.2 h), rfl, fun h => (by cases h), fun _ => ?_⟩
    exact Nat.lt_succ_self _

theorem Inv.lock (hs : Inv s) (hr : Fresh s r) {cat : Catalog} {plan : Plan} (hplan : r.plan? cat = some plan) :
    Inv (s.lock r plan) := by
  unfold State.lock
  split
  · exact hs
  · next hexp =>
    obtain ⟨hlinked, hversion, hsame, hlater⟩ := begin_held hs
    refine hs.hold ⟨hlinked, hversion, hsame, hlater, fun h => (by cases h), fun h => (by cases h), fun r' hr' => ?_⟩
    cases hr'
    refine ⟨hr, (not_not.1 hexp).symm, fun _ _ => ⟨cat, plan, hplan, ?_⟩⟩
    rfl

theorem Inv.patch (hs : Inv s) (p : Patch) : Inv (s.patch p) := by
  obtain ⟨hlinked, hversion, hsame, hlater⟩ := begin_held hs
  exact hs.hold ⟨hlinked, hversion, hsame, hlater, fun h => (by cases h), fun h => (by cases h), fun r hr => (by cases hr)⟩

theorem Inv.statement (hs : Inv s) (hh : s.holder = some h) : Inv (s.statement h) := by
  have hheld := hs.holder h hh
  unfold State.statement
  split
  · exact hs
  · next w rest htodo =>
    split
    · exact hs.release
    · refine hs.hold ⟨hheld.linked, hheld.version, hheld.same, hheld.later, fun hf => ?_, hheld.recorded, fun r hr => ?_⟩
      · have hnil := hheld.done hf
        rw [htodo] at hnil
        cases hnil
      · obtain ⟨hfr, hexp, hplan⟩ := hheld.request r hr
        refine ⟨hfr, hexp, fun ho hse => ?_⟩
        obtain ⟨cat, plan, hp, heq⟩ := hplan ho hse
        refine ⟨cat, plan, hp, ?_⟩
        rw [← heq, htodo, append_assoc, singleton_append]

theorem Inv.finish (hs : Inv s) (hh : s.holder = some h) (htodo : h.todo = []) (fails : Bool) : Inv (s.finish h fails) := by
  have hheld := hs.holder h hh
  unfold State.finish
  dsimp only
  split
  · split
    · exact hs.release
    · exact hs.hold ⟨hheld.linked, hheld.version, hheld.same, hheld.later, fun _ => htodo, hheld.recorded, hheld.request⟩
  · next hne =>
    rw [Bool.or_eq_true, not_or] at hne
    refine hs.hold ⟨?_, rfl, fun h => (by cases h), fun _ => ?_, fun _ => htodo, fun _ => cons_ne_nil _ _, hheld.request⟩
    · exact hheld.linked.cons hheld.version fun h => hne.2 (List.isEmpty_iff.2 h)
    · show s.current < h.version + 1
      by_cases hnil : h.inserted = []
      · rw [hheld.same hnil]
        exact Nat.lt_succ_self _
      · exact (hheld.later hnil).trans (Nat.lt_succ_self _)

theorem commit_parts (s : State) (h : Holder) :
    (s.commit h).current = h.version ∧ (s.commit h).history = h.inserted ++ s.history ∧ (s.commit h).holder = none ∧
      (s.commit h).requests = s.requests ∧ (s.commit h).config = h.view s.config ∧
      (s.unrecorded ≤ (s.commit h).unrecorded) ∧
      (h.recorded = false → (s.commit h).unrecorded = s.unrecorded → h.view s.config = s.config) := by
  unfold State.commit
  cases h.recorded with
  | true => exact ⟨rfl, rfl, rfl, rfl, rfl, le_rfl, fun h => (by cases h)⟩
  | false =>
    rw [if_neg Bool.false_ne_true]
    unfold State.replace
    split
    · next heq => exact ⟨rfl, rfl, rfl, rfl, heq.symm, le_rfl, fun _ _ => heq⟩
    · exact ⟨rfl, rfl, rfl, rfl, rfl, Nat.le_succ _, fun _ hu => absurd hu (Nat.succ_ne_self _)⟩

theorem Inv.commit (hs : Inv s) (hh : s.holder = some h) : Inv (s.commit h) := by
  have hheld := hs.holder h hh
  obtain ⟨hcurrent, hhistory, hholder, hrequests, hconfig, hunrecorded, hkept⟩ := commit_parts s h
  have hle : s.current ≤ h.version := by
    by_cases hnil : h.inserted = []
    · exact (hheld.same hnil).ge
    · exact (hheld.later hnil).le
  refine ⟨⟨hhistory ▸ hheld.linked, ?_⟩, fun i r hr => ?_, fun h' hh' => ?_⟩
  · exact hheld.version
  · refine (hs.requests i r (hrequests ▸ hr)).of_later (hcurrent ▸ hle) hunrecorded (fun v c hc => ?_) fun hc hu => ?_
    · exact snapshotOf_append hheld.linked hc
    · -- nothing was inserted, so nothing was recorded
      have hnil : h.inserted = [] := by_contra fun hne => (hheld.later hne).ne hc.symm
      have hrec : h.recorded = false := Bool.eq_false_iff.2 fun hrec => hheld.recorded hrec hnil
      rw [hconfig, hkept hrec hu]
  · cases hh'

theorem Inv.step (hs : Inv s) (e : Event) : Inv (step s e) := by
  cases e with
  | outside c =>
    simp only [RouteConfig.step]
    split
    · exact hs.replace c
    · exact hs
  | bare p =>
    simp only [RouteConfig.step]
    split
    · exact hs
    · exact hs.replace _
  | ask i ask expected =>
    refine hs.setRequests fun j r hr => ?_
    rw [Table.get?_insert] at hr
    split at hr
    · cases hr
      exact ⟨le_rfl, le_rfl, fun _ _ _ h => (by cases h), fun _ _ => ⟨rfl, fun _ h => (by cases h), fun _ h => (by cases h),
        fun _ h => (by cases h), fun _ h => (by cases h)⟩⟩
    · exact hs.requests j r hr
  | read i =>
    simp only [RouteConfig.step]
    cases hi : s.requests.get? i with
    | none => exact hs
    | some r =>
      refine hs.setRequests fun j r' hr' => ?_
      rw [Table.get?_upsert] at hr'
      split at hr'
      · cases hr'
        exact (hs.requests i r hi).readInto
      · exact hs.requests j r' hr'
  | drop i => exact hs.dropRequest i
  | lock i cat =>
    simp only [RouteConfig.step]
    split
    · next r hnone hi =>
      split
      · exact hs.dropRequest i
      · next plan hplan =>
        have hr := hs.requests i r hi
        exact (hs.dropRequest i).lock ⟨hr.opened, hr.seen, hr.snapshot, hr.agrees⟩ hplan
    · exact hs
  | patch p =>
    simp only [RouteConfig.step]
    split
    · exact hs.patch p
    · exact hs
  | statement =>
    simp only [RouteConfig.step]
    split
    · exact hs
    · next h hh => exact hs.statement hh
  | finish fails =>
    simp only [RouteConfig.step]
    split
    · exact hs
    · next h hh =>
      split
      · next hdone =>
        rw [Bool.and_eq_true, List.isEmpty_iff] at hdone
        exact hs.finish hh hdone.1 fails
      · exact hs
  | commit =>
    simp only [RouteConfig.step]
    split
    · exact hs
    · next h hh =>
      split
      · exact hs.commit hh
      · exact hs
  | rollback => exact hs.release

/-! ## Reverts -/

theorem plan_of_revert {cat : Catalog} {plan : Plan} {v : Nat} (hask : r.ask = .revert v)
    (hplan : r.plan? cat = some plan) {c : Config} (hmode : r.orderMode = c.orderMode)
    (hroutes : ∀ t, r.routes = some t → t = c.routes) (hprios : ∀ t, r.priorities = some t → t = c.priorities)
    (hdeps : ∀ d, r.deployments = some d → d = c.deployments) (hstages : ∀ l, r.stages = some l → l = c.stages) :
    ∃ snapshot, r.snapshot = some (some snapshot) ∧ (revertTarget c snapshot).2 = [] ∧ plan.stages = c.stages ∧
      plan.changes = diff c (revertTarget c snapshot).1 ∧ plan.target = (revertTarget c snapshot).1 := by
  simp only [Request.plan?, bind_eq_bind, bind_eq_some_iff] at hplan
  obtain ⟨routes, hr, prios, hp, deps, hd, stages, hst, proposal, hprop, hif⟩ := hplan
  cases hroutes _ hr
  cases hprios _ hp
  cases hdeps _ hd
  cases hstages _ hst
  have hc : (⟨r.orderMode, c.routes, c.priorities⟩ : Config) = c := by rw [hmode]
  rw [hc] at hprop hif
  unfold Request.proposal? at hprop
  rw [hask] at hprop
  cases hsnap : r.snapshot with
  | none =>
    rw [hsnap] at hprop
    cases hprop
  | some found =>
    cases found with
    | none =>
      rw [hsnap] at hprop
      cases hprop
    | some snapshot =>
      rw [hsnap] at hprop
      cases hprop
      split at hif
      · next hok =>
        cases hif
        exact ⟨snapshot, rfl, List.isEmpty_iff.1 hok.1, rfl, rfl, rfl⟩
      · cases hif

theorem Inv.restores (hs : Inv s) {v : Nat} (hh : s.holder = some h)
    (hfinished : h.finished = true) (hreq : h.request = some r) (hask : r.ask = .revert v)
    (hexpected : r.expected ≤ r.opened) (hseen : r.seen = s.unrecorded) :
    ∃ c, snapshotOf (s.commit h).history v = some c ∧ Restored c (s.commit h).config := by
  have hheld := hs.holder h hh
  obtain ⟨hfresh, hexp, hplanned⟩ := hheld.request r hreq
  have hle := hfresh.opened
  have hopened : r.opened = s.current := by omega
  obtain ⟨cat, plan, hplan, hwrites⟩ := hplanned hopened hseen
  obtain ⟨hmode, hroutes, hprios, hdeps, hstages⟩ := hfresh.agrees hopened hseen
  obtain ⟨c, hsnap, herr, hps, hpc, hpt⟩ := plan_of_revert hask hplan hmode hroutes hprios hdeps hstages
  obtain ⟨-, hhistory, -, -, hconfig, -, -⟩ := commit_parts s h
  refine ⟨c, ?_, ?_⟩
  · exact snapshotOf_append hheld.linked (hfresh.snapshot v c hask hsnap)
  · rw [hheld.done hfinished, append_nil, hps, hpc, hpt] at hwrites
    rw [hconfig, Holder.view, hwrites]
    exact revert_restores herr

/-! ## Every run -/

/-- An apply with a stale `expected_version` writes nothing. -/
def StaleRefused (s : State) (e : Event) : Prop :=
  ∀ i cat r, e = .lock i cat → s.requests.get? i = some r → r.expected ≠ s.current →
    (step s e).config = s.config ∧ (step s e).history = s.history ∧ (step s e).current = s.current ∧
      (step s e).holder = s.holder

/-- A revert that returns, with an `expected_version` its preview may have seen and no
unrecorded change since, leaves the config of its version. -/
def RevertRestores (s : State) (e : Event) : Prop :=
  ∀ h r v, e = .commit → s.holder = some h → h.finished = true → h.request = some r → r.ask = .revert v →
    r.expected ≤ r.opened → r.seen = s.unrecorded →
    ∃ c, snapshotOf (step s e).history v = some c ∧ Restored c (step s e).config

theorem staleRefused (s : State) (e : Event) : StaleRefused s e := by
  rintro i cat r rfl hi hne
  simp only [step]
  split
  · next r' hnone hi' =>
    cases hi.symm.trans hi'
    split
    · exact ⟨rfl, rfl, rfl, rfl⟩
    · unfold State.lock
      rw [if_pos (fun h => hne h.symm)]
      exact ⟨rfl, rfl, rfl, rfl⟩
  · exact ⟨rfl, rfl, rfl, rfl⟩

/-- **The route history is exact and a revert restores.** -/
theorem route_history_exact (c : Config) (events : List Event) :
    Always step Exact (init c) events ∧ Along step (fun s e => StaleRefused s e ∧ RevertRestores s e) (init c) events := by
  have hinv : Always step Inv (init c) events := always_of_step (fun s e hs => hs.step e) events (inv_init c)
  refine ⟨hinv.mono fun s hs => hs.exact, hinv.along fun s e hs _ => ⟨staleRefused s e, ?_⟩⟩
  rintro h r v rfl hh hfinished hreq hask hexpected hseen
  have hstep : step s .commit = s.commit h := by
    simp only [step, hh]
    exact if_pos hfinished
  rw [hstep]
  exact hs.restores hh hfinished hreq hask hexpected hseen

/-! ### Reverts that do not restore -/

section Sample

def sampleConfig (fallbacks : List String) : Config :=
  ⟨.modelFirst, ⟨[("rewrite", ⟨"opus", fallbacks⟩)], List.nodup_singleton _⟩, .empty⟩

def sampleCatalog : Catalog := ⟨fun _ => false, fun _ => false, fun _ => false⟩

def previewOf (i : Nat) (ask : Ask) (expected : Nat) : List Event := .ask i ask expected :: List.replicate 5 (.read i)

def transactionOf (i : Nat) : List Event := [.lock i sampleCatalog, .statement, .statement, .finish false]

/-- Version 2 changes the order mode; then the preview of a revert to version 1. -/
def beforeRevert (expected : Nat) : List Event :=
  previewOf 0 (.save (some "aws_first") [] []) 1 ++ transactionOf 0 ++ [.commit] ++ previewOf 1 (.revert 1) expected

def revertReady (s : State) : Bool :=
  s.holder.any fun h => h.finished && h.request.any fun r => match r.ask with
    | .revert v => v = 1
    | _ => false

def chainIs (s : State) (chain : List String) : Bool := s.config.chain? "rewrite" = some chain

def chainOfVersion (s : State) (n : Nat) : Option (List String) :=
  (snapshotOf s.history n).bind fun c => c.chain? "rewrite"

/-- The chain of a reverted stage is not that of the version: a Routing tab writer whose
`begin` failed changed it after the preview; or one whose change was recorded, with an
`expected_version` ahead of the preview's; or the version's chain has a blank key. -/
theorem reverts_that_do_not_restore :
    (∃ s, s = run step (init (sampleConfig [])) (beforeRevert 2 ++ [.bare (.modelId "rewrite" "haiku")] ++ transactionOf 1) ∧
      revertReady s = true ∧ chainIs (step s .commit) ["haiku"] = true ∧
      chainOfVersion (step s .commit) 1 = some ["opus"]) ∧
    (∃ s, s = run step (init (sampleConfig [])) (beforeRevert 3 ++
        [.patch (.modelId "rewrite" "haiku"), .statement, .finish false, .commit] ++ transactionOf 1) ∧
      revertReady s = true ∧ chainIs (step s .commit) ["haiku"] = true ∧
      chainOfVersion (step s .commit) 1 = some ["opus"]) ∧
    ∃ s, s = run step (init (sampleConfig [" "])) (beforeRevert 2 ++ transactionOf 1) ∧
      revertReady s = true ∧ chainIs (step s .commit) ["opus"] = true ∧
      chainOfVersion (step s .commit) 1 = some ["opus", " "] := by
  refine ⟨⟨_, rfl, ?_⟩, ⟨_, rfl, ?_⟩, ⟨_, rfl, ?_⟩⟩
  · decide +kernel
  · decide +kernel
  · decide +kernel

example : (run step (init (sampleConfig [])) (beforeRevert 2 ++ transactionOf 1 ++ [.commit])).config = sampleConfig [] := by
  decide +kernel

end Sample

end CisApp.RouteConfig
