import CisApp.Lifecycle.Statements
import CisApp.Lib.Run

/-!
# The fan-out of a key's events to the tenants (`tour_lifecycle/fanout.py`)

One job per retired or restored event of a key runs `fan_out`: it reads the
event, then the key's served state, and only then takes the key's lock and
writes.  Between its reads and its lock other runs, replays of its own event and
new events of the key may come.

An event is known by its place in the key's change record (`idempotency_key` and
`id` both stand for it).  What the tenants have at the moment of a write, their
live posts and derivatives, is given with the write, so it may change between
any two.

When every run that writes as `retired` does so while the key still is retired,
the tenants are told the served state in the end (`settles`).  A run that read
`retired` and is held up until the key is restored writes its flags and notices
all the same, after the restored run has cleared them (`late_retired_run`).
-/

namespace CisApp.Lifecycle.Fanout

open List

/-! ## The tables -/

structure Change where
  kind : EventKind
  tour : Tour
deriving Repr, DecidableEq

def stateAfter : EventKind → State
  | .retired => .retired
  | .paused => .paused
  | .superseded => .paused
  | .restored => .served

/-- A row of `content_compliance_flag` of the kind `tour_retired`. -/
structure Flag where
  tenant : Tenant
  publish : Nat
  tour : Tour
  event : Nat
  /-- `draft_after_notice`, for a WordPress post. -/
  drafts : Bool
  isOpen : Bool
deriving Repr, DecidableEq

/-- A row of `tenant_tour_notice`, in the order of their writing. -/
structure Notice where
  tenant : Tenant
  tour : Tour
  event : Nat
  isRetired : Bool
  immediate : Bool
deriving Repr, DecidableEq

/-- A live post: `publish_log` published and not unpublished, of a piece about `tour`. -/
structure Post where
  publish : Nat
  tenant : Tenant
  tour : Tour
  wordpress : Bool
deriving Repr, DecidableEq

inductive Phase where
  | begun
  | read (now : Option State)
  | ended
deriving Repr, DecidableEq

/-- A run of `fan_out` that found its event. -/
structure FanOut where
  event : Nat
  change : Change
  phase : Phase
deriving Repr, DecidableEq

structure Tables where
  events : List Change
  /-- `v_tour_liveness` of the key. -/
  state : Option State
  flags : List Flag
  notices : List Notice
  runs : List FanOut
  finished : List Nat
deriving Repr, DecidableEq

/-! ## The statements -/

def aaTenant : Tenant := 0

/-- The notices about the tours, but those of the event `other`. -/
def noticesAbout (tours : List Tour) (other : Option Nat) (notices : List Notice) (t : Tenant) :
    List Notice :=
  notices.filter fun n => n.tenant == t && tours.contains n.tour && other != some n.event

/-- The latest of them, in the order of the events and then of their writing. -/
def latestNotice (tours : List Tour) (other : Option Nat) (notices : List Notice) (t : Tenant) :
    Option Notice :=
  Table.firstBy (fun a b => decide (b.event ≤ a.event)) (noticesAbout tours other notices t).reverse

/-- `OUTSTANDING_RETIRED_SQL`. -/
def outstandingRetired (tours : List Tour) (key : Nat) (notices : List Notice) : List Tenant :=
  ((notices.map Notice.tenant).dedup).filter fun t =>
    (latestNotice tours (some key) notices t).any Notice.isRetired

/-- `LIVE_POSTS_SQL`: without the posts that have an open flag of another event. -/
def livePosts (tours : List Tour) (key : Nat) (flags : List Flag) (live : List Post) : List Post :=
  live.filter fun p => tours.contains p.tour && p.tenant != aaTenant &&
    !flags.any fun f => f.isOpen && f.publish == p.publish && f.event != key

/-- `INSERT_FLAG_SQL`, one flag for an event and a post. -/
def insertFlag (key : Nat) (flags : List Flag) (p : Post) : List Flag :=
  if flags.any fun f => f.event == key && f.publish == p.publish then flags
  else flags ++ [⟨p.tenant, p.publish, p.tour, key, p.wordpress, true⟩]

/-- `INSERT_NOTICE_SQL`, one notice for a tenant and an event. -/
def insertNotice (notices : List Notice) (n : Notice) : List Notice :=
  if notices.any fun m => m.tenant == n.tenant && m.event == n.event then notices else notices ++ [n]

/-- `_retired`: `derivs` are the tenants with a derivative, `cancelled` those whose abandoned
publish claims were closed. -/
def retired (tours : List Tour) (key : Nat) (tour : Tour) (live : List Post)
    (derivs cancelled : List Tenant) (s : Tables) : Tables :=
  let posts := livePosts tours key s.flags live
  let told := outstandingRetired tours key s.notices
  let perTenant := posts.map Post.tenant ++ cancelled
  let tenants := ((derivs ++ perTenant).dedup.filter fun t => t != aaTenant).filter fun t =>
    !(told.contains t && !perTenant.contains t)
  { s with
    flags := posts.foldl (insertFlag key) s.flags
    notices := (tenants.map fun t => ⟨t, tour, key, true, posts.any fun p => p.tenant == t⟩).foldl
      insertNotice s.notices }

/-- The flags `RESOLVE_RESTORED_SQL` resolves. -/
def resolves (tours : List Tour) (f : Flag) : Bool := f.isOpen && tours.contains f.tour

def restored (tours : List Tour) (key : Nat) (tour : Tour) (s : Tables) : Tables :=
  let hadLive := (s.flags.filter (resolves tours)).map Flag.tenant
  let tenants := (outstandingRetired tours key s.notices ++ hadLive).dedup
  { s with
    flags := s.flags.map fun f => if resolves tours f then { f with isOpen := false } else f
    notices := (tenants.map fun t => ⟨t, tour, key, false, hadLive.contains t⟩).foldl
      insertNotice s.notices }

/-! ## The steps -/

inductive Op where
  | commit (kind : EventKind) (tour : Tour)
  | begin_ (event : Nat)
  | readState (run : Nat)
  | write (run : Nat) (live : List Post) (derivs cancelled : List Tenant)
deriving Repr, DecidableEq

/-- The transaction of `fan_out` under the lock. -/
def fanOut (tours : List Tour) (r : FanOut) (now : Option State) (live : List Post)
    (derivs cancelled : List Tenant) (s : Tables) : Tables :=
  match r.change.kind with
  | .retired =>
    if now = some .retired then retired tours r.event r.change.tour live derivs cancelled s else s
  | .restored =>
    if now = some .served ∨ now = none then restored tours r.event r.change.tour s else s
  | _ => s

def fansOut : EventKind → Bool
  | .retired => true
  | .restored => true
  | _ => false

def step (tours : List Tour) (s : Tables) : Op → Tables
  | .commit kind tour =>
    if tours.contains tour then
      { s with
        events := s.events ++ [⟨kind, tour⟩], state := some (stateAfter kind), finished := [] }
    else s
  | .begin_ event =>
    match s.events[event]? with
    | some ch => if fansOut ch.kind then { s with runs := s.runs ++ [⟨event, ch, .begun⟩] } else s
    | none => s
  | .readState i =>
    match s.runs[i]? with
    | some r =>
      if r.phase = .begun then { s with runs := s.runs.set i { r with phase := .read s.state } } else s
    | none => s
  | .write i live derivs cancelled =>
    match s.runs[i]? with
    | some r =>
      match r.phase with
      | .read now =>
        let s' := fanOut tours r now live derivs cancelled s
        { s' with
          runs := s.runs.set i { r with phase := .ended }, finished := r.event :: s.finished }
      | _ => s
    | none => s

def init (state : Option State) : Tables := ⟨[], state, [], [], [], []⟩

/-! ## What the tenants should be told -/

/-- Every event with a job has had one end since the last event. -/
def AllFinished (s : Tables) : Prop :=
  ∀ i ch, s.events[i]? = some ch → fansOut ch.kind = true → i ∈ s.finished

/-- No flag of the tours is open, and no tenant's latest notice about them is a retired one. -/
structure Settled (tours : List Tour) (s : Tables) : Prop where
  flags : ∀ f ∈ s.flags, f.tour ∈ tours → f.isOpen = false
  notices : ∀ t n, latestNotice tours none s.notices t = some n → n.isRetired = false

/-- A run that read the key as retired writes while it still is. -/
def Fresh (s : Tables) : Op → Prop
  | .write i _ _ _ => ∀ r, s.runs[i]? = some r → r.change.kind = .retired →
      r.phase = .read (some .retired) → s.state = some .retired
  | _ => True

instance (s : Tables) : ∀ op, Decidable (Fresh s op)
  | .write i _ _ _ => inferInstanceAs (Decidable (∀ r ∈ s.runs[i]?, r.change.kind = .retired →
      r.phase = .read (some .retired) → s.state = some .retired))
  | .commit _ _ => inferInstanceAs (Decidable True)
  | .begin_ _ => inferInstanceAs (Decidable True)
  | .readState _ => inferInstanceAs (Decidable True)

/-! ## The inserts -/

/-- One notice for a tenant and an event. -/
def OneEach (notices : List Notice) : Prop :=
  ∀ a ∈ notices, ∀ b ∈ notices, a.tenant = b.tenant → a.event = b.event → a = b

variable {notices : List Notice} {n a : Notice}

theorem mem_insertNotice (h : a ∈ insertNotice notices n) : a ∈ notices ∨ a = n := by
  unfold insertNotice at h
  split at h
  · exact Or.inl h
  · rcases mem_append.1 h with h | h
    · exact Or.inl h
    · exact Or.inr (mem_singleton.1 h)

theorem mem_insertNotice_of_mem (n : Notice) (h : a ∈ notices) : a ∈ insertNotice notices n := by
  unfold insertNotice
  split
  · exact h
  · exact mem_append_left _ h

theorem exists_of_insertNotice (notices : List Notice) (n : Notice) :
    ∃ m ∈ insertNotice notices n, m.tenant = n.tenant ∧ m.event = n.event := by
  unfold insertNotice
  split
  · next h =>
    obtain ⟨m, hm, he⟩ := List.any_eq_true.1 h
    exact ⟨m, hm, by simpa using he⟩
  · exact ⟨n, mem_append_right _ (mem_singleton.2 rfl), rfl, rfl⟩

theorem OneEach.insertNotice (h : OneEach notices) (n : Notice) : OneEach (insertNotice notices n) := by
  unfold Fanout.insertNotice
  split
  · exact h
  · next hno =>
    have hnew : ∀ m ∈ notices, m.tenant = n.tenant → m.event = n.event → False := by
      intro m hm ht he
      exact hno (List.any_eq_true.2 ⟨m, hm, by simp [ht, he]⟩)
    intro a ha b hb ht he
    rcases mem_append.1 ha with ha | ha
    · rcases mem_append.1 hb with hb | hb
      · exact h a ha b hb ht he
      · rw [mem_singleton.1 hb] at ht he
        exact (hnew a ha ht he).elim
    · rw [mem_singleton.1 ha] at ht he ⊢
      rcases mem_append.1 hb with hb | hb
      · exact (hnew b hb ht.symm he.symm).elim
      · exact (mem_singleton.1 hb).symm

theorem mem_insertNotices {news : List Notice} (h : a ∈ news.foldl insertNotice notices) : a ∈ notices ∨ a ∈ news := by
  induction news generalizing notices with
  | nil => exact Or.inl h
  | cons n news ih =>
    rcases ih h with h | h
    · rcases mem_insertNotice h with h | rfl
      · exact Or.inl h
      · exact Or.inr mem_cons_self
    · exact Or.inr (mem_cons_of_mem _ h)

theorem mem_insertNotices_of_mem (news : List Notice) (h : a ∈ notices) : a ∈ news.foldl insertNotice notices := by
  induction news generalizing notices with
  | nil => exact h
  | cons n news ih => exact ih (mem_insertNotice_of_mem n h)

theorem exists_of_insertNotices {news : List Notice} (notices : List Notice) (h : n ∈ news) :
    ∃ m ∈ news.foldl insertNotice notices, m.tenant = n.tenant ∧ m.event = n.event := by
  induction news generalizing notices with
  | nil => cases h
  | cons x news ih =>
    rcases mem_cons.1 h with rfl | h
    · obtain ⟨m, hm, he⟩ := exists_of_insertNotice notices n
      exact ⟨m, mem_insertNotices_of_mem news hm, he⟩
    · exact ih _ h

theorem OneEach.insertNotices (h : OneEach notices) (news : List Notice) :
    OneEach (news.foldl Fanout.insertNotice notices) := by
  induction news generalizing notices with
  | nil => exact h
  | cons n news ih => exact ih (h.insertNotice n)

variable {key : Nat}

theorem mem_insertFlags {posts : List Post} {flags : List Flag} {f : Flag}
    (h : f ∈ posts.foldl (insertFlag key) flags) : f ∈ flags ∨ f.event = key := by
  induction posts generalizing flags with
  | nil => exact Or.inl h
  | cons p posts ih =>
    rcases ih h with h | h
    · unfold insertFlag at h
      split at h
      · exact Or.inl h
      · rcases mem_append.1 h with h | h
        · exact Or.inl h
        · rw [mem_singleton] at h
          exact Or.inr (by rw [h])
    · exact Or.inr h

/-! ## The latest notice -/

variable {other : Option Nat}

theorem mem_noticesAbout {tours : List Tour} {t : Tenant} : n ∈ noticesAbout tours other notices t ↔
      n ∈ notices ∧ n.tenant = t ∧ n.tour ∈ tours ∧ other ≠ some n.event := by
  simp [noticesAbout, and_assoc]

theorem latestNotice_spec {tours : List Tour} {t : Tenant} (h : latestNotice tours other notices t = some n) :
    n ∈ noticesAbout tours other notices t ∧ ∀ m ∈ noticesAbout tours other notices t, m.event ≤ n.event := by
  obtain ⟨hmem, hmax⟩ := Table.firstBy_spec _ (fun a b => by simp only [decide_eq_true_eq]; omega)
    (fun a b c => by simp only [decide_eq_true_eq]; omega) _ _ h
  refine ⟨mem_reverse.1 hmem, fun m hm => ?_⟩
  simpa using hmax m (mem_reverse.2 hm)

theorem latestNotice_eq {tours : List Tour} {t : Tenant}
    (hone : OneEach notices) (hn : n ∈ noticesAbout tours other notices t)
    (hmax : ∀ m ∈ noticesAbout tours other notices t, m.event ≤ n.event) : latestNotice tours other notices t = some n := by
  cases hl : latestNotice tours other notices t with
  | none =>
    have := (Table.firstBy_eq_none _ _).1 hl
    rw [reverse_eq_nil_iff] at this
    rw [this] at hn
    cases hn
  | some m =>
    obtain ⟨hm, hmax'⟩ := latestNotice_spec hl
    have hev : m.event = n.event := le_antisymm (hmax m hm) (hmax' n hn)
    obtain ⟨hm1, hm2, -⟩ := mem_noticesAbout.1 hm
    obtain ⟨hn1, hn2, -⟩ := mem_noticesAbout.1 hn
    rw [hone m hm1 n hn1 (hm2.trans hn2.symm) hev]

theorem mem_outstandingRetired {tours : List Tour}
    (h : latestNotice tours (some key) notices n.tenant = some n) (hr : n.isRetired = true) :
    n.tenant ∈ outstandingRetired tours key notices := by
  have hn := (mem_noticesAbout.1 (latestNotice_spec h).1).1
  refine mem_filter.2 ⟨mem_dedup.2 (mem_map_of_mem hn), ?_⟩
  simp [h, hr]

/-! ## A restored run clears -/

/-- The notices a restored run adds. -/
def restoredNews (tours : List Tour) (key : Nat) (tour : Tour) (s : Tables) : List Notice :=
  let hadLive := (s.flags.filter (resolves tours)).map Flag.tenant
  (outstandingRetired tours key s.notices ++ hadLive).dedup.map fun t =>
    ⟨t, tour, key, false, hadLive.contains t⟩

theorem restored_notices (tours : List Tour) (key : Nat) (tour : Tour) (s : Tables) :
    (restored tours key tour s).notices = (restoredNews tours key tour s).foldl insertNotice s.notices :=
  rfl

variable {tour : Tour}

theorem restoredNews_spec {tours : List Tour} {s : Tables}
    (h : n ∈ restoredNews tours key tour s) : n.tour = tour ∧ n.event = key ∧ n.isRetired = false := by
  obtain ⟨t, -, rfl⟩ := mem_map.1 h
  exact ⟨rfl, rfl, rfl⟩

theorem restored_flags {tours : List Tour} {s : Tables} {f : Flag} (h : f ∈ (restored tours key tour s).flags) :
    (∃ g ∈ s.flags, f.event = g.event) ∧ (f.tour ∈ tours → f.isOpen = false) := by
  obtain ⟨g, hg, rfl⟩ := mem_map.1 h
  split
  · exact ⟨⟨g, hg, rfl⟩, fun _ => rfl⟩
  · next hno =>
    refine ⟨⟨g, hg, rfl⟩, fun ht => ?_⟩
    simpa [resolves, ht] using hno

theorem settled_restored {tours : List Tour} {s : Tables}
    (hone : OneEach s.notices) (hle : ∀ n ∈ s.notices, n.event ≤ key)
    (hkey : ∀ n ∈ s.notices, n.event = key → n.isRetired = false) (htour : tour ∈ tours)
    (htours : ∀ n ∈ s.notices, n.tour ∈ tours) : Settled tours (restored tours key tour s) := by
  refine ⟨fun f hf => (restored_flags hf).2, fun t n hn => ?_⟩
  obtain ⟨hmem, hmax⟩ := latestNotice_spec hn
  obtain ⟨hnew, rfl, hin, -⟩ := mem_noticesAbout.1 hmem
  by_contra hret
  rw [Bool.not_eq_false] at hret
  have hold : n ∈ s.notices := by
    rcases mem_insertNotices hnew with h | h
    · exact h
    · rw [(restoredNews_spec h).2.2] at hret
      cases hret
  have hne : n.event ≠ key := fun h => by rw [hkey n hold h] at hret; cases hret
  -- no notice of the run's own event went to the tenant, or it would be a later one
  have hown : ∀ m ∈ (restoredNews tours key tour s).foldl insertNotice s.notices,
      m.tenant = n.tenant → m.event ≠ key := by
    intro m hm ht he
    have hmt : m.tour ∈ tours := by
      rcases mem_insertNotices hm with h | h
      · exact htours m h
      · rw [(restoredNews_spec h).1]
        exact htour
    have := hmax m (mem_noticesAbout.2 ⟨hm, ht, hmt, by simp⟩)
    have := hle n hold
    omega
  have hlatest : latestNotice tours (some key) s.notices n.tenant = some n := by
    refine latestNotice_eq hone (mem_noticesAbout.2 ⟨hold, rfl, hin, by simpa using hne.symm⟩) ?_
    intro m hm
    obtain ⟨hm1, hm2, hm3, -⟩ := mem_noticesAbout.1 hm
    exact hmax m (mem_noticesAbout.2 ⟨mem_insertNotices_of_mem _ hm1, hm2, hm3, by simp⟩)
  have htold : (⟨n.tenant, tour, key, false, ((s.flags.filter (resolves tours)).map Flag.tenant).contains
      n.tenant⟩ : Notice) ∈ restoredNews tours key tour s :=
    mem_map.2 ⟨n.tenant, mem_dedup.2 (mem_append_left _
      (mem_outstandingRetired hlatest hret)), rfl⟩
  obtain ⟨m, hm, ht, he⟩ := exists_of_insertNotices s.notices htold
  exact hown m hm ht he

theorem Settled.restored {tours : List Tour} {s : Tables}
    (h : Settled tours s) (hone : OneEach s.notices) : Settled tours (restored tours key tour s) := by
  refine ⟨fun f hf => (restored_flags hf).2, fun t n hn => ?_⟩
  obtain ⟨hmem, hmax⟩ := latestNotice_spec hn
  obtain ⟨hnew, ht, hin, -⟩ := mem_noticesAbout.1 hmem
  rcases mem_insertNotices hnew with hold | hnews
  · refine h.notices t n (latestNotice_eq hone (mem_noticesAbout.2 ⟨hold, ht, hin, by simp⟩) ?_)
    intro m hm
    obtain ⟨hm1, hm2, hm3, -⟩ := mem_noticesAbout.1 hm
    exact hmax m (mem_noticesAbout.2 ⟨mem_insertNotices_of_mem _ hm1, hm2, hm3, by simp⟩)
  · exact (restoredNews_spec hnews).2.2

/-! ## The invariant of a history -/

/-- What holds of a key all along. -/
structure FanInv (tours : List Tour) (s : Tables) : Prop where
  state : ∀ ch, s.events.getLast? = some ch → s.state = some (stateAfter ch.kind)
  ofKey : ∀ ch ∈ s.events, ch.tour ∈ tours
  runs : ∀ r ∈ s.runs, s.events[r.event]? = some r.change
  last : ∀ r ∈ s.runs, ∀ now, r.phase = .read now → r.event + 1 = s.events.length → now = s.state
  flags : ∀ f ∈ s.flags, f.event < s.events.length
  notices : ∀ n ∈ s.notices, ∃ ch, s.events[n.event]? = some ch ∧
    (ch.kind = .restored → n.isRetired = false) ∧ n.tour ∈ tours
  oneEach : OneEach s.notices
  finished : ∀ i ∈ s.finished, i < s.events.length
  /-- Once the job of a last event that restored the key has ended, the tenants know. -/
  settled : ∀ i ch, s.events[i]? = some ch → i + 1 = s.events.length → ch.kind = .restored →
    i ∈ s.finished → Settled tours s

theorem FanInv.init (tours : List Tour) (state : Option State) : FanInv tours (init state) where
  state := by simp [Fanout.init]
  ofKey := by simp [Fanout.init]
  runs := by simp [Fanout.init]
  last := by simp [Fanout.init]
  flags := by simp [Fanout.init]
  notices := by simp [Fanout.init]
  oneEach := by simp [Fanout.init, OneEach]
  finished := by simp [Fanout.init]
  settled := by simp [Fanout.init]

theorem FanInv.commit {tours : List Tour} {s : Tables} (h : FanInv tours s) (kind : EventKind) (tour : Tour) :
    FanInv tours (step tours s (.commit kind tour)) := by
  unfold step
  dsimp only
  split
  · next htour =>
    have hold : ∀ {i : Nat} {ch : Change}, s.events[i]? = some ch →
        (s.events ++ [⟨kind, tour⟩])[i]? = some ch := by
      intro i ch hi
      rw [List.getElem?_append_left (List.getElem?_eq_some_iff.1 hi).1]
      exact hi
    refine ⟨?_, ?_, fun r hr => hold (h.runs r hr), ?_, ?_, ?_, h.oneEach, by simp, by simp⟩
    · simp
    · intro ch hch
      rcases mem_append.1 hch with hch | hch
      · exact h.ofKey ch hch
      · rw [mem_singleton.1 hch]
        simpa using htour
    · intro r hr now _ hlast
      -- a run is of an earlier event
      have := (List.getElem?_eq_some_iff.1 (h.runs r hr)).1
      simp only [length_append, length_singleton] at hlast
      omega
    · intro f hf
      have := h.flags f hf
      simp only [length_append, length_singleton]
      omega
    · intro n hn
      obtain ⟨ch, hch, hrest⟩ := h.notices n hn
      exact ⟨ch, hold hch, hrest⟩
  · exact h

theorem FanInv.ofRuns {tours : List Tour} {s : Tables} (h : FanInv tours s) {runs : List FanOut}
    (hruns : ∀ r ∈ runs, s.events[r.event]? = some r.change ∧
      ∀ now, r.phase = .read now → r.event + 1 = s.events.length → now = s.state) :
    FanInv tours { s with runs := runs } where
  state := h.state
  ofKey := h.ofKey
  runs r hr := (hruns r hr).1
  last r hr := (hruns r hr).2
  flags := h.flags
  notices := h.notices
  oneEach := h.oneEach
  finished := h.finished
  settled i ch hi hlast hk hf := ⟨(h.settled i ch hi hlast hk hf).flags, (h.settled i ch hi hlast hk hf).notices⟩

theorem FanInv.begin_ {tours : List Tour} {s : Tables} (h : FanInv tours s) (event : Nat) :
    FanInv tours (step tours s (.begin_ event)) := by
  unfold step
  dsimp only
  split
  · next ch hch =>
    split
    · refine h.ofRuns fun r hr => ?_
      rcases mem_append.1 hr with hr | hr
      · exact ⟨h.runs r hr, h.last r hr⟩
      · rw [mem_singleton.1 hr]
        exact ⟨hch, nofun⟩
    · exact h
  · exact h

theorem FanInv.readState {tours : List Tour} {s : Tables} (h : FanInv tours s) (i : Nat) :
    FanInv tours (step tours s (.readState i)) := by
  unfold step
  dsimp only
  split
  · next r hr =>
    split
    · refine h.ofRuns fun x hx => ?_
      rcases mem_or_eq_of_mem_set hx with hx | rfl
      · exact ⟨h.runs x hx, h.last x hx⟩
      · exact ⟨h.runs r (mem_of_getElem? hr), fun now hp _ => (Phase.read.inj hp).symm⟩
    · exact h
  · exact h

/-- The tables a run leaves when its transaction ends. -/
def ended (s : Tables) (i : Nat) (r : FanOut) (s' : Tables) : Tables :=
  { s' with runs := s.runs.set i { r with phase := .ended }, finished := r.event :: s.finished }

theorem FanInv.ended {tours : List Tour} {s : Tables} (h : FanInv tours s) {i : Nat} {r : FanOut}
    (hr : s.runs[i]? = some r) {flags : List Flag}
    (hflags : ∀ f ∈ flags, f.event < s.events.length)
    (hnotices : ∀ n ∈ notices, ∃ ch, s.events[n.event]? = some ch ∧
      (ch.kind = .restored → n.isRetired = false) ∧ n.tour ∈ tours)
    (hone : OneEach notices)
    (hsettled : ∀ j ch, s.events[j]? = some ch → j + 1 = s.events.length → ch.kind = .restored →
      j = r.event ∨ j ∈ s.finished → Settled tours { s with flags := flags, notices := notices }) :
    FanInv tours (ended s i r { s with flags := flags, notices := notices }) where
  state := h.state
  ofKey := h.ofKey
  runs x hx := by
    rcases mem_or_eq_of_mem_set hx with hx | rfl
    · exact h.runs x hx
    · exact h.runs r (mem_of_getElem? hr)
  last x hx now hp hlast := by
    rcases mem_or_eq_of_mem_set hx with hx | rfl
    · exact h.last x hx now hp hlast
    · cases hp
  flags := hflags
  notices := hnotices
  oneEach := hone
  finished j hj := by
    rcases mem_cons.1 hj with rfl | hj
    · exact (List.getElem?_eq_some_iff.1 (h.runs r (mem_of_getElem? hr))).1
    · exact h.finished j hj
  settled j ch hj hlast hk hf := by
    obtain ⟨hfl, hno⟩ := hsettled j ch hj hlast hk (mem_cons.1 hf)
    exact ⟨hfl, hno⟩

theorem FanInv.served {tours : List Tour} {s : Tables} (h : FanInv tours s) {j : Nat} {ch : Change}
    (hj : s.events[j]? = some ch) (hlast : j + 1 = s.events.length) (hk : ch.kind = .restored) :
    s.state = some .served := by
  have hget : s.events.getLast? = some ch := by
    rw [List.getLast?_eq_getElem?, ← hj]
    congr 1
    omega
  rw [h.state ch hget, hk]
  rfl

section write

variable {tours : List Tour} {s : Tables} {i : Nat} {r : FanOut} {now : Option State}

theorem FanInv.skipped (h : FanInv tours s) (hr : s.runs[i]? = some r) (hphase : r.phase = .read now)
    (hskip : r.change.kind = .restored → now ≠ some .served) : FanInv tours (Fanout.ended s i r s) := by
  refine h.ended hr h.flags h.notices h.oneEach fun j ch hj hlast hk hor => ?_
  rcases hor with rfl | hf
  · have hmem := mem_of_getElem? hr
    have hch : r.change = ch := Option.some.inj ((h.runs r hmem).symm.trans hj)
    have hnow := h.last r hmem now hphase hlast
    exact absurd (hnow.trans (h.served hj hlast hk)) (hskip (hch ▸ hk))
  · exact h.settled j ch hj hlast hk hf

theorem FanInv.wroteRestored (h : FanInv tours s) (hr : s.runs[i]? = some r) :
    FanInv tours (Fanout.ended s i r (restored tours r.event r.change.tour s)) := by
  have hev := h.runs r (mem_of_getElem? hr)
  have htour : r.change.tour ∈ tours := h.ofKey _ (mem_of_getElem? hev)
  refine h.ended hr ?_ ?_ (h.oneEach.insertNotices _) ?_
  · intro f hf
    have hf' : f ∈ (Fanout.restored tours r.event r.change.tour s).flags := hf
    obtain ⟨g, hg, he⟩ := (restored_flags hf').1
    rw [he]
    exact h.flags g hg
  · intro n hn
    rcases mem_insertNotices hn with hn | hn
    · exact h.notices n hn
    · obtain ⟨ht, he, hret⟩ := restoredNews_spec hn
      exact ⟨r.change, he ▸ hev, fun _ => hret, ht ▸ htour⟩
  · intro j ch hj hlast hkj hor
    rcases hor with rfl | hf
    · refine settled_restored h.oneEach ?_ ?_ htour fun n hn => ?_
      · intro n hn
        obtain ⟨ch', hch', -⟩ := h.notices n hn
        have := (List.getElem?_eq_some_iff.1 hch').1
        omega
      · intro n hn he
        obtain ⟨ch', hch', hret, -⟩ := h.notices n hn
        rw [he] at hch'
        exact hret (by rw [← Option.some.inj (hj.symm.trans hch')]; exact hkj)
      · obtain ⟨-, -, -, ht⟩ := h.notices n hn
        exact ht
    · exact (h.settled j ch hj hlast hkj hf).restored h.oneEach

theorem FanInv.wroteRetired (h : FanInv tours s) (hr : s.runs[i]? = some r)
    (hk : r.change.kind = .retired) (hstate : s.state = some .retired) (live : List Post)
    (derivs cancelled : List Tenant) : FanInv tours (Fanout.ended s i r
      (retired tours r.event r.change.tour live derivs cancelled s)) := by
  have hev := h.runs r (mem_of_getElem? hr)
  have htour : r.change.tour ∈ tours := h.ofKey _ (mem_of_getElem? hev)
  refine h.ended hr ?_ ?_ ?_ ?_
  · intro f hf
    rcases mem_insertFlags hf with hf | hf
    · exact h.flags f hf
    · rw [hf]
      exact (List.getElem?_eq_some_iff.1 hev).1
  · intro n hn
    rcases mem_insertNotices hn with hn | hn
    · exact h.notices n hn
    · obtain ⟨t, -, rfl⟩ := mem_map.1 hn
      exact ⟨r.change, hev, fun hk' => (by rw [hk] at hk'; cases hk'), htour⟩
  · exact h.oneEach.insertNotices _
  · intro j ch hj hlast hkj _
    -- the key is retired, so its last event is no restore
    rw [h.served hj hlast hkj] at hstate
    cases hstate

end write

theorem FanInv.write {tours : List Tour} {s : Tables} (h : FanInv tours s) {i : Nat} {live : List Post}
    {derivs cancelled : List Tenant} (hfresh : Fresh s (.write i live derivs cancelled)) :
    FanInv tours (step tours s (.write i live derivs cancelled)) := by
  unfold step
  dsimp only
  split
  · next r hr =>
    split
    · next now hphase =>
      show FanInv tours (Fanout.ended s i r (fanOut tours r now live derivs cancelled s))
      unfold fanOut
      split
      · next hk =>
        split
        · next hnow =>
          subst hnow
          exact h.wroteRetired hr hk (hfresh r hr hk hphase) live derivs cancelled
        · exact h.skipped hr hphase fun hk' => by rw [hk] at hk'; cases hk'
      · split
        · exact h.wroteRestored hr
        · next hno => exact h.skipped hr hphase fun _ hnow => hno (Or.inl hnow)
      · next hne1 hne2 => exact h.skipped hr hphase fun hk => absurd hk hne2
    · exact h
  · exact h

theorem FanInv.step {tours : List Tour} {s : Tables} (h : FanInv tours s) {op : Op} (hfresh : Fresh s op) :
    FanInv tours (step tours s op) := by
  cases op with
  | commit kind tour => exact h.commit kind tour
  | begin_ event => exact h.begin_ event
  | readState i => exact h.readState i
  | write i live derivs cancelled => exact h.write hfresh

theorem FanInv.tells {tours : List Tour} {s : Tables} (h : FanInv tours s) (hall : AllFinished s)
    (hserved : s.state = some .served) : Settled tours s := by
  cases hlast : s.events.getLast? with
  | none =>
    have hnil : s.events = [] := List.getLast?_eq_none_iff.1 hlast
    refine ⟨fun f hf => ?_, fun t n hn => ?_⟩
    · have := h.flags f hf
      simp [hnil] at this
    · obtain ⟨ch, hch, -⟩ := h.notices n (mem_noticesAbout.1 (latestNotice_spec hn).1).1
      simp [hnil] at hch
  | some ch =>
    have hst := h.state ch hlast
    rw [hserved] at hst
    have hk : ch.kind = .restored := by
      cases hk : ch.kind <;> rw [hk] at hst <;> first | rfl | cases hst
    rw [List.getLast?_eq_getElem?] at hlast
    have hlt := (List.getElem?_eq_some_iff.1 hlast).1
    exact h.settled _ ch hlast (by omega) hk (hall _ ch hlast (by rw [hk]; rfl))

/-- **The tenants are told the served state.**  In every history in which a run that read the key
as retired writes while it still is, whenever the key is served and every event's job has ended
since the last event, no flag is open and no tenant's latest notice says retired. -/
theorem settles (tours : List Tour) (state : Option State) (ops : List Op)
    (h : Along (step tours) Fresh (init state) ops) :
    Always (step tours) (fun s => AllFinished s → s.state = some .served → Settled tours s) (init state) ops :=
  (Along.always (fun _ _ hs hop => hs.step hop) (FanInv.init tours state) h).mono
    fun _ hs hall hserved => hs.tells hall hserved

/-- Retired and restored in turn; every run writes at once. -/
def inTurn : List Op :=
  [.commit .retired 1, .begin_ 0, .readState 0, .write 0 [⟨3, 7, 1, true⟩] [7] [],
    .commit .restored 1, .begin_ 1, .readState 1, .write 1 [⟨3, 7, 1, true⟩] [7] [],
    .begin_ 0, .readState 2, .write 2 [⟨3, 7, 1, true⟩] [7] []]

theorem settles_inTurn : (run (step [1]) (init (some .served)) inTurn).notices =
        [⟨7, 1, 0, true, true⟩, ⟨7, 1, 1, false, true⟩] ∧
      Always (step [1]) (fun s => AllFinished s → s.state = some .served → Settled [1] s) (init (some .served)) inTurn := by
  exact ⟨by decide, settles [1] (some .served) inTurn (by decide)⟩

/-- The retired run reads the state, is held up until the restored run has ended, and writes. -/
def heldUp : List Op :=
  [.commit .retired 1, .begin_ 0, .readState 0, .commit .restored 1, .begin_ 1, .readState 1,
    .write 1 [⟨3, 7, 1, true⟩] [7] [], .write 0 [⟨3, 7, 1, true⟩] [7] []]

theorem late_retired_run : ¬ Always (step [1]) (fun s => AllFinished s → s.state = some .served → Settled [1] s)
      (init (some .served)) heldUp := by
  intro h
  have hall : AllFinished (run (step [1]) (init (some .served)) heldUp) := by
    intro i ch hi _
    have hlen := (List.getElem?_eq_some_iff.1 hi).1
    have : i < 2 := hlen
    interval_cases i <;> decide
  have hsettled := h.run hall (by decide)
  have hopen := hsettled.flags ⟨7, 3, 1, 0, true, true⟩ (by decide) (by decide)
  cases hopen

end CisApp.Lifecycle.Fanout
