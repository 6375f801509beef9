import CisApp.Identity.JwksCache

/-! How often a key cache fetches (`JwksCache` of `api/core/identity_verifier.py`).

The rate rule is checked before the lock and again under it, with an interval that depends on whether a key set was ever
loaded.  What it compares with is the time of the last attempt, which is never before the start of the last fetch of
`key`; so two of these are an interval apart.  A call that finds the set stale and a fetch due goes for the lock, and
whoever gets it first finds the same.

The clock is `time.monotonic`.  A fetch ends when it is answered, fails or is cancelled. -/

namespace CisApp.Identity

open List Option

variable {κ : Type} {cfg : Config} {pyJwk : JObj → Parsed κ} {s : State κ}

/-- The times that a step reads off the clock. -/
def Act.times : Act → List Int
  | .key _ _ now => [now]
  | .refresh _ now => [now]
  | .lock _ now now' => [now, now']
  | .fetched _ _ now => [now]
  | .cancel _ => []

def Clocked (acts : List Act) : Prop := (acts.flatMap Act.times).Pairwise (· ≤ ·)

/-- A call of `key` starts its fetch, at the time `t`. -/
structure Starts (cfg : Config) (pyJwk : JObj → Parsed κ) (s : State κ) (i : Nat) (t : Int) (act : Act) : Prop where
  lock : ∃ now, act = .lock i now t
  free : s.holder = none
  takes : (step cfg pyJwk s act).holder = some i

/-- The fetch of a call of `key` ends. -/
structure Ends (s : State κ) (i : Nat) (act : Act) : Prop where
  done : act = .cancel i ∨ ∃ web now, act = .fetched i web now
  holds : s.holder = some i

theorem refreshed_attemptedAt (web : Web) (now : Int) : (s.refreshed cfg pyJwk web now).1.attemptedAt = s.attemptedAt := by
  unfold State.refreshed
  split
  · rfl
  · split <;> rfl

variable {i : Nat} {t : Int} {act : Act}

theorem Starts.fetches (h : Starts cfg pyJwk s i t act) :
    ∃ now, act = .lock i now t ∧ s.mayFetch cfg now = true ∧ (step cfg pyJwk s act).attemptedAt = some t := by
  obtain ⟨⟨now, rfl⟩, hfree, htakes⟩ := h
  have hdoes : Does cfg pyJwk s (.lock i now t) (step cfg pyJwk s (.lock i now t)) := does_step _
  generalize step cfg pyJwk s (.lock i now t) = s' at hdoes htakes
  refine ⟨now, rfl, ?_⟩
  cases hdoes with
  | stays => exact absurd (hfree.symm.trans htakes) (some_ne_none i).symm
  | answers _ _ _ => exact absurd (hfree.symm.trans htakes) (some_ne_none i).symm
  | fetches _ _ hdue => exact ⟨hdue, rfl⟩

/-! ## One at a time -/

/-- Whoever is at the fetch of `key` has the lock. -/
def OneFetch (s : State κ) : Prop :=
  ∀ i kid begun, s.calls.get? i = some ⟨.fetching (some kid), begun⟩ → s.holder = some i

variable {s' : State κ}

theorem OneFetch.delete (h : OneFetch s) (hcalls : s'.calls = s.calls.delete fun j _ => j = i)
    (hholder : ∀ j, j ≠ i → s.holder = some j → s'.holder = some j) : OneFetch s' := by
  intro j kid begun hc
  rw [hcalls] at hc
  have hne : j ≠ i := by
    rintro rfl
    rw [get?_delete_self] at hc
    cases hc
  exact hholder j hne (h j kid begun (get?_of_delete hc))

theorem OneFetch.open (h : OneFetch s) {pc : Pc} (hpc : ∀ kid, pc ≠ .fetching (some kid))
    (hcalls : s'.calls = (s.open i pc).calls) (hholder : s'.holder = s.holder) : OneFetch s' := by
  intro j kid begun hc
  rw [hcalls, show (s.open i pc).calls = s.calls.upsert i ⟨pc, s.fetches.length⟩ from rfl, Table.get?_upsert] at hc
  rw [hholder]
  split at hc
  · cases hc
    exact absurd rfl (hpc kid)
  · exact h j kid begun hc

theorem OneFetch.step (h : OneFetch s) (act : Act) : OneFetch (step cfg pyJwk s act) := by
  have hdoes : Does cfg pyJwk s act (Identity.step cfg pyJwk s act) := does_step act
  generalize Identity.step cfg pyJwk s act = s' at hdoes
  cases hdoes with
  | stays => exact h
  | hits _ _ _ => exact h.delete rfl fun _ _ hj => hj
  | waits _ => exact h.open (fun _ => by simp) rfl rfl
  | prefetches _ => exact h.open (fun _ => by simp) rfl rfl
  | answers _ _ _ => exact h.delete rfl fun _ _ hj => hj
  | @fetches i now now' kid begun _ hfree _ =>
    intro j kid' begun' hc
    rw [Table.get?_upsert] at hc
    split at hc
    · next hj => rw [hj]
    · exact absurd (hfree.symm.trans (h j kid' begun' hc)) (by simp)
  | @prefetched i web now begun _ =>
    refine h.delete (i := i) (by rw [refreshed_calls]) fun j _ hj => ?_
    exact (refreshed_holder web now).trans hj
  | @returns i web now kid begun hcall =>
    refine h.delete (i := i) ?_ fun j hne hj => ?_
    · show (s.refreshed cfg pyJwk web now).1.calls.delete (fun j _ => j = i) = _
      rw [refreshed_calls]
    · exact absurd (Option.some.inj (hj.symm.trans (h i kid begun hcall))) hne
  | @cancels i =>
    refine h.delete (i := i) rfl fun j hne hj => ?_
    show (if s.holder = some i then none else s.holder) = some j
    rw [if_neg (by rw [hj]; simpa using hne), hj]

/-! ## An interval apart -/

/-- The last attempt was not before `t`. -/
def AttemptedSince (t : Int) (s : State κ) : Prop := ∃ t', s.attemptedAt = some t' ∧ t ≤ t'

theorem AttemptedSince.step (h : AttemptedSince t s) (htimes : ∀ t' ∈ act.times, t ≤ t') :
    AttemptedSince t (step cfg pyJwk s act) := by
  have hdoes : Does cfg pyJwk s act (Identity.step cfg pyJwk s act) := does_step act
  generalize Identity.step cfg pyJwk s act = s' at hdoes
  cases hdoes with
  | prefetches _ => exact ⟨_, rfl, htimes _ (by simp [Act.times])⟩
  | fetches _ _ _ => exact ⟨_, rfl, htimes _ (by simp [Act.times])⟩
  | prefetched _ =>
    obtain ⟨t', ht', hle⟩ := h
    exact ⟨t', (refreshed_attemptedAt _ _).trans ht', hle⟩
  | returns _ =>
    obtain ⟨t', ht', hle⟩ := h
    exact ⟨t', (refreshed_attemptedAt _ _).trans ht', hle⟩
  | _ => exact h

variable {acts : List Act}

theorem AttemptedSince.run (h : AttemptedSince t s)
    (htimes : ∀ act ∈ acts, ∀ t' ∈ act.times, t ≤ t') : AttemptedSince t (run (Identity.step cfg pyJwk) s acts) := by
  induction acts generalizing s with
  | nil => exact h
  | cons act acts ih =>
    exact ih (h.step (htimes act mem_cons_self)) fun act' hact' => htimes act' (mem_cons_of_mem _ hact')

variable {now : Int}

theorem mayFetch_since (hmay : s.mayFetch cfg now = true) (h : AttemptedSince t s) :
    (if s.keys.isNone then cfg.coldRetry else cfg.unknownKidRefetch) ≤ now - t := by
  obtain ⟨t', ht', hle⟩ := h
  unfold State.mayFetch at hmay
  rw [ht'] at hmay
  have := of_decide_eq_true hmay
  omega

theorem Clocked.since {pre mid : List Act} {act' : Act}
    (h : Clocked (pre ++ act :: (mid ++ [act']))) (ht : t ∈ act.times) :
    (∀ a ∈ mid, ∀ t' ∈ a.times, t ≤ t') ∧ ∀ t' ∈ act'.times, t ≤ t' := by
  unfold Clocked at h
  rw [flatMap_append, flatMap_cons, flatMap_append] at h
  have hlater := (pairwise_append.1 (pairwise_append.1 h).2.1).2.2 t ht
  constructor
  · intro a ha t' ht'
    exact hlater t' (mem_append_left _ (mem_flatMap.2 ⟨a, ha, ht'⟩))
  · intro t' ht'
    exact hlater t' (mem_append_right _ (by simpa using ht'))

/-! ## No answer before an attempt -/

/-- The call of `key` is not answered yet. -/
def IsOpen (i : Nat) (s : State κ) : Prop := ∃ c, s.calls.get? i = some c ∧ c.pc ≠ .fetching none

theorem IsOpen.upsert {j : Nat} {c : Call} (h : IsOpen i s) (hc : c.pc ≠ .fetching none)
    (hcalls : s'.calls = s.calls.upsert j c) : IsOpen i s' := by
  obtain ⟨c', hc', hpc⟩ := h
  by_cases hij : i = j
  · exact ⟨c, by rw [hcalls, Table.get?_upsert, if_pos hij], hc⟩
  · exact ⟨c', by rw [hcalls, Table.get?_upsert, if_neg hij, hc'], hpc⟩

theorem isOpen_open (i : Nat) (kid : String) : IsOpen i (s.open i (.waiting kid)) := by
  refine ⟨⟨.waiting kid, s.fetches.length⟩, ?_, by simp⟩
  show (s.calls.upsert i _).get? i = _
  rw [Table.get?_upsert, if_pos rfl]

theorem IsOpen.delete {j : Nat} (h : IsOpen i s) (hne : i ≠ j)
    (hcalls : s'.calls = s.calls.delete fun k _ => k = j) : IsOpen i s' := by
  obtain ⟨c, hc, hpc⟩ := h
  exact ⟨c, by rw [hcalls, get?_delete_of_ne hne, hc], hpc⟩

theorem IsOpen.step_of_holder {j : Nat} (h : IsOpen i s) (hone : OneFetch s) (hold : s.holder = some j)
    (hends : ¬Ends s j act) (hcancel : act ≠ .cancel i) (hrefresh : ∀ k t, act ≠ .refresh k t) :
    IsOpen i (step cfg pyJwk s act) ∧ (step cfg pyJwk s act).holder = some j := by
  have hdoes : Does cfg pyJwk s act (Identity.step cfg pyJwk s act) := does_step act
  generalize Identity.step cfg pyJwk s act = s' at hdoes
  cases hdoes with
  | stays => exact ⟨h, hold⟩
  | @hits k _ _ _ hnew _ _ =>
    refine ⟨h.delete (j := k) ?_ rfl, hold⟩
    rintro rfl
    obtain ⟨c, hc, -⟩ := h
    exact absurd (hnew.symm.trans hc) (some_ne_none c).symm
  | waits _ => exact ⟨h.upsert (by simp) rfl, hold⟩
  | prefetches _ => exact absurd rfl (hrefresh _ _)
  | answers _ hfree _ => exact absurd (hfree.symm.trans hold) (some_ne_none j).symm
  | fetches _ hfree _ => exact absurd (hfree.symm.trans hold) (some_ne_none j).symm
  | @prefetched k web now begun hcall =>
    refine ⟨h.delete (j := k) ?_ (by rw [refreshed_calls]), (refreshed_holder web now).trans hold⟩
    rintro rfl
    obtain ⟨c, hc, hpc⟩ := h
    obtain rfl := Option.some.inj (hcall.symm.trans hc)
    exact hpc rfl
  | @returns k web now kid begun hcall =>
    obtain rfl := Option.some.inj (hold.symm.trans (hone k kid begun hcall))
    exact absurd ⟨Or.inr ⟨web, now, rfl⟩, hold⟩ hends
  | @cancels k =>
    have hik : i ≠ k := fun heq => hcancel (by rw [heq])
    have hjk : ¬s.holder = some k := by
      intro heq
      obtain rfl := Option.some.inj (hold.symm.trans heq)
      exact hends ⟨Or.inl rfl, hold⟩
    refine ⟨h.delete hik rfl, ?_⟩
    show (if s.holder = some k then none else s.holder) = some j
    rw [if_neg hjk, hold]

/-- A fetch is due and none is in flight: the set is older than `ttl` at `now`, and so is the last attempt than the
interval. -/
structure Due (cfg : Config) (now : Int) (s : State κ) : Prop where
  loaded : s.keys.isSome
  old : cfg.ttl ≤ now - s.fetchedAt
  rested : ∀ t, s.attemptedAt = some t → cfg.unknownKidRefetch ≤ now - t
  waiting : ∀ j c, s.calls.get? j = some c → ∃ kid, c.pc = .waiting kid
  free : s.holder = none

theorem Due.later {now' : Int} (h : Due cfg now s) (hle : now ≤ now') :
    s.mayFetch cfg now' = true ∧ s.stale cfg now' = true ∧ ∀ kid, s.freshHit cfg kid now' = none := by
  have hold := h.old
  have hloaded : s.keys.isNone = false := by simpa using h.loaded
  refine ⟨?_, ?_, fun kid => ?_⟩
  · unfold State.mayFetch
    cases ht : s.attemptedAt with
    | none => rfl
    | some t =>
      have := h.rested t ht
      simp only [hloaded]
      refine decide_eq_true ?_
      show cfg.unknownKidRefetch ≤ now' - t
      omega
  · unfold State.stale
    rw [hloaded, Bool.false_or, decide_eq_true_eq]
    omega
  · unfold State.freshHit
    rw [if_neg]
    rw [Bool.and_eq_true, decide_eq_true_eq]
    omega

theorem Due.open (h : Due cfg now s) (i : Nat) (kid : String) : Due cfg now (s.open i (.waiting kid)) := by
  refine ⟨h.loaded, h.old, h.rested, fun k c hc => ?_, h.free⟩
  rw [show (s.open i (.waiting kid)).calls = s.calls.upsert i ⟨.waiting kid, s.fetches.length⟩ from rfl,
    Table.get?_upsert] at hc
  split at hc
  · cases hc
    exact ⟨kid, rfl⟩
  · exact h.waiting k c hc

theorem Due.key (h : Due cfg now s) (hnew : s.calls.get? i = none) (kid : String) :
    step cfg pyJwk s (.key i kid now) = s.open i (.waiting kid) := by
  obtain ⟨hmay, -, hfresh⟩ := h.later (le_refl now)
  unfold step
  dsimp only
  rw [hnew, hfresh kid, hmay, h.free]
  cases s.hit kid <;> rfl

theorem Due.step (h : Due cfg now s) (hopen : IsOpen i s)
    (htimes : ∀ t ∈ act.times, now ≤ t) (hcancel : act ≠ .cancel i) (hrefresh : ∀ j t, act ≠ .refresh j t) :
    (∃ j t, Starts cfg pyJwk s j t act) ∧ IsOpen i (Identity.step cfg pyJwk s act) ∨
      Due cfg now (Identity.step cfg pyJwk s act) ∧ IsOpen i (Identity.step cfg pyJwk s act) := by
  have hdoes : Does cfg pyJwk s act (Identity.step cfg pyJwk s act) := does_step act
  generalize hs' : Identity.step cfg pyJwk s act = s' at hdoes
  cases hdoes with
  | stays => exact Or.inr ⟨h, hopen⟩
  | @hits j kid now' k _ _ hold =>
    obtain ⟨hmay, -, hfresh⟩ := h.later (htimes now' (by simp [Act.times]))
    rw [hfresh kid, hmay, h.free] at hold
    simp at hold
  | @waits j kid now' hnew =>
    exact Or.inr ⟨h.open j kid, hopen.upsert (by simp) rfl⟩
  | prefetches _ => exact absurd rfl (hrefresh _ _)
  | @answers j now' now'' kid begun _ _ hnot =>
    obtain ⟨hmay, hstale, hfresh⟩ := h.later (htimes now' (by simp [Act.times]))
    rw [hfresh kid, hmay, hstale] at hnot
    simp at hnot
  | @fetches j now' now'' kid begun _ hfree _ =>
    exact Or.inl ⟨⟨j, now'', ⟨now', rfl⟩, hfree, by rw [hs']⟩, hopen.upsert (by simp) rfl⟩
  | prefetched hcall =>
    obtain ⟨kid, hpc⟩ := h.waiting _ _ hcall
    cases hpc
  | returns hcall =>
    obtain ⟨kid, hpc⟩ := h.waiting _ _ hcall
    cases hpc
  | @cancels j =>
    have hne : i ≠ j := fun heq => hcancel (by rw [heq])
    refine Or.inr ⟨⟨h.loaded, h.old, h.rested, fun k c hc => h.waiting k c (get?_of_delete hc), ?_⟩, ?_⟩
    · show (if s.holder = some j then none else s.holder) = none
      rw [h.free, if_neg (by simp)]
    · exact hopen.delete hne rfl

/-- The steps have started a fetch of `key` and seen it end. -/
def Attempted (cfg : Config) (pyJwk : JObj → Parsed κ) (s : State κ) (acts : List Act) : Prop :=
  ∃ before start mid last rest j t, acts = before ++ start :: (mid ++ last :: rest) ∧
    Starts cfg pyJwk (run (step cfg pyJwk) s before) j t start ∧
    Ends (run (step cfg pyJwk) s (before ++ start :: mid)) j last

/-- What may happen while the call is open: it is not cancelled, and no `prefetch` starts. -/
def Undisturbed (i : Nat) (acts : List Act) : Prop := ∀ act ∈ acts, act ≠ .cancel i ∧ ∀ k t, act ≠ .refresh k t

theorem isOpen_or_ends {j : Nat} (h : IsOpen i s) (hone : OneFetch s) (hold : s.holder = some j)
    (hacts : Undisturbed i acts) : IsOpen i (run (step cfg pyJwk) s acts) ∨
      ∃ mid last rest, acts = mid ++ last :: rest ∧ Ends (run (step cfg pyJwk) s mid) j last := by
  induction acts generalizing s with
  | nil => exact Or.inl h
  | cons act acts ih =>
    obtain ⟨hcancel, hrefresh⟩ := hacts act mem_cons_self
    by_cases hends : Ends s j act
    · exact Or.inr ⟨[], act, acts, rfl, hends⟩
    · obtain ⟨hopen, hold'⟩ := h.step_of_holder hone hold hends hcancel hrefresh
      rcases ih hopen (hone.step act) hold' fun a ha => hacts a (mem_cons_of_mem _ ha) with
        hopen | ⟨mid, last, rest, rfl, hover⟩
      · exact Or.inl hopen
      · exact Or.inr ⟨act :: mid, last, rest, rfl, hover⟩

theorem isOpen_or_attempted (h : Due cfg now s) (hopen : IsOpen i s)
    (hone : OneFetch s) (htimes : ∀ act ∈ acts, ∀ t ∈ act.times, now ≤ t) (hacts : Undisturbed i acts) :
    IsOpen i (run (step cfg pyJwk) s acts) ∨ Attempted cfg pyJwk s acts := by
  induction acts generalizing s with
  | nil => exact Or.inl hopen
  | cons act acts ih =>
    obtain ⟨hcancel, hrefresh⟩ := hacts act mem_cons_self
    have hrest : Undisturbed i acts := fun a ha => hacts a (mem_cons_of_mem _ ha)
    rcases h.step hopen (htimes act mem_cons_self) hcancel hrefresh with ⟨⟨j, t, hstart⟩, hopen'⟩ | ⟨hdue, hopen'⟩
    · rcases isOpen_or_ends hopen' (hone.step act) hstart.takes hrest with hopen' | ⟨mid, last, rest, rfl, hover⟩
      · exact Or.inl hopen'
      · exact Or.inr ⟨[], act, mid, last, rest, j, t, rfl, hstart, hover⟩
    · rcases ih hdue hopen' (hone.step act) (fun a ha => htimes a (mem_cons_of_mem _ ha)) hrest with
        hopen' | ⟨before, start, mid, last, rest, j, t, rfl, hstart, hover⟩
      · exact Or.inl hopen'
      · exact Or.inr ⟨act :: before, start, mid, last, rest, j, t, rfl, hstart, hover⟩

/-! ## Every run -/

/-- **The fetches of the key cache.**  In every interleaving two fetches of `key` are never in flight together; they start
at least `cold_retry` apart, and `unknown_kid_refetch` when a key set was loaded before the second; and a call of `key`
that starts while a fetch is due is open until one was tried. -/
theorem jwks_fetch_rate (cfg : Config) (hcfg : cfg.coldRetry ≤ cfg.unknownKidRefetch) (pyJwk : JObj → Parsed κ) :
    (∀ acts i j kid kid' begun begun', (run (step cfg pyJwk) init acts).calls.get? i = some ⟨.fetching (some kid), begun⟩ →
      (run (step cfg pyJwk) init acts).calls.get? j = some ⟨.fetching (some kid'), begun'⟩ → i = j) ∧
    (∀ before a mid a' i j t t', Clocked (before ++ a :: (mid ++ [a'])) →
      Starts cfg pyJwk (run (step cfg pyJwk) init before) i t a →
      Starts cfg pyJwk (run (step cfg pyJwk) init (before ++ a :: mid)) j t' a' → cfg.coldRetry ≤ t' - t ∧
      ((run (step cfg pyJwk) init (before ++ a :: mid)).keys.isSome → cfg.unknownKidRefetch ≤ t' - t)) ∧
    ∀ before i kid now acts, Clocked (before ++ .key i kid now :: acts) → Undisturbed i acts →
      (run (step cfg pyJwk) init before).calls.get? i = none → Due cfg now (run (step cfg pyJwk) init before) →
      IsOpen i (run (step cfg pyJwk) init (before ++ .key i kid now :: acts)) ∨
        Attempted cfg pyJwk (run (step cfg pyJwk) init (before ++ [.key i kid now])) acts := by
  have hone : ∀ acts, OneFetch (run (step cfg pyJwk) init acts) := by
    intro acts
    refine run_of_step (fun s act h => h.step act) acts ?_
    intro i kid begun hc
    cases hc
  refine ⟨?_, ?_, ?_⟩
  · intro acts i j kid kid' begun begun' hi hj
    exact Option.some.inj ((hone acts i kid begun hi).symm.trans (hone acts j kid' begun' hj))
  · intro before a mid a' i j t t' hclock hstart hstart'
    obtain ⟨now, rfl, -, hat⟩ := hstart.fetches
    obtain ⟨now', rfl, hmay, -⟩ := hstart'.fetches
    obtain ⟨hmid, hlast⟩ := hclock.since (show t ∈ (Act.lock i now t).times by simp [Act.times])
    rw [run_append] at hmay ⊢
    have hsince := mayFetch_since hmay (AttemptedSince.run (s := step _ _ _ _) ⟨t, hat, le_refl t⟩ hmid)
    have hnow : now' ≤ t' := by
      unfold Clocked at hclock
      rw [flatMap_append, flatMap_cons, flatMap_append] at hclock
      have := (List.pairwise_append.1 (List.pairwise_append.1 (List.pairwise_append.1 hclock).2.1).2.1).2.1
      simpa [Act.times] using this
    constructor
    · split at hsince <;> omega
    · intro hloaded
      rw [if_neg] at hsince
      · omega
      · rw [isNone_iff_eq_none, ← not_isSome_iff_eq_none]
        exact not_not.2 hloaded
  · intro before i kid now acts hclock hacts hnew hdue
    have htimes : ∀ act ∈ acts, ∀ t ∈ act.times, now ≤ t := by
      intro act hact t ht
      unfold Clocked at hclock
      rw [flatMap_append, flatMap_cons] at hclock
      exact (List.pairwise_append.1 (List.pairwise_append.1 hclock).2.1).2.2 now (by simp [Act.times]) t
        (List.mem_flatMap.2 ⟨act, hact, ht⟩)
    have hkey : step cfg pyJwk (run (step cfg pyJwk) init before) (.key i kid now) = State.open _ i (.waiting kid) :=
      hdue.key hnew kid
    rw [run_append, run_append, run, run, run, hkey]
    exact isOpen_or_attempted (hdue.open i kid) (isOpen_open i kid) (hkey ▸ (hone before).step _) htimes hacts

/-- A fetch that fails, and a call five seconds later. -/
def failedFetch : List Act := [.fetched 1 (fun _ => none) 1, .key 2 "a" 5000]

theorem cold_fetches_apart :
    let cfg : Config := ⟨"https://issuer/jwks", 3600000, 60000, 5000⟩
    Starts cfg modulus (run (step cfg modulus) init [.key 1 "a" 0]) 1 0 (.lock 1 0 0) ∧
      Starts cfg modulus (run (step cfg modulus) init ([.key 1 "a" 0] ++ .lock 1 0 0 :: failedFetch)) 2 5000
        (.lock 2 5000 5000) ∧ cfg.coldRetry ≤ 5000 - 0 := by
  intro cfg
  have hfirst : Starts cfg modulus (run (step cfg modulus) init [.key 1 "a" 0]) 1 0 (.lock 1 0 0) :=
    ⟨⟨0, rfl⟩, by decide +kernel, by decide +kernel⟩
  have hsecond : Starts cfg modulus (run (step cfg modulus) init ([.key 1 "a" 0] ++ .lock 1 0 0 :: failedFetch)) 2 5000
      (.lock 2 5000 5000) := ⟨⟨5000, rfl⟩, by decide +kernel, by decide +kernel⟩
  have hclock : Clocked ([.key 1 "a" 0] ++ .lock 1 0 0 :: (failedFetch ++ [.lock 2 5000 5000])) := by
    unfold Clocked
    decide
  exact ⟨hfirst, hsecond, ((jwks_fetch_rate cfg (by decide) modulus).2.1 _ _ _ _ 1 2 0 5000 hclock hfirst hsecond).1⟩

end CisApp.Identity
