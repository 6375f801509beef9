import CisApp.Atomize.Job

/-!
# Atoms of the current version

Once every job has ended in an attempt with the status `success` or `skipped`,
the live atoms of the tour should be those of its current version.  A job does
not look whether its version is still current, so a late attempt of an older
version writes over the atoms of the newer one, and a publish of a version that
was current before finds its key spent or its fingerprints stored.

`orderly` excludes these: an attempt of another version starts only while no job
exported in the present term has started, and a publish names the current
version or one never exported.  It also excludes an upsert that hits the row of
another day (two days' atoms with one content hash).

The invariant follows the present term.  From the first start of one of its jobs
on, only the current version is read; a fingerprint stored since then stands for
a day whose live atoms are of that version (`served`).  A forced job counts only
such fingerprints, and where the version is current for the first time there are
no others.
-/

namespace CisApp.Atomize

open List

variable {δ : Type} [DecidableEq δ] (env : Env δ)

/-! ## The property -/

/-- The atoms are those of version `v`. -/
structure Complete (v : VersionId) (atoms : Atoms δ) : Prop where
  live : ∀ id r, atoms.get? id = some r → r.deleted = false → (r.itineraryDay, r.source) ∈ (env.itinerary v).days
  days : ∀ x ∈ (env.itinerary v).days, ∃ id r, atoms.get? id = some r ∧ r.deleted = false ∧ r.itineraryDay = x.1

def Follows (s : State δ) : Prop := ∀ v, s.current = some v → Complete env v s.atoms

def Settled (s : State δ) : Prop := s.pending = [] ∧ s.running = none ∧ ∀ j ∈ s.jobs, j.ended = true

def State.unstarted (s : State δ) : Bool := s.jobs.all fun j => j.term ≠ s.term || j.firstStart.isNone

def orderly (s : State δ) : Event → Bool
  | .processExport v .publish => s.current = some v || !s.versions.contains v
  | .start i => s.jobs[i]?.all fun j => s.current = some j.version || s.unstarted
  | .statement _ _ =>
    s.running.all fun a => (a.phase.upserts? env).all fun x => (s.atoms.get? x.1).all fun r => r.itineraryDay = x.2
  | _ => true

/-! ## The atoms of one day -/

def HasLive (d : Nat) (atoms : Atoms δ) : Prop :=
  ∃ id r, atoms.get? id = some r ∧ r.deleted = false ∧ r.itineraryDay = d

/-- The day's live atoms are those of version `v`. -/
structure Served (v : VersionId) (d : Nat) (atoms : Atoms δ) : Prop where
  live : ∀ id r, atoms.get? id = some r → r.deleted = false → r.itineraryDay = d →
    (d, r.source) ∈ (env.itinerary v).days
  has : HasLive d atoms

/-- A live atom is on a day of the itinerary. -/
def NoOrphan (v : VersionId) (atoms : Atoms δ) : Prop :=
  ∀ id r, atoms.get? id = some r → r.deleted = false → r.itineraryDay ∈ (env.itinerary v).days.map Prod.fst

/-- What a statement of an attempt for version `v` may do to the atoms. -/
structure Fit (v : VersionId) (atoms atoms' : Atoms δ) : Prop where
  live : ∀ id r', atoms'.get? id = some r' → r'.deleted = false →
    atoms.get? id = some r' ∨ (r'.itineraryDay, r'.source) ∈ (env.itinerary v).days
  has : ∀ x ∈ (env.itinerary v).days, HasLive x.1 atoms → HasLive x.1 atoms'

variable {env} {v : VersionId} {d : Nat} {atoms atoms' : Atoms δ}

theorem Fit.refl : Fit env v atoms atoms := ⟨fun _ _ h _ => Or.inl h, fun _ _ h => h⟩

theorem Served.mem (h : Served env v d atoms) : ∃ x ∈ (env.itinerary v).days, x.1 = d := by
  obtain ⟨id, r, hr, hlive, hday⟩ := h.has
  exact ⟨_, h.live id r hr hlive hday, rfl⟩

theorem Fit.served (hf : Fit env v atoms atoms') (h : Served env v d atoms) : Served env v d atoms' := by
  refine ⟨fun id r hr hlive hday => ?_, ?_⟩
  · rcases hf.live id r hr hlive with hold | hnew
    · exact h.live id r hold hlive hday
    · rw [← hday]
      exact hnew
  · obtain ⟨x, hx, rfl⟩ := h.mem
    exact hf.has x hx h.has

theorem Fit.noOrphan (hf : Fit env v atoms atoms') (h : NoOrphan env v atoms) : NoOrphan env v atoms' := by
  intro id r hr hlive
  rcases hf.live id r hr hlive with hold | hnew
  · exact h id r hold hlive
  · exact List.mem_map.2 ⟨_, hnew, rfl⟩

theorem Fit.complete (hf : Fit env v atoms atoms') (h : Complete env v atoms) : Complete env v atoms' := by
  refine ⟨fun id r hr hlive => ?_, fun x hx => hf.has x hx (h.days x hx)⟩
  rcases hf.live id r hr hlive with hold | hnew
  · exact h.live id r hold hlive
  · exact hnew

theorem complete_of_served (hserved : ∀ x ∈ (env.itinerary v).days, Served env v x.1 atoms)
    (horphan : NoOrphan env v atoms) : Complete env v atoms := by
  refine ⟨fun id r hr hlive => ?_, fun x hx => (hserved x hx).has⟩
  obtain ⟨x, hx, hday⟩ := List.mem_map.1 (horphan id r hr hlive)
  rw [← hday]
  exact (hserved x hx).live id r hr hlive hday.symm

/-! ## The statements on atoms -/

theorem get?_retire {p : δ → AtomRow → Bool} {id : δ} {r : AtomRow}
    (h : (atoms.update p fun _ r => { r with deleted := true }).get? id = some r) (hlive : r.deleted = false) :
    atoms.get? id = some r ∧ p id r = false := by
  rw [Table.get?_update, Option.map_eq_some_iff] at h
  obtain ⟨r₀, hr₀, heq⟩ := h
  by_cases hp : p id r₀ = true
  · rw [if_pos hp] at heq
    rw [← heq] at hlive
    cases hlive
  · rw [if_neg hp] at heq
    subst heq
    exact ⟨hr₀, Bool.eq_false_iff.2 hp⟩

theorem get?_retire_of_not {p : δ → AtomRow → Bool} {id : δ} {r : AtomRow} (h : atoms.get? id = some r)
    (hp : p id r = false) : (atoms.update p fun _ r => { r with deleted := true }).get? id = some r := by
  rw [Table.get?_update, h, Option.map_some, hp, if_neg Bool.false_ne_true]

theorem retireOrphanDays_fit :
    Fit env v atoms (retireOrphanDays atoms ((env.itinerary v).days.map Prod.fst)) := by
  refine ⟨fun id r hr hlive => Or.inl (get?_retire hr hlive).1, fun x hx => ?_⟩
  rintro ⟨id, r, hr, hlive, hday⟩
  refine ⟨id, r, get?_retire_of_not hr ?_, hlive, hday⟩
  have hmem : r.itineraryDay ∈ (env.itinerary v).days.map Prod.fst := List.mem_map.2 ⟨x, hx, hday.symm⟩
  rw [Bool.and_eq_false_iff]
  right
  rw [Bool.not_eq_false', contains_iff_mem]
  exact hmem

theorem retireOrphanDays_noOrphan :
    NoOrphan env v (retireOrphanDays atoms ((env.itinerary v).days.map Prod.fst)) := by
  intro id r hr hlive
  have hp := (get?_retire hr hlive).2
  rw [hlive, Bool.not_false, Bool.true_and, Bool.not_eq_false', contains_iff_mem] at hp
  exact hp

theorem get?_upsertAtom {id : δ} (text : DayText) (marker : Bool)
    (hday : ∀ r, atoms.get? id = some r → r.itineraryDay = d) (id' : δ) :
    (∃ r, id' = id ∧ (upsertAtom atoms id d text marker).get? id' = some r ∧ r.deleted = false ∧
        r.itineraryDay = d ∧ r.source = text) ∨
      id' ≠ id ∧ (upsertAtom atoms id d text marker).get? id' = atoms.get? id' := by
  unfold upsertAtom
  by_cases hid : id' = id
  · left
    cases hr : atoms.get? id with
    | none => exact ⟨⟨d, false, marker, text⟩, hid, by rw [Table.get?_upsert, if_pos hid], rfl, rfl, rfl⟩
    | some r =>
      exact ⟨{ r with deleted := false, source := text }, hid, by rw [Table.get?_upsert, if_pos hid], rfl,
        hday r hr, rfl⟩
  · right
    refine ⟨hid, ?_⟩
    cases hr : atoms.get? id with
    | none => rw [Table.get?_upsert, if_neg hid]
    | some r => rw [Table.get?_upsert, if_neg hid]

theorem upsertAtom_fit {id : δ} {text : DayText} (marker : Bool) (hmem : (d, text) ∈ (env.itinerary v).days)
    (hday : ∀ r, atoms.get? id = some r → r.itineraryDay = d) :
    Fit env v atoms (upsertAtom atoms id d text marker) := by
  refine ⟨fun id' r' hr' _ => ?_, fun x _ => ?_⟩
  · rcases get?_upsertAtom text marker hday id' with ⟨r, -, hr, -, hrd, hrs⟩ | ⟨-, hsame⟩
    · right
      rw [hr] at hr'
      cases hr'
      rw [hrd, hrs]
      exact hmem
    · left
      rw [← hsame]
      exact hr'
  · rintro ⟨id', r', hr', hlive, hd⟩
    rcases get?_upsertAtom text marker hday id' with ⟨r, hid, hr, hrlive, hrd, -⟩ | ⟨-, hsame⟩
    · refine ⟨id', r, hr, hrlive, ?_⟩
      rw [hid] at hr'
      rw [hrd, ← hday r' hr', hd]
    · exact ⟨id', r', by rw [hsame, hr'], hlive, hd⟩

/-- A row of this read: live, on the day, of the text. -/
def Written (atoms : Atoms δ) (k : Ask δ) (id : δ) : Prop :=
  ∃ r, atoms.get? id = some r ∧ r.deleted = false ∧ r.itineraryDay = k.day ∧ r.source = k.text

theorem upsertAtom_written {k : Ask δ} {id : δ} (marker : Bool)
    (hday : ∀ r, atoms.get? id = some r → r.itineraryDay = k.day) {id' : δ}
    (h : id' = id ∨ Written atoms k id') : Written (upsertAtom atoms id k.day k.text marker) k id' := by
  rcases get?_upsertAtom k.text marker hday id' with ⟨r, -, hr, hlive, hd, hs⟩ | ⟨hid, hsame⟩
  · exact ⟨r, hr, hlive, hd, hs⟩
  · obtain ⟨r, hr, hrest⟩ := h.resolve_left hid
    exact ⟨r, by rw [hsame, hr], hrest⟩

section RetireMissing

variable {k : Ask δ} {ids : List δ}

theorem retireMissing_live {id : δ} {r : AtomRow} (h : (retireMissing atoms k.day ids).get? id = some r)
    (hlive : r.deleted = false) : atoms.get? id = some r ∧ (r.itineraryDay = k.day → id ∈ ids) := by
  obtain ⟨hr, hp⟩ := get?_retire h hlive
  refine ⟨hr, fun hd => ?_⟩
  rw [hlive, hd, decide_eq_true rfl, Bool.not_false, Bool.true_and, Bool.true_and, Bool.not_eq_false',
    contains_iff_mem] at hp
  exact hp

theorem retireMissing_has (hne : ids ≠ []) (hids : ∀ id ∈ ids, Written atoms k id) :
    HasLive k.day (retireMissing atoms k.day ids) := by
  obtain ⟨id, hid⟩ := exists_mem_of_ne_nil ids hne
  obtain ⟨r, hr, hlive, hd, -⟩ := hids id hid
  refine ⟨id, r, get?_retire_of_not hr ?_, hlive, hd⟩
  rw [Bool.and_eq_false_iff, Bool.not_eq_false', contains_iff_mem]
  exact Or.inr hid

theorem retireMissing_fit (hne : ids ≠ []) (hids : ∀ id ∈ ids, Written atoms k id) :
    Fit env v atoms (retireMissing atoms k.day ids) := by
  refine ⟨fun id r hr hlive => Or.inl (retireMissing_live hr hlive).1, fun x _ hx => ?_⟩
  by_cases hd : x.1 = k.day
  · rw [hd]
    exact retireMissing_has hne hids
  · obtain ⟨id, r, hr, hlive, hday⟩ := hx
    refine ⟨id, r, get?_retire_of_not hr ?_, hlive, hday⟩
    rw [Bool.and_eq_false_iff, Bool.and_eq_false_iff, decide_eq_false_iff_not]
    exact Or.inl (Or.inl fun h => hd (hday.symm.trans h))

theorem retireMissing_served (hmem : (k.day, k.text) ∈ (env.itinerary v).days) (hne : ids ≠ [])
    (hids : ∀ id ∈ ids, Written atoms k id) : Served env v k.day (retireMissing atoms k.day ids) := by
  refine ⟨fun id r hr hlive hd => ?_, retireMissing_has hne hids⟩
  obtain ⟨hold, hin⟩ := retireMissing_live hr hlive
  obtain ⟨r', hr', -, -, hs⟩ := hids id (hin hd)
  rw [hold] at hr'
  cases hr'
  rw [hs]
  exact hmem

end RetireMissing

/-! ## Where an attempt stands -/

variable (env v atoms)

def Asked (asks : List (Ask δ)) : Prop := ∀ k ∈ asks, (k.day, k.text) ∈ (env.itinerary v).days

/-- What holds of every attempt for version `v`. -/
def Phase.Sound : Phase δ → Prop
  | .report => True
  | .fetch => True
  | .retire asks => Asked env v asks
  | .read asks _ => Asked env v asks
  | .marker r => Asked env v (r.toAsk :: r.rest)
  | .write r todo ids => Asked env v (r.toAsk :: r.rest) ∧ (todo = [] → ids ≠ []) ∧ ∀ id ∈ ids, Written atoms r.toAsk id
  | .remember r => Asked env v (r.toAsk :: r.rest) ∧ Served env v r.day atoms
  | .done _ => True

/-- The days of the itinerary that are not among `asks` are served, unless a day failed. -/
def Rest (asks : List (Ask δ)) (anyFailed : Bool) : Prop :=
  anyFailed = false → ∀ x ∈ (env.itinerary v).days, x.1 ∉ asks.map (·.day) → Served env v x.1 atoms

/-- What holds of an attempt of a job the present term rests on. -/
def Phase.Covered : Phase δ → Prop
  | .report => True
  | .fetch => True
  | .retire asks => Rest env v atoms asks false
  | .read asks f => Rest env v atoms asks f ∧ NoOrphan env v atoms
  | .marker r => Rest env v atoms (r.toAsk :: r.rest) r.anyFailed ∧ NoOrphan env v atoms
  | .write r _ _ => Rest env v atoms (r.toAsk :: r.rest) r.anyFailed ∧ NoOrphan env v atoms
  | .remember r => Rest env v atoms (r.toAsk :: r.rest) r.anyFailed ∧ NoOrphan env v atoms
  | .done status => status ≠ .failed → Complete env v atoms

variable {env v atoms}

theorem Fit.rest (hf : Fit env v atoms atoms') {asks : List (Ask δ)} {f : Bool} (h : Rest env v atoms asks f) :
    Rest env v atoms' asks f := fun hfailed x hx hnot => hf.served (h hfailed x hx hnot)

theorem Rest.complete {f : Bool} (h : Rest env v atoms [] f) (hf : f = false) (horphan : NoOrphan env v atoms) :
    Complete env v atoms := complete_of_served (fun x hx => h hf x hx not_mem_nil) horphan

theorem Rest.served_head {k : Ask δ} {asks : List (Ask δ)} {f : Bool} (h : Rest env v atoms (k :: asks) f)
    (hk : Served env v k.day atoms) : Rest env v atoms asks f := by
  intro hf x hx hnot
  by_cases hd : x.1 = k.day
  · rw [hd]
    exact hk
  · refine h hf x hx fun hmem => ?_
    rcases List.mem_cons.1 hmem with heq | hmem
    · exact hd heq
    · exact hnot hmem

/-! ## The invariant -/

def State.exports (s : State δ) : List Export := s.pending ++ s.jobs.map Job.toExport

/-- An export the present term rests on: its job reads every day again, or finds no
fingerprint older than the term. -/
def State.Proper (s : State δ) (x : Export) : Prop := x.term = s.term ∧ (x.via = .promote ∨ s.first = true)

/-- The times of a job, all before `T`. -/
structure Job.Stamped (T : Time) (j : Job) : Prop where
  start : ∀ t, j.firstStart = some t → t < T
  since : ∀ f, j.forceSince = some f → ∃ t, j.firstStart = some t ∧ t ≤ f
  ended : j.ended = true → j.firstStart ≠ none

/-- The attempt is one of job `j`. -/
structure Attempt.Of (a : Attempt δ) (j : Job) : Prop where
  version : a.version = j.version
  force : a.force = j.via.force
  since : ∀ f, a.forceSince = some f → ∃ t, j.firstStart = some t ∧ t ≤ f
  forced : a.force = true → a.forceSince ≠ none
  started : j.firstStart ≠ none

variable (env) in
structure Inv (T : Time) (s : State δ) : Prop where
  exported : ∀ x ∈ s.exports, x.version ∈ s.versions ∧ x.term ≤ s.term ∧ (x.term = s.term → s.current = some x.version)
  first : s.first = true → ∀ x ∈ s.exports, s.current = some x.version → x.term = s.term
  origin : s.current ≠ none → ∃ x ∈ s.exports, s.Proper x
  stamped : ∀ j ∈ s.jobs, j.Stamped T
  fingerprinted : ∀ w d fp, s.fingerprints.get? (w, d) = some fp →
    fp.atomizedAt < T ∧ ∃ j ∈ s.jobs, j.version = w ∧ ∃ t, j.firstStart = some t ∧ t ≤ fp.atomizedAt
  attempt : ∀ a, s.running = some a → ∃ j, s.jobs[a.job]? = some j ∧ a.Of j ∧ a.phase.Sound env a.version s.atoms
  sole : ∀ j ∈ s.jobs, j.term = s.term → j.firstStart ≠ none → ∀ a, s.running = some a → s.current = some a.version
  served : ∀ v, s.current = some v → ∀ j ∈ s.jobs, j.term = s.term → ∀ t, j.firstStart = some t →
    ∀ d fp, s.fingerprints.get? (v, d) = some fp → t ≤ fp.atomizedAt → Served env v d s.atoms
  covered : ∀ a, s.running = some a → ∀ j, s.jobs[a.job]? = some j → s.Proper j.toExport →
    a.phase.Covered env a.version s.atoms
  complete : ∀ v, s.current = some v → ∀ j ∈ s.jobs, s.Proper j.toExport → j.ended = true → Complete env v s.atoms

variable {s : State δ} {T : Time}

theorem Inv.follows (hs : Inv env T s) (h : Settled s) : Follows env s := by
  obtain ⟨hpending, -, hended⟩ := h
  intro v hv
  obtain ⟨x, hx, hproper⟩ := hs.origin (by rw [hv]; exact Option.some_ne_none v)
  rw [State.exports, hpending, nil_append] at hx
  obtain ⟨j, hj, rfl⟩ := List.mem_map.1 hx
  exact hs.complete v hv j hj hproper (hended j hj)

theorem inv_init : Inv env 0 (init : State δ) where
  exported := fun x hx => absurd hx not_mem_nil
  first := fun h => absurd h Bool.false_ne_true
  origin := fun h => absurd rfl h
  stamped := fun j hj => absurd hj not_mem_nil
  fingerprinted := fun w d fp h => (by cases h)
  attempt := fun a h => (by cases h)
  sole := fun j hj => absurd hj not_mem_nil
  served := fun v h => (by cases h)
  covered := fun a h => (by cases h)
  complete := fun v h => (by cases h)

theorem Inv.mono (hs : Inv env T s) {T' : Time} (hT : T ≤ T') : Inv env T' s :=
  { hs with
    stamped := fun j hj => ⟨fun t ht => (hs.stamped j hj).start t ht |>.trans_le hT, (hs.stamped j hj).since,
      (hs.stamped j hj).ended⟩
    fingerprinted := fun w d fp h => ⟨(hs.fingerprinted w d fp h).1.trans_le hT, (hs.fingerprinted w d fp h).2⟩ }

theorem Inv.clock (hs : Inv env T s) (n : Time) : Inv env T { s with now := n } :=
  ⟨hs.exported, hs.first, hs.origin, hs.stamped, hs.fingerprinted, hs.attempt, hs.sole, hs.served, hs.covered,
    hs.complete⟩

theorem Inv.stop (hs : Inv env T s) : Inv env T { s with running := none } :=
  ⟨hs.exported, hs.first, hs.origin, hs.stamped, hs.fingerprinted, fun _ h => (by cases h), fun _ _ _ _ _ h => (by cases h),
    hs.served, fun _ h => (by cases h), hs.complete⟩

theorem Inv.goTo (hs : Inv env T s) {a : Attempt δ} {p : Phase δ} {j : Job} (hj : s.jobs[a.job]? = some j)
    (hof : a.Of j) (hsole : ∀ j ∈ s.jobs, j.term = s.term → j.firstStart ≠ none → s.current = some a.version)
    (hsound : p.Sound env a.version s.atoms) (hcovered : s.Proper j.toExport → p.Covered env a.version s.atoms) :
    Inv env T (s.goTo a p) := by
  refine ⟨hs.exported, hs.first, hs.origin, hs.stamped, hs.fingerprinted, fun a' ha' => ?_,
    fun j' hj' ht hf a' ha' => ?_, hs.served, fun a' ha' j' hj' hp => ?_, hs.complete⟩
  · cases ha'
    exact ⟨j, hj, ⟨hof.version, hof.force, hof.since, hof.forced, hof.started⟩, hsound⟩
  · cases ha'
    exact hsole j' hj' ht hf
  · cases ha'
    cases hj.symm.trans hj'
    exact hcovered hp

theorem Inv.write (hs : Inv env T s) {a : Attempt δ} (ha : s.running = some a)
    (hfit : Fit env a.version s.atoms atoms') : Inv env T { s with atoms := atoms', running := none } := by
  refine ⟨hs.exported, hs.first, hs.origin, hs.stamped, hs.fingerprinted, fun _ h => (by cases h),
    fun _ _ _ _ _ h => (by cases h), fun v hv j hj ht t hstart d fp hfp hle => ?_, fun _ h => (by cases h),
    fun v hv j hj hp hended => ?_⟩
  · have hver := hs.sole j hj ht (by rw [hstart]; exact Option.some_ne_none t) a ha
    cases hv.symm.trans hver
    exact hfit.served (hs.served _ hv j hj ht t hstart d fp hfp hle)
  · have hver := hs.sole j hj hp.1 ((hs.stamped j hj).ended hended) a ha
    cases hv.symm.trans hver
    exact hfit.complete (hs.complete _ hv j hj hp hended)

theorem Inv.fingerprint (hs : Inv env T s) {a : Attempt δ} (ha : s.running = some a)
    (hserved : Served env a.version d s.atoms) (h : δ) :
    Inv env (T + 1) { s with fingerprints := s.fingerprints.upsert (a.version, d) ⟨h, T⟩, running := none } := by
  refine ⟨hs.exported, hs.first, hs.origin, fun j hj => ?_, fun w d' fp hfp => ?_, fun _ h => (by cases h),
    fun _ _ _ _ _ h => (by cases h), fun v hv j hj ht t hstart d' fp hfp hle => ?_, fun _ h => (by cases h),
    hs.complete⟩
  · exact (hs.mono (Nat.le_succ T)).stamped j hj
  · rw [Table.get?_upsert] at hfp
    split at hfp
    · next hkey =>
      cases hfp
      cases hkey
      obtain ⟨j, hj, hof, -⟩ := hs.attempt a ha
      have hmem := mem_of_getElem? hj
      obtain ⟨t, ht⟩ := Option.ne_none_iff_exists'.1 hof.started
      exact ⟨Nat.lt_succ_self T, j, hmem, hof.version.symm, t, ht, ((hs.stamped j hmem).start t ht).le⟩
    · exact (hs.mono (Nat.le_succ T)).fingerprinted w d' fp hfp
  · rw [Table.get?_upsert] at hfp
    split at hfp
    · next hkey =>
      cases hkey
      exact hserved
    · exact hs.served v hv j hj ht t hstart d' fp hfp hle

/-! ## The job rows -/

section Modify

variable {α β : Type} {l : List α} {i : Nat} {f : α → α}

theorem mem_modify {x : α} (h : x ∈ l.modify i f) : x ∈ l ∨ ∃ y, l[i]? = some y ∧ x = f y := by
  obtain ⟨n, hn⟩ := mem_iff_getElem?.1 h
  rw [List.getElem?_modify] at hn
  obtain ⟨y, hy, heq⟩ := Option.map_eq_some_iff.1 hn
  split at heq
  · next hin =>
    subst hin
    exact Or.inr ⟨y, hy, heq.symm⟩
  · rw [← heq]
    exact Or.inl (mem_of_getElem? hy)

theorem mem_modify_of_mem {y : α} (h : y ∈ l) : ∃ x ∈ l.modify i f, x = y ∨ x = f y := by
  obtain ⟨n, hn⟩ := mem_iff_getElem?.1 h
  have hget : (l.modify i f)[n]? = some (if i = n then f y else y) := by
    rw [List.getElem?_modify, hn]
    rfl
  refine ⟨_, mem_of_getElem? hget, ?_⟩
  split
  · exact Or.inr rfl
  · exact Or.inl rfl

theorem map_modify_eq {g : α → β} (hg : ∀ y, g (f y) = g y) : (l.modify i f).map g = l.map g := by
  apply ext_getElem?
  intro n
  rw [List.getElem?_map, List.getElem?_map, List.getElem?_modify]
  cases l[n]? with
  | none => rfl
  | some y =>
    show some (g (if i = n then f y else y)) = some (g y)
    split
    · rw [hg]
    · rfl

end Modify

theorem Inv.revise (hs : Inv env T s) {T' : Time} (hT : T ≤ T') (hnone : s.running = none) {i : JobId} {f : Job → Job}
    (hexport : ∀ j, (f j).toExport = j.toExport) (hkeep : ∀ j t, j.firstStart = some t → (f j).firstStart = some t)
    (hnew : ∀ j, s.jobs[i]? = some j → ∀ t, (f j).firstStart = some t → j.firstStart = some t ∨ T ≤ t)
    (hstamped : ∀ j, s.jobs[i]? = some j → (f j).Stamped T')
    (hended : ∀ j, s.jobs[i]? = some j → s.Proper j.toExport → (f j).ended = true → ∀ v, s.current = some v →
      Complete env v s.atoms) :
    Inv env T' { s with jobs := s.jobs.modify i f } := by
  have hexports : State.exports { s with jobs := s.jobs.modify i f } = s.exports := by
    show s.pending ++ (s.jobs.modify i f).map Job.toExport = s.pending ++ s.jobs.map Job.toExport
    rw [map_modify_eq hexport]
  refine ⟨hexports ▸ hs.exported, hexports ▸ hs.first, hexports ▸ hs.origin, fun j' hj' => ?_, fun w d fp hfp => ?_,
    fun a ha => ?_, fun _ _ _ _ a ha => ?_, fun v hv j' hj' ht t hstart d fp hfp hle => ?_, fun a ha => ?_,
    fun v hv j' hj' hp hend => ?_⟩
  · rcases mem_modify hj' with hold | ⟨j, hj, rfl⟩
    · exact (hs.mono hT).stamped j' hold
    · exact hstamped j hj
  · obtain ⟨hlt, j, hj, hver, t, ht, hle⟩ := hs.fingerprinted w d fp hfp
    obtain ⟨j', hj', heq⟩ := mem_modify_of_mem (i := i) (f := f) hj
    refine ⟨hlt.trans_le hT, j', hj', ?_⟩
    rcases heq with rfl | rfl
    · exact ⟨hver, t, ht, hle⟩
    · refine ⟨?_, t, hkeep j t ht, hle⟩
      rw [hexport, hver]
  · rw [hnone] at ha
    cases ha
  · rw [hnone] at ha
    cases ha
  · rcases mem_modify hj' with hold | ⟨j, hj, rfl⟩
    · exact hs.served v hv j' hold ht t hstart d fp hfp hle
    · rcases hnew j hj t hstart with hsame | hlate
      · exact hs.served v hv j (mem_of_getElem? hj) (by rw [← hexport]; exact ht) t hsame d fp hfp hle
      · exact absurd hle (Nat.not_le.2 ((hs.fingerprinted v d fp hfp).1.trans_le hlate))
  · rw [hnone] at ha
    cases ha
  · rcases mem_modify hj' with hold | ⟨j, hj, rfl⟩
    · exact hs.complete v hv j' hold hp hend
    · exact hended j hj (by rw [← hexport]; exact hp) hend v hv

theorem Inv.start (hs : Inv env s.now s) {i : JobId} {j : Job} (hnone : s.running = none) (hj : s.jobs[i]? = some j)
    (horderly : s.current = some j.version ∨ s.unstarted = true) : Inv env (s.now + 1) (s.start i j) := by
  have hmem := mem_of_getElem? hj
  have hrow := hs.stamped j hmem
  obtain ⟨t₀, ht₀, hle₀⟩ : ∃ t, j.firstStart.or (some s.now) = some t ∧ t ≤ s.now := by
    cases hf : j.firstStart with
    | none => exact ⟨s.now, rfl, le_rfl⟩
    | some t => exact ⟨t, rfl, (hrow.start t hf).le⟩
  have hrevised : Inv env (s.now + 1)
      { s with jobs := s.jobs.modify i fun j => { j with firstStart := j.firstStart.or (some s.now), ended := false } } := by
    refine hs.revise (Nat.le_succ _) hnone (fun _ => rfl) (fun j' t ht => ?_) (fun j' hj' t ht => ?_)
      (fun j' hj' => ?_) (fun _ _ _ h => absurd h Bool.false_ne_true)
    · show j'.firstStart.or _ = some t
      rw [ht]
      rfl
    · rcases Option.or_eq_some_iff.1 ht with hold | ⟨-, hnow⟩
      · exact Or.inl hold
      · cases hnow
        exact Or.inr le_rfl
    · cases hj.symm.trans hj'
      refine ⟨fun t ht => ?_, fun f hf => ?_, fun h => absurd h Bool.false_ne_true⟩
      · cases ht₀.symm.trans ht
        exact Nat.lt_succ_of_le hle₀
      · obtain ⟨t, ht, hle⟩ := hrow.since f hf
        refine ⟨t, ?_, hle⟩
        show j.firstStart.or _ = some t
        rw [ht]
        rfl
  have hget : (s.jobs.modify i fun j => { j with firstStart := j.firstStart.or (some s.now), ended := false })[i]? =
      some { j with firstStart := j.firstStart.or (some s.now), ended := false } := by
    rw [List.getElem?_modify, hj]
    show some (if i = i then _ else _) = _
    rw [if_pos rfl]
  refine hrevised.goTo (a := ⟨i, j.version, j.via.force, if j.via.force then j.forceSince.or (some s.now) else none,
    .report⟩) hget ⟨rfl, rfl, fun f hf => ⟨t₀, ht₀, ?_⟩, fun hforce => ?_, ?_⟩ (fun j' hj' ht hf => ?_) trivial
    fun _ => trivial
  · split at hf
    · rcases Option.or_eq_some_iff.1 hf with hold | ⟨-, hnow⟩
      · obtain ⟨t, ht, hle⟩ := hrow.since f hold
        rw [ht] at ht₀
        cases ht₀
        exact hle
      · cases hnow
        exact hle₀
    · cases hf
  · show (if j.via.force then j.forceSince.or (some s.now) else none) ≠ none
    rw [if_pos hforce]
    intro h
    cases (Option.or_eq_none_iff.1 h).2
  · show j.firstStart.or (some s.now) ≠ none
    rw [ht₀]
    exact Option.some_ne_none t₀
  · show s.current = some j.version
    rcases horderly with hcur | hun
    · exact hcur
    · -- no job of the term had started, so the one that has is this one
      rcases mem_modify hj' with hold | ⟨j₁, hj₁, rfl⟩
      · have hthis := List.all_eq_true.1 hun j' hold
        rw [Bool.or_eq_true, decide_eq_true_eq, Option.isNone_iff_eq_none] at hthis
        exact absurd (hthis.resolve_left (fun h => h ht)) hf
      · cases hj.symm.trans hj₁
        exact (hs.exported j.toExport (mem_append_right _ (mem_map_of_mem hmem))).2.2 ht

/-! ## The exports -/

theorem mem_of_mem_eraseIdx_or {α : Type} {l : List α} {i : Nat} {x y : α} (hi : l[i]? = some y) (hx : x ∈ l) :
    x = y ∨ x ∈ l.eraseIdx i := by
  obtain ⟨n, hn⟩ := mem_iff_getElem?.1 hx
  by_cases hni : n = i
  · subst hni
    rw [hi] at hn
    exact Or.inl (Option.some.inj hn.symm)
  · exact Or.inr (List.mem_eraseIdx_iff_getElem?.2 ⟨n, hni, hn⟩)

theorem Inv.exports (hs : Inv env T s) {s' : State δ} (hcurrent : s'.current = s.current) (hterm : s'.term = s.term)
    (hfirst : s'.first = s.first) (hversions : ∀ w ∈ s.versions, w ∈ s'.versions)
    (hexports : ∀ x ∈ s'.exports, x ∈ s.exports ∨ s.current = some x.version ∧ x.version ∈ s'.versions ∧ x.term = s.term)
    (horigin : ∀ x ∈ s.exports, s.Proper x → ∃ x' ∈ s'.exports, s.Proper x')
    (hjobs : ∀ j ∈ s'.jobs, j ∈ s.jobs ∨ j.firstStart = none ∧ j.forceSince = none ∧ j.ended = false)
    (hkept : ∀ (i : JobId) j, s.jobs[i]? = some j → s'.jobs[i]? = some j) (hatoms : s'.atoms = s.atoms)
    (hfps : s'.fingerprints = s.fingerprints) (hrunning : s'.running = s.running) : Inv env T s' := by
  have hproper : ∀ x, s'.Proper x ↔ s.Proper x := by
    intro x
    unfold State.Proper
    rw [hterm, hfirst]
  have hmem : ∀ j ∈ s.jobs, j ∈ s'.jobs := by
    intro j hj
    obtain ⟨i, hi⟩ := mem_iff_getElem?.1 hj
    exact mem_of_getElem? (hkept i j hi)
  have hstarted : ∀ j ∈ s'.jobs, j.firstStart ≠ none → j ∈ s.jobs :=
    fun j hj hf => (hjobs j hj).resolve_right fun h => hf h.1
  refine ⟨fun x hx => ?_, fun hf x hx hcur => ?_, fun hcur => ?_, fun j hj => ?_, fun w d fp hfp => ?_, fun a ha => ?_,
    fun j hj ht hf a ha => ?_, fun v hv j hj ht t hstart d fp hfp hle => ?_, fun a ha j hj hp => ?_,
    fun v hv j hj hp hend => ?_⟩
  · rw [hterm, hcurrent]
    rcases hexports x hx with hold | ⟨hcur, hv, ht⟩
    · obtain ⟨hv, hle, ht⟩ := hs.exported x hold
      exact ⟨hversions _ hv, hle, ht⟩
    · exact ⟨hv, ht.le, fun _ => hcur⟩
  · rw [hterm]
    rcases hexports x hx with hold | ⟨-, -, ht⟩
    · exact hs.first (hfirst ▸ hf) x hold (hcurrent ▸ hcur)
    · exact ht
  · obtain ⟨x, hx, hp⟩ := hs.origin (hcurrent ▸ hcur)
    obtain ⟨x', hx', hp'⟩ := horigin x hx hp
    exact ⟨x', hx', (hproper x').2 hp'⟩
  · rcases hjobs j hj with hold | ⟨hf, hsince, hend⟩
    · exact hs.stamped j hold
    · refine ⟨fun t ht => ?_, fun f h => ?_, fun h => ?_⟩
      · rw [hf] at ht
        cases ht
      · rw [hsince] at h
        cases h
      · rw [hend] at h
        cases h
  · rw [hfps] at hfp
    obtain ⟨hlt, j, hj, hrest⟩ := hs.fingerprinted w d fp hfp
    exact ⟨hlt, j, hmem j hj, hrest⟩
  · rw [hrunning] at ha
    obtain ⟨j, hj, hof, hsound⟩ := hs.attempt a ha
    exact ⟨j, hkept _ _ hj, hof, hatoms ▸ hsound⟩
  · rw [hrunning] at ha
    rw [hcurrent]
    exact hs.sole j (hstarted j hj hf) (hterm ▸ ht) hf a ha
  · rw [hatoms]
    rw [hfps] at hfp
    rw [hcurrent] at hv
    exact hs.served v hv j (hstarted j hj (by rw [hstart]; exact Option.some_ne_none t)) (hterm ▸ ht) t hstart d fp hfp hle
  · rw [hrunning] at ha
    rw [hatoms]
    obtain ⟨j₀, hj₀, -⟩ := hs.attempt a ha
    cases (hkept _ _ hj₀).symm.trans hj
    exact hs.covered a ha j hj₀ ((hproper _).1 hp)
  · rw [hatoms]
    rw [hcurrent] at hv
    have hold := (hjobs j hj).resolve_right fun h => by rw [h.2.2] at hend; cases hend
    exact hs.complete v hv j hold ((hproper _).1 hp) hend

theorem Inv.exportAgain (hs : Inv env T s) {via : Via} (hv : s.current = some v) : Inv env T (s.processExport v via) := by
  have hterm : (s.processExport v via).term = s.term := if_pos hv
  refine hs.exports hv.symm hterm (if_pos hv) (fun w hw => mem_cons_of_mem v hw) (fun x hx => ?_)
    (fun x hx hp => ⟨x, ?_, hp⟩) (fun j hj => Or.inl hj) (fun _ _ h => h) rfl rfl rfl
  · rcases List.mem_append.1 hx with hx | hx
    · rcases List.mem_append.1 hx with hx | hx
      · exact Or.inl (mem_append_left _ hx)
      · cases List.mem_singleton.1 hx
        exact Or.inr ⟨hv, mem_cons_self, hterm⟩
    · exact Or.inl (mem_append_right _ hx)
  · rcases List.mem_append.1 hx with hx | hx
    · exact mem_append_left _ (mem_append_left _ hx)
    · exact mem_append_right _ hx

theorem Inv.exportNew (hs : Inv env T s) {via : Via} (hv : s.current ≠ some v)
    (horderly : via = .publish → v ∉ s.versions) : Inv env T (s.processExport v via) := by
  have hterm : (s.processExport v via).term = s.term + 1 := if_neg hv
  have hfirst : (s.processExport v via).first = !s.versions.contains v := if_neg hv
  have hnew : (⟨v, via, (s.processExport v via).term⟩ : Export) ∈ (s.processExport v via).exports :=
    mem_append_left _ (mem_append_right _ (List.mem_singleton.2 rfl))
  have hcases : ∀ x ∈ (s.processExport v via).exports, x ∈ s.exports ∨ x = ⟨v, via, (s.processExport v via).term⟩ := by
    intro x hx
    rcases List.mem_append.1 hx with hx | hx
    · rcases List.mem_append.1 hx with hx | hx
      · exact Or.inl (mem_append_left _ hx)
      · exact Or.inr (List.mem_singleton.1 hx)
    · exact Or.inl (mem_append_right _ hx)
  have hearlier : ∀ j ∈ s.jobs, j.term ≠ (s.processExport v via).term := by
    intro j hj heq
    have hle := (hs.exported j.toExport (mem_append_right _ (mem_map_of_mem hj))).2.1
    rw [hterm] at heq
    rw [heq] at hle
    exact Nat.not_succ_le_self _ hle
  refine ⟨fun x hx => ?_, fun hf x hx hcur => ?_, fun _ => ⟨_, hnew, rfl, ?_⟩, hs.stamped, hs.fingerprinted, hs.attempt,
    fun j hj ht => absurd ht (hearlier j hj), fun _ _ j hj ht => absurd ht (hearlier j hj),
    fun a _ j hj hp => absurd hp.1 (hearlier j (mem_of_getElem? hj)),
    fun _ _ j hj hp => absurd hp.1 (hearlier j hj)⟩
  · rcases hcases x hx with hold | rfl
    · obtain ⟨hver, hle, -⟩ := hs.exported x hold
      rw [hterm]
      exact ⟨mem_cons_of_mem v hver, Nat.le_succ_of_le hle, fun h => absurd hle (by rw [h]; exact Nat.not_succ_le_self _)⟩
    · exact ⟨mem_cons_self, le_rfl, fun _ => rfl⟩
  · rcases hcases x hx with hold | rfl
    · rw [hfirst, Bool.not_eq_true', ← Bool.not_eq_true, contains_iff_mem] at hf
      cases hcur
      exact absurd (hs.exported x hold).1 hf
    · rfl
  · cases via with
    | promote => exact Or.inl rfl
    | publish =>
      right
      rw [hfirst, Bool.not_eq_true', ← Bool.not_eq_true, contains_iff_mem]
      exact horderly rfl

theorem Inv.enqueue (hs : Inv env T s) {i : Nat} {e : Export} (hi : s.pending[i]? = some e) :
    Inv env T (State.enqueue { s with pending := s.pending.eraseIdx i } e) := by
  have he : e ∈ s.exports := mem_append_left _ (mem_of_getElem? hi)
  unfold State.enqueue
  split
  · next hspent =>
    -- the key is spent: in the version's first term, by a job of that term
    rw [Bool.and_eq_true, any_eq_true] at hspent
    obtain ⟨hdedupe, j, hj, hkey⟩ := hspent
    rw [Bool.and_eq_true, beq_iff_eq] at hkey
    have hjx : j.toExport ∈ s.exports := mem_append_right _ (mem_map_of_mem hj)
    refine hs.exports rfl rfl rfl (fun _ hw => hw) (fun x hx => Or.inl ?_) (fun x hx hp => ?_) (fun j hj => Or.inl hj)
      (fun _ _ h => h) rfl rfl rfl
    · rcases List.mem_append.1 hx with hx | hx
      · exact mem_append_left _ (mem_of_mem_eraseIdx hx)
      · exact mem_append_right _ hx
    · rcases List.mem_append.1 hx with hx | hx
      · rcases mem_of_mem_eraseIdx_or hi hx with rfl | hx
        · have hfirst : s.first = true := hp.2.resolve_left fun h => by rw [h] at hdedupe; cases hdedupe
          have hcur := (hs.exported x he).2.2 hp.1
          rw [← hkey.2] at hcur
          exact ⟨j.toExport, mem_append_right _ (mem_map_of_mem hj), hs.first hfirst _ hjx hcur, Or.inr hfirst⟩
        · exact ⟨x, mem_append_left _ hx, hp⟩
      · exact ⟨x, mem_append_right _ hx, hp⟩
  · have hcases : ∀ j ∈ s.jobs ++ [⟨e, none, none, false⟩], j ∈ s.jobs ∨ j = ⟨e, none, none, false⟩ := by
      intro j hj
      rcases List.mem_append.1 hj with hj | hj
      · exact Or.inl hj
      · exact Or.inr (List.mem_singleton.1 hj)
    refine hs.exports rfl rfl rfl (fun _ hw => hw) (fun x hx => Or.inl ?_) (fun x hx hp => ⟨x, ?_, hp⟩) (fun j hj => ?_)
      (fun n j h => ?_) rfl rfl rfl
    · rcases List.mem_append.1 hx with hx | hx
      · exact mem_append_left _ (mem_of_mem_eraseIdx hx)
      · obtain ⟨j, hj, rfl⟩ := List.mem_map.1 hx
        rcases hcases j hj with hj | rfl
        · exact mem_append_right _ (mem_map_of_mem hj)
        · exact he
    · rcases List.mem_append.1 hx with hx | hx
      · rcases mem_of_mem_eraseIdx_or hi hx with rfl | hx
        · exact mem_append_right _ (List.mem_map.2 ⟨⟨x, none, none, false⟩,
            mem_append_right _ (List.mem_singleton.2 rfl), rfl⟩)
        · exact mem_append_left _ hx
      · obtain ⟨j, hj, rfl⟩ := List.mem_map.1 hx
        exact mem_append_right _ (mem_map_of_mem (mem_append_left _ hj))
    · rcases hcases j hj with hj | rfl
      · exact Or.inl hj
      · exact Or.inr ⟨rfl, rfl, rfl⟩
    · show (s.jobs ++ [_])[n]? = some j
      rw [List.getElem?_append_left (List.getElem?_eq_some_iff.1 h).1, h]

/-! ## The statements of an attempt -/

section Attempt

variable {a : Attempt δ} {model : String} {j : Job}

theorem toAsk_asked {fps : Fingerprints δ} : Asked env a.version (toAsk env a fps model) := by
  intro k hk
  obtain ⟨x, hx, hsome⟩ := List.mem_filterMap.1 hk
  dsimp only at hsome
  split at hsome
  · cases hsome
    exact hx
  · cases hsome

theorem stored_of_not_asked {fps : Fingerprints δ} {x : Nat × DayText} (hx : x ∈ (env.itinerary a.version).days)
    (hnot : x.1 ∉ (toAsk env a fps model).map (·.day)) :
    ∃ r, fps.get? (a.version, x.1) = some r ∧ (a.force = true → readByThisJob a.forceSince (some r) = true) := by
  by_cases hask : (fps.get? (a.version, x.1)).map (·.fingerprintHash) ≠ some (dayFingerprint env x.2 model) ∨
      (a.force ∧ ¬readByThisJob a.forceSince (fps.get? (a.version, x.1)))
  · have hk : (⟨x.1, x.2, dayFingerprint env x.2 model⟩ : Ask δ) ∈ toAsk env a fps model :=
      List.mem_filterMap.2 ⟨x, hx, if_pos hask⟩
    exact absurd (List.mem_map.2 ⟨_, hk, rfl⟩) hnot
  · rw [not_or, not_not] at hask
    obtain ⟨r, hr, -⟩ := Option.map_eq_some_iff.1 hask.1
    refine ⟨r, hr, fun hforce => ?_⟩
    by_contra hread
    rw [hr] at hask
    exact hask.2 ⟨hforce, hread⟩

theorem Inv.skipped (hs : Inv env T s) (hj : s.jobs[a.job]? = some j) (hof : a.Of j) (hp : s.Proper j.toExport) :
    Rest env a.version s.atoms (toAsk env a s.fingerprints model) false := by
  intro _ x hx hnot
  have hmem := mem_of_getElem? hj
  have hcur : s.current = some a.version := by
    rw [hof.version]
    exact (hs.exported j.toExport (mem_append_right _ (mem_map_of_mem hmem))).2.2 hp.1
  obtain ⟨r, hr, hread⟩ := stored_of_not_asked hx hnot
  rcases hp.2 with hvia | hfirst
  · -- read since the first attempt of this job
    have hforce : a.force = true := by
      rw [hof.force, hvia]
      rfl
    obtain ⟨since, hsince, hle⟩ := (Option.any_eq_true _ _).1 (hread hforce)
    obtain ⟨t, ht, hts⟩ := hof.since since hsince
    refine hs.served _ hcur j hmem hp.1 t ht x.1 r hr (hts.trans ?_)
    rw [Option.any_some, decide_eq_true_eq] at hle
    exact hle
  · -- read by a job of this term: the version has no others
    obtain ⟨-, j', hj', hver, t, ht, hle⟩ := hs.fingerprinted _ _ r hr
    have hterm : j'.term = s.term := by
      refine hs.first hfirst j'.toExport (mem_append_right _ (mem_map_of_mem hj')) ?_
      rw [hver]
      exact hcur
    exact hs.served _ hcur j' hj' hterm t ht x.1 r hr hle

theorem Inv.statement (hs : Inv env s.now s) {reply : Option (List Atom)} (ha : s.running = some a)
    (horderly : ∀ id d, a.phase.upserts? env = some (id, d) → ∀ r, s.atoms.get? id = some r → r.itineraryDay = d) :
    Inv env (s.now + 1) (s.statement env a model reply) := by
  obtain ⟨j, hj, hof, hsound⟩ := hs.attempt a ha
  have hcovered := fun hp => hs.covered a ha j hj hp
  have hsole := fun j hj ht hf => hs.sole j hj ht hf a ha
  have hs' := hs.mono (Nat.le_succ s.now)
  unfold State.statement
  cases hphase : a.phase with
  | report =>
    have hget : (s.jobs.modify a.job fun j => { j with forceSince := a.forceSince.or j.forceSince })[a.job]? =
        some { j with forceSince := a.forceSince.or j.forceSince } := by
      rw [List.getElem?_modify, hj]
      show some (if a.job = a.job then _ else _) = _
      rw [if_pos rfl]
    have hrow := hs.stamped j (mem_of_getElem? hj)
    have hrevised := hs.stop.revise (i := a.job)
      (f := fun j => { j with forceSince := a.forceSince.or j.forceSince }) (Nat.le_succ _) rfl (fun _ => rfl)
      (fun _ _ h => h) (fun _ _ _ h => Or.inl h) (fun j' hj' => ?_)
      (fun j' hj' hp hend v hv => hs.complete v hv j' (mem_of_getElem? hj') hp hend)
    · refine hrevised.goTo (a := a) hget ⟨hof.version, hof.force, hof.since, hof.forced, hof.started⟩
        (fun j' hj' ht hf => ?_) trivial fun _ => trivial
      rcases mem_modify hj' with hold | ⟨j₁, hj₁, rfl⟩
      · exact hsole j' hold ht hf
      · exact hsole j₁ (mem_of_getElem? hj₁) ht hf
    · cases hj.symm.trans hj'
      refine ⟨fun t ht => (hrow.start t ht).trans (Nat.lt_succ_self _), fun f hf => ?_, hrow.ended⟩
      rcases Option.or_eq_some_iff.1 hf with hnew | ⟨-, hold⟩
      · exact hof.since f hnew
      · exact hrow.since f hold
  | fetch => exact hs'.goTo hj hof hsole toAsk_asked (hs.skipped hj hof)
  | retire asks =>
    rw [hphase] at hsound hcovered
    refine (hs'.write ha retireOrphanDays_fit).goTo hj hof hsole ?_ fun hp => ?_
    · split
      · trivial
      · exact hsound
    · have hrest := retireOrphanDays_fit.rest (hcovered hp)
      split
      · next hnil =>
        rw [List.isEmpty_iff.1 hnil] at hrest
        exact fun _ => hrest.complete rfl retireOrphanDays_noOrphan
      · exact ⟨hrest, retireOrphanDays_noOrphan⟩
  | read asks f =>
    rw [hphase] at hsound hcovered
    cases asks with
    | nil =>
      refine hs'.goTo hj hof hsole trivial fun hp hstatus => ?_
      obtain ⟨hrest, horphan⟩ := hcovered hp
      cases f with
      | false => exact hrest.complete rfl horphan
      | true => exact absurd rfl hstatus
    | cons k rest =>
      cases reply with
      | none =>
        exact hs'.goTo hj hof hsole (fun k' hk' => hsound k' (mem_cons_of_mem k hk'))
          fun hp => ⟨fun hf => (by cases hf), (hcovered hp).2⟩
      | some atoms =>
        cases atoms with
        | nil => exact hs'.goTo hj hof hsole hsound hcovered
        | cons x atoms =>
          exact hs'.goTo hj hof hsole ⟨hsound, fun h => (by cases h), fun _ h => absurd h not_mem_nil⟩ hcovered
  | marker r =>
    rw [hphase] at hsound hcovered horderly
    have hday := horderly _ _ rfl
    have hfit := upsertAtom_fit true (hsound _ mem_cons_self) hday
    refine (hs'.write ha hfit).goTo hj hof hsole ⟨hsound, fun _ => cons_ne_nil _ _, fun id hid => ?_⟩ fun hp => ?_
    · exact upsertAtom_written true hday (Or.inl (List.mem_singleton.1 hid))
    · exact ⟨hfit.rest (hcovered hp).1, hfit.noOrphan (hcovered hp).2⟩
  | write r todo ids =>
    rw [hphase] at hsound hcovered horderly
    obtain ⟨hasked, hne, hids⟩ := hsound
    cases todo with
    | nil =>
      have hfit : Fit env a.version s.atoms _ := retireMissing_fit (hne rfl) hids
      refine (hs'.write ha hfit).goTo hj hof hsole ⟨hasked, ?_⟩ fun hp => ?_
      · exact retireMissing_served (hasked _ mem_cons_self) (hne rfl) hids
      · exact ⟨hfit.rest (hcovered hp).1, hfit.noOrphan (hcovered hp).2⟩
    | cons x todo =>
      have hday := horderly _ _ rfl
      have hfit := upsertAtom_fit false (hasked _ mem_cons_self) hday
      refine (hs'.write ha hfit).goTo hj hof hsole ⟨hasked, fun _ => cons_ne_nil _ _, fun id hid => ?_⟩ fun hp => ?_
      · refine upsertAtom_written false hday ?_
        rcases List.mem_cons.1 hid with hid | hid
        · exact Or.inl hid
        · exact Or.inr (hids id hid)
      · exact ⟨hfit.rest (hcovered hp).1, hfit.noOrphan (hcovered hp).2⟩
  | remember r =>
    rw [hphase] at hsound hcovered
    obtain ⟨hasked, hserved⟩ := hsound
    refine (hs.fingerprint ha hserved r.fingerprint).goTo hj hof hsole ?_ fun hp => ?_
    · exact fun k hk => hasked k (mem_cons_of_mem _ hk)
    · exact ⟨(hcovered hp).1.served_head hserved, (hcovered hp).2⟩
  | done status =>
    rw [hphase] at hcovered
    refine hs.stop.revise (i := a.job) (f := fun j => { j with ended := status ≠ .failed }) (Nat.le_succ _) rfl
      (fun _ => rfl) (fun _ _ h => h) (fun _ _ _ h => Or.inl h) (fun j' hj' => ?_) fun j' hj' hp hend v hv => ?_
    · cases hj.symm.trans hj'
      have hrow := hs.stamped j (mem_of_getElem? hj)
      exact ⟨fun t ht => (hrow.start t ht).trans (Nat.lt_succ_self _), hrow.since, fun _ => hof.started⟩
    · cases hj.symm.trans hj'
      have hcur := hsole j (mem_of_getElem? hj) hp.1 hof.started
      cases hv.symm.trans hcur
      exact hcovered hp (of_decide_eq_true hend)

end Attempt

/-! ## Every run -/

theorem le_act_now (s : State δ) (e : Event) : s.now ≤ (s.act env e).now := by
  cases e with
  | processExport v via => exact le_rfl
  | enqueue i =>
    simp only [State.act]
    cases s.pending[i]? with
    | none => exact Nat.le_refl s.now
    | some e =>
      simp only [State.enqueue]
      split <;> exact le_rfl
  | start i =>
    simp only [State.act]
    split <;> exact le_rfl
  | statement model reply =>
    simp only [State.act]
    cases s.running with
    | none => exact le_rfl
    | some a =>
      show s.now ≤ (s.statement env a model reply).now
      unfold State.statement
      split <;> try exact le_rfl
      split <;> exact le_rfl
  | stop => exact le_rfl
  | wait n => exact Nat.le_add_right _ _

theorem Inv.act (hs : Inv env s.now s) (e : Event) (ho : orderly env s e = true) :
    Inv env (s.now + 1) (s.act env e) := by
  have hs' := hs.mono (Nat.le_succ s.now)
  cases e with
  | processExport v via =>
    show Inv env _ (s.processExport v via)
    by_cases hv : s.current = some v
    · exact hs'.exportAgain hv
    · refine hs'.exportNew hv fun hvia => ?_
      subst hvia
      have hnew := (Bool.or_eq_true_iff.1 ho).resolve_left (fun h => hv (of_decide_eq_true h))
      rw [Bool.not_eq_true', ← Bool.not_eq_true, contains_iff_mem] at hnew
      exact hnew
  | enqueue i =>
    simp only [State.act]
    cases hi : s.pending[i]? with
    | none => exact hs'
    | some e => exact hs'.enqueue hi
  | start i =>
    simp only [State.act]
    split
    · next j hnone hj =>
      have hone : (s.current = some j.version || s.unstarted) = true := by
        have hall : s.jobs[i]?.all (fun j => s.current = some j.version || s.unstarted) = true := ho
        rw [hj] at hall
        exact hall
      rw [Bool.or_eq_true, decide_eq_true_eq] at hone
      exact hs.start hnone hj hone
    · exact hs'
  | statement model reply =>
    simp only [State.act]
    cases hrun : s.running with
    | none => exact hs'
    | some a =>
      refine hs.statement hrun fun id d hup r hr => ?_
      have hall : s.running.all (fun a => (a.phase.upserts? env).all fun x =>
          (s.atoms.get? x.1).all fun r => r.itineraryDay = x.2) = true := ho
      rw [hrun, Option.all_some, hup, Option.all_some, hr, Option.all_some, decide_eq_true_eq] at hall
      exact hall
  | stop => exact hs'.stop
  | wait n => exact hs'.clock _

theorem Inv.step (hs : Inv env s.now s) (e : Event) (ho : orderly env s e = true) :
    Inv env (step env s e).now (step env s e) :=
  ((hs.act e ho).mono (Nat.succ_le_succ (le_act_now s e))).clock _

variable (env) in
/-- **Atoms of the current version.**  In every orderly run, whenever every job has
ended, the live atoms are reads of the current version's text of their day, and
each day of its itinerary has one. -/
theorem atoms_follow_current (events : List Event) (h : Along (step env) (fun s e => orderly env s e = true) init events) :
    Always (step env) (fun s => Settled s → Follows env s) init events := by
  have hinv : Always (step env) (fun s => Inv env s.now s) init events :=
    h.always (fun s e hs ho => hs.step e ho) inv_init
  exact hinv.mono fun s hs hsettled => hs.follows hsettled

/-! ### Two versions of a tour of one day -/

section Sample

instance (s : State δ) : Decidable (Settled s) :=
  inferInstanceAs (Decidable (s.pending = [] ∧ s.running = none ∧ ∀ j ∈ s.jobs, j.ended = true))

def sample : Env (List String) where
  tourId := "t"
  itinerary := fun v => ⟨[(1, ⟨"Hanoi", if v = 1 then "Walk the old quarter" else "Cycle to the lake"⟩)],
    List.pairwise_singleton _ _, List.cons_ne_nil _ _⟩
  normalise := fun w => w
  systemPrompt := "p"
  sha256 := fun parts => parts

/-- An attempt whose only read gives `reply`. -/
def attemptOf (i : JobId) (reply : Option (List Atom)) : List Event :=
  .start i :: List.replicate (if reply.isSome then 9 else 6) (.statement "m" reply)

/-- Version 1 is published, its first attempt fails; version 2 is published. -/
def publishes : List Event :=
  [.processExport 1 .publish, .enqueue 0] ++ attemptOf 0 none ++ [.processExport 2 .publish, .enqueue 0]

def walk : Option (List Atom) := some [⟨"old quarter", "walk"⟩]

def cycle : Option (List Atom) := some [⟨"lake", "cycle"⟩]

/-- The retry of version 1 comes before the job of version 2. -/
theorem early_retry_follows :
    Settled (run (step sample) init (publishes ++ attemptOf 0 walk ++ attemptOf 1 cycle)) ∧
      (run (step sample) init (publishes ++ attemptOf 0 walk ++ attemptOf 1 cycle)).current = some 2 ∧
      Follows sample (run (step sample) init (publishes ++ attemptOf 0 walk ++ attemptOf 1 cycle)) := by
  have hsettled : Settled (run (step sample) init (publishes ++ attemptOf 0 walk ++ attemptOf 1 cycle)) := by
    decide +kernel
  refine ⟨hsettled, by decide +kernel, ?_⟩
  exact (atoms_follow_current sample (publishes ++ attemptOf 0 walk ++ attemptOf 1 cycle) (by decide +kernel)).run hsettled

/-- It comes after: the atoms are those of version 1. -/
theorem late_retry_brings_old_atoms :
    Settled (run (step sample) init (publishes ++ attemptOf 1 cycle ++ attemptOf 0 walk)) ∧
      ¬Follows sample (run (step sample) init (publishes ++ attemptOf 1 cycle ++ attemptOf 0 walk)) := by
  refine ⟨by decide +kernel, fun h => ?_⟩
  have hcurrent : (run (step sample) init (publishes ++ attemptOf 1 cycle ++ attemptOf 0 walk)).current = some 2 := by
    decide +kernel
  have hrow : (run (step sample) init (publishes ++ attemptOf 1 cycle ++ attemptOf 0 walk)).atoms.get?
      (contentHashAtomId sample 1 "old quarter" "walk") = some ⟨1, false, false, ⟨"Hanoi", "Walk the old quarter"⟩⟩ := by
    decide +kernel
  have hmem := (h 2 hcurrent).live _ _ hrow rfl
  revert hmem
  decide +kernel

end Sample

end CisApp.Atomize
