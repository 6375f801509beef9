import CisApp.Lib.Run
import CisApp.Lib.Table

/-!
# The atomize job of one tour

`process_export` makes a version of the tour current and enqueues its
`a3_atomize` job: a publish under the key `a3_atomize:<version>`, a promote
without a key and with `force`.  The two are separate statements, so the state
keeps the exports whose enqueue is still to come (`pending`).

An attempt of a job runs statement by statement, each with its own commit, and
may stop before any of them; one attempt of the tour runs at a time.  It reads
the fingerprints of its version, retires the atoms of days its itinerary does
not have, and reads each day whose fingerprint differs (under `force`: each day
not read since the job's first attempt).  A read upserts the atoms of the reply
(or the empty marker), retires the other live atoms of the day, and stores the
fingerprint.

The row of an atom carries what the code does not store: the text it was read
from.  `term` numbers the stretches during which one version is current; a job
carries the term of its export.
-/

namespace CisApp.Atomize

abbrev VersionId := Nat

abbrev JobId := Nat

abbrev Time := Nat

structure DayText where
  title : String
  body : String
deriving DecidableEq

/-- `parse_canonical_itinerary_days` of a version with a per-day itinerary, in the
order of `sorted(days)`. -/
structure Itinerary where
  days : List (Nat × DayText)
  sorted : days.Pairwise fun a b => a.1 < b.1
  ne_nil : days ≠ []

/-- One atom of a reply that is stored: not logistics, not rejected by the grounding
check, its action already stripped. -/
structure Atom where
  place : String
  action : String
deriving DecidableEq

/-- The tour, the texts of its versions, and the hash of both keys. -/
structure Env (δ : Type) where
  tourId : String
  itinerary : VersionId → Itinerary
  normalise : String → String
  systemPrompt : String
  sha256 : List String → δ

variable {δ : Type} [DecidableEq δ]

def contentHashAtomId (env : Env δ) (day : Nat) (place action : String) : δ :=
  env.sha256 ["platform", env.tourId, toString day, env.normalise place, env.normalise action]

def dayFingerprint (env : Env δ) (text : DayText) (model : String) : δ :=
  env.sha256 [text.title, text.body, env.systemPrompt, model]

/-! ## The tables -/

/-- A row of `tour_atoms` with `owner_scope = 'platform'`. -/
structure AtomRow where
  itineraryDay : Nat
  deleted : Bool
  isEmptyMarker : Bool
  source : DayText
deriving DecidableEq

/-- A row of `atomize_day_fingerprint`. -/
structure Fingerprint (δ : Type) where
  fingerprintHash : δ
  atomizedAt : Time
deriving DecidableEq

/-- The two callers of `process_export`. -/
inductive Via
  | publish
  | promote
deriving DecidableEq

/-- `atomize_dedupe` -/
def Via.dedupe : Via → Bool
  | .publish => true
  | .promote => false

/-- `atomize_force` -/
def Via.force : Via → Bool
  | .publish => false
  | .promote => true

structure Export where
  version : VersionId
  via : Via
  term : Nat
deriving DecidableEq

/-- A job of the kind `a3_atomize`. -/
structure Job extends Export where
  firstStart : Option Time
  /-- `progress.force_since` -/
  forceSince : Option Time
  /-- Its last attempt ended with the atomize status `success` or `skipped`. -/
  ended : Bool
deriving DecidableEq

abbrev Atoms (δ : Type) := Table δ AtomRow

abbrev Fingerprints (δ : Type) := Table (VersionId × Nat) (Fingerprint δ)

/-! ## An attempt -/

inductive Status
  | success
  | skipped
  | failed
deriving DecidableEq

/-- An entry of `to_ask`. -/
structure Ask (δ : Type) where
  day : Nat
  text : DayText
  fingerprint : δ
deriving DecidableEq

/-- The day being read: what is left after it, and whether a day failed before. -/
structure Reading (δ : Type) extends Ask δ where
  rest : List (Ask δ)
  anyFailed : Bool
deriving DecidableEq

/-- The statement an attempt comes to next. -/
inductive Phase (δ : Type)
  | report
  | fetch
  | retire (toAsk : List (Ask δ))
  | read (toAsk : List (Ask δ)) (anyFailed : Bool)
  | marker (r : Reading δ)
  | write (r : Reading δ) (atoms : List Atom) (ids : List δ)
  | remember (r : Reading δ)
  | done (status : Status)
deriving DecidableEq

structure Attempt (δ : Type) where
  job : JobId
  version : VersionId
  force : Bool
  forceSince : Option Time
  phase : Phase δ
deriving DecidableEq

structure State (δ : Type) where
  now : Time
  current : Option VersionId
  term : Nat
  first : Bool
  versions : List VersionId
  pending : List Export
  jobs : List Job
  atoms : Atoms δ
  fingerprints : Fingerprints δ
  running : Option (Attempt δ)

def init : State δ := ⟨0, none, 0, false, [], [], [], .empty, .empty, none⟩

/-! ## The statements -/

def readByThisJob (forceSince : Option Time) (row : Option (Fingerprint δ)) : Bool :=
  forceSince.any fun since => row.any fun r => since ≤ r.atomizedAt

def toAsk (env : Env δ) (a : Attempt δ) (fps : Fingerprints δ) (model : String) : List (Ask δ) :=
  (env.itinerary a.version).days.filterMap fun x =>
    let fp := dayFingerprint env x.2 model
    let row := fps.get? (a.version, x.1)
    if row.map (·.fingerprintHash) ≠ some fp ∨ (a.force ∧ ¬readByThisJob a.forceSince row) then
      some ⟨x.1, x.2, fp⟩
    else none

/-- `_RETIRE_ORPHAN_DAYS_SQL` -/
def retireOrphanDays (atoms : Atoms δ) (days : List Nat) : Atoms δ :=
  atoms.update (fun _ r => !r.deleted && !days.contains r.itineraryDay) fun _ r => { r with deleted := true }

/-- The upsert of an atom.  A conflict leaves the day and the marker flag of the row. -/
def upsertAtom (atoms : Atoms δ) (id : δ) (day : Nat) (text : DayText) (marker : Bool) : Atoms δ :=
  match atoms.get? id with
  | none => atoms.upsert id ⟨day, false, marker, text⟩
  | some r => atoms.upsert id { r with deleted := false, source := text }

/-- The soft delete of the atoms of a day that the read did not reproduce. -/
def retireMissing (atoms : Atoms δ) (day : Nat) (ids : List δ) : Atoms δ :=
  atoms.update (fun id r => r.itineraryDay = day && !r.deleted && !ids.contains id)
    fun _ r => { r with deleted := true }

/-- The atom id the next statement upserts, and the day it is for. -/
def Phase.upserts? (env : Env δ) : Phase δ → Option (δ × Nat)
  | .marker r => some (contentHashAtomId env r.day "__empty__" "__empty__", r.day)
  | .write r (x :: _) _ => some (contentHashAtomId env r.day x.place x.action, r.day)
  | _ => none

def State.goTo (s : State δ) (a : Attempt δ) (p : Phase δ) : State δ :=
  { s with running := some { a with phase := p } }

/-- The next statement of the running attempt.  `model` is the stage's model when the
fingerprints are compared; `reply` is what the two LLM calls gave, `none` when both failed. -/
def State.statement (env : Env δ) (s : State δ) (a : Attempt δ) (model : String)
    (reply : Option (List Atom)) : State δ :=
  match a.phase with
  | .report =>
    { s with jobs := s.jobs.modify a.job fun j => { j with forceSince := a.forceSince.or j.forceSince } }.goTo a .fetch
  | .fetch => s.goTo a (.retire (toAsk env a s.fingerprints model))
  | .retire asks =>
    { s with atoms := retireOrphanDays s.atoms ((env.itinerary a.version).days.map Prod.fst) }.goTo a
      (if asks.isEmpty then .done .skipped else .read asks false)
  | .read [] anyFailed => s.goTo a (.done (if anyFailed then .failed else .success))
  | .read (k :: rest) anyFailed =>
    match reply with
    | none => s.goTo a (.read rest true)
    | some [] => s.goTo a (.marker { k with rest, anyFailed })
    | some atoms => s.goTo a (.write { k with rest, anyFailed } atoms [])
  | .marker r =>
    let id := contentHashAtomId env r.day "__empty__" "__empty__"
    { s with atoms := upsertAtom s.atoms id r.day r.text true }.goTo a (.write r [] [id])
  | .write r (x :: atoms) ids =>
    let id := contentHashAtomId env r.day x.place x.action
    { s with atoms := upsertAtom s.atoms id r.day r.text false }.goTo a (.write r atoms (id :: ids))
  | .write r [] ids => { s with atoms := retireMissing s.atoms r.day ids }.goTo a (.remember r)
  | .remember r =>
    { s with fingerprints := s.fingerprints.upsert (a.version, r.day) ⟨r.fingerprint, s.now⟩ }.goTo a
      (.read r.rest r.anyFailed)
  | .done status =>
    { s with
      jobs := s.jobs.modify a.job fun j => { j with ended := status ≠ .failed }
      running := none }

/-! ## The queue -/

/-- `process_export`, up to the enqueue. -/
def State.processExport (s : State δ) (v : VersionId) (via : Via) : State δ :=
  let again := s.current = some v
  let term := if again then s.term else s.term + 1
  { s with
    current := some v
    term := term
    first := if again then s.first else !s.versions.contains v
    versions := v :: s.versions
    pending := s.pending ++ [⟨v, via, term⟩] }

/-- `enqueue_a3_atomize`: with a key already used, nothing. -/
def State.enqueue (s : State δ) (e : Export) : State δ :=
  if e.via.dedupe && s.jobs.any fun j => j.via.dedupe && j.version == e.version then s
  else { s with jobs := s.jobs ++ [⟨e, none, none, false⟩] }

/-- The claim of a job, up to its first progress write. -/
def State.start (s : State δ) (i : JobId) (j : Job) : State δ :=
  { s with
    jobs := s.jobs.modify i fun j => { j with firstStart := j.firstStart.or (some s.now), ended := false }
    running := some ⟨i, j.version, j.via.force, if j.via.force then j.forceSince.or (some s.now) else none, .report⟩ }

inductive Event
  | processExport (v : VersionId) (via : Via)
  | enqueue (i : Nat)
  | start (i : JobId)
  | statement (model : String) (reply : Option (List Atom))
  | stop
  | wait (n : Nat)

def State.act (env : Env δ) (s : State δ) : Event → State δ
  | .processExport v via => s.processExport v via
  | .enqueue i =>
    match s.pending[i]? with
    | none => s
    | some e => { s with pending := s.pending.eraseIdx i }.enqueue e
  | .start i =>
    match s.running, s.jobs[i]? with
    | none, some j => s.start i j
    | _, _ => s
  | .statement model reply =>
    match s.running with
    | none => s
    | some a => s.statement env a model reply
  | .stop => { s with running := none }
  | .wait n => { s with now := s.now + n }

def step (env : Env δ) (s : State δ) (e : Event) : State δ :=
  let s' := s.act env e
  { s' with now := s'.now + 1 }

end CisApp.Atomize
