import CisApp.Lib.Run
import CisApp.Segments.Derive

/-!
# One run of Segment matching

`run_segment_matching(tour_id)` of `services/acp_contract/segment_matching.py`:
the forming atoms of a tour and one pseudo atom for each existing Segment they
could join are derived and reconciled, ids that belong to someone else are minted
again, and the result is written in one transaction.

* `Catalog` is what the run reads of other stages: `tour_atoms` and the tours.
* `Store` is what it writes: `atom_segment`, `atom_segment_member` (rows in the
  order they were written) and `atom_segment_alias`.
* `planRun` is everything up to the writes, `Store.write` the writes.

A run that raises writes nothing.  `rejected country pair` stands for the cached
verdicts on pairs of places (`_apart_pairs`), `sha` for the hash.
-/

namespace CisApp.Segments

open Lib

variable (T : Text) (sha : String → String)

/-! ## Tables -/

/-- One row of `tour_atoms`. -/
structure AtomRow where
  tourId : String
  day : Option Int := none
  place : Option String
  action : Option String
  activityType : Option String := none
  deleted : Bool := false
  isEmptyMarker : Bool := false
deriving Repr, DecidableEq

/-- The country of a tour, and whether its Master is active over a live source (the
joins of `v_active_tour_atoms`). -/
structure TourRow where
  country : Option String
  active : Bool := true
deriving Repr, DecidableEq

/-- Atoms and tours; no id of an atom looks like that of a pseudo atom. -/
structure Catalog where
  atoms : Table String AtomRow
  tours : Table String TourRow
  plain : atoms.All fun a _ => isPseudo a = false

structure Store where
  segments : Table String (String × String)
  members : List (String × String)
  aliases : Table String String

def Store.empty : Store := ⟨Table.empty, [], Table.empty⟩

namespace Catalog

variable (C : Catalog)

def countryOf (atomId : String) : Option String :=
  (C.atoms.get? atomId).bind fun r => (C.tours.get? r.tourId).bind TourRow.country

def dead (r : AtomRow) : Bool := r.deleted || r.isEmptyMarker

/-- A row of `v_active_tour_atoms`. -/
def live (r : AtomRow) : Bool :=
  !dead r && ((C.tours.get? r.tourId).map TourRow.active).getD false

/-- The atoms a run of the tour loads. -/
def newAtoms (tour : String) : List SegmentAtom :=
  C.atoms.rows.filterMap fun e =>
    if e.2.tourId = tour && C.live e.2 then
      e.2.place.bind fun place => e.2.action.map fun action =>
        ⟨e.1, tour, e.2.day, place, action, (C.countryOf e.1).getD "", e.2.activityType⟩
    else none

def formingAtoms (tour : String) : List SegmentAtom :=
  (C.newAtoms tour).filter (formsSegment T)

def excludedAtoms (tour : String) : List String :=
  ((C.newAtoms tour).filter fun a => !formsSegment T a).map SegmentAtom.atomId

def deadAtom (tour atomId : String) : Bool :=
  ((C.atoms.get? atomId).map fun r => r.tourId = tour && dead r).getD false

end Catalog

/-! ## The pool -/

/-- `mode() WITHIN GROUP (ORDER BY …)`: the most frequent value, the first of those. -/
def mode (values : List String) : Option String :=
  (sortBy (fun c => toLex (-(values.count c : Int), c)) values).head?

section pool

variable (C : Catalog) (S : Store) (tour : String)

def Store.atomsOf (segmentId : String) : List String :=
  (S.members.filter fun r => r.1 = segmentId).map Prod.snd

def Store.hasMembers (segmentId : String) : Bool := S.members.any fun r => r.1 = segmentId

def Store.segmentOf (atomId : String) : Option String :=
  ((S.members.filter fun r => r.2 = atomId).map Prod.fst).getLast?

def segmentCountry (segmentId : String) : String :=
  (mode ((S.atomsOf segmentId).filterMap C.countryOf)).getD ""

def memberTypes (segmentId : String) : List (Option String) :=
  (S.atomsOf segmentId).map fun a => (C.atoms.get? a).bind AtomRow.activityType

/-- The country of the tour, `""` when unknown. -/
def tourCountry : String := ((C.tours.get? tour).bind TourRow.country).getD ""

def assignedSegments : List String :=
  (S.members.filter fun r => (C.newAtoms tour).any fun a => a.atomId = r.2).map Prod.fst

/-- The Segments with members of this country or of none, and those of the tour's atoms. -/
def existingRows : List (String × String × String) :=
  S.segments.rows.filter fun e =>
    let country := segmentCountry C S e.1
    S.hasMembers e.1 && (tourCountry C tour = "" || country = tourCountry C tour || country = "" ||
      e.1 ∈ assignedSegments C S tour)

/-- `_candidate_pseudo_atoms`: the existing Segments of a verb and a place word of a new atom,
and those to keep. -/
def candidatePseudoAtoms (new pseudo : List SegmentAtom) (keep : List String) : List SegmentAtom :=
  pseudo.filter fun p =>
    p.atomId ∈ keep || new.any fun a =>
      (a.key T).verb ≠ "" && (a.key T).verb = (p.key T).verb &&
        (a.key T).place.any (· ∈ (p.key T).place)

def pseudoAtoms : List SegmentAtom :=
  candidatePseudoAtoms T (C.formingAtoms T tour)
    (((existingRows C S tour).filter fun e =>
        T.formsMoment e.2.1 e.2.2 (memberTypes C S e.1)).map fun e =>
      ⟨pseudoId e.1, "", none, e.2.1, e.2.2, segmentCountry C S e.1, none⟩)
    ((assignedSegments C S tour).map pseudoId)

def poolAtoms : List SegmentAtom := C.formingAtoms T tour ++ pseudoAtoms T C S tour

/-- The Segment each atom of the pool belonged to. -/
def assigned (atomId : String) : Option String :=
  if (pseudoAtoms T C S tour).any fun p => p.atomId = atomId then some (storedId atomId)
  else if (C.newAtoms tour).any fun a => a.atomId = atomId then S.segmentOf atomId
  else none

/-- `set(assigned.values())`: what this run may relabel. -/
def claimed : List String :=
  (C.newAtoms tour).filterMap (fun a => assigned T C S tour a.atomId) ++
    (pseudoAtoms T C S tour).map fun p => storedId p.atomId

/-- `pairs_to_ask`: pairs of places written differently that the moment rule would join, with
the country asked about. -/
def pairsToAsk (atoms : List SegmentAtom) (new : List SegmentAtom) : List (Finset String × String) :=
  (new.flatMap fun a => atoms.map fun b => (a, b)).foldl (fun out e =>
    let pair := T.placePair e.1.place e.2.place
    if e.1.atomId = e.2.atomId || (e.1.key T).place = (e.2.key T).place then out
    else if e.1.country ≠ "" && e.2.country ≠ "" && e.1.country ≠ e.2.country then out
    else if T.placeNorm e.1.place = T.placeNorm e.2.place || out.any (fun o => o.1 = pair) then out
    else if looksLikeOneMoment (e.1.key T) (e.2.key T) then
      out ++ [(pair, if e.1.country ≠ "" then e.1.country else e.2.country)]
    else out) []

/-- `_apart_pairs`: the pairs asked about that the verdict keeps apart. -/
def apartPairs (rejected : String → Finset String → Bool) : Finset (Finset String) :=
  (((pairsToAsk T (poolAtoms T C S tour) (C.formingAtoms T tour)).filter fun e =>
    rejected e.2 e.1).map Prod.fst).toFinset

def derivedSegments (rejected : String → Finset String → Bool) : Except SegmentError (List Segment) :=
  deriveSegments T sha (apartPairs T C S tour rejected)
    (some ((C.formingAtoms T tour).map SegmentAtom.atomId).toFinset) (poolAtoms T C S tour)

end pool

/-! ## Ids of someone else -/

/-- What the run would write: the Segments and aliases, the second mints of ids, and the
unclaimed ids with members that it joins. -/
structure Plan where
  segments : List Segment
  aliases : Table String String
  remints : List (String × String)
  unclaimedExisting : List String

def hasReal (s : Segment) : Bool := s.atomIds.any fun a => !isPseudo a

/-- `written_unclaimed_ids`: the ids to be written that the run did not claim. -/
def writtenUnclaimedIds (segments : List Segment) (aliases : Table String String)
    (claimed : List String) : List String :=
  sortBy id ((((segments.filter hasReal).map Segment.id ++ aliases.rows.map Prod.snd).filter
    (· ∉ claimed)).dedup)

def remintId (segmentId country : String) (n : Nat) : String :=
  sha (joinWith '|' [segmentId, country, "aa857", n.repr])

/-- The first replacement from `n` on that is free, among as many as `fuel`. -/
def freeRemint (free : String → Bool) (segmentId country : String) : Nat → Nat → Option String
  | 0, _ => none
  | fuel + 1, n =>
    if free (remintId sha segmentId country n) then some (remintId sha segmentId country n)
    else freeRemint free segmentId country fuel (n + 1)

def knownCountriesOf (C : Catalog) (S : Store) (segmentId : String) : List String :=
  (((S.atomsOf segmentId).filterMap C.countryOf).map T.countryNorm).filter (· ≠ "")

/-- The id has members of another country or is an alias old id, and the tour's country is known. -/
def belongsElsewhere (C : Catalog) (S : Store) (own segmentId : String) : Bool :=
  own ≠ "" && ((knownCountriesOf T C S segmentId).any (· ≠ own) ||
    (S.aliases.get? segmentId).isSome)

/-- One id of `avoid_foreign_ids`; the database is probed for 512 replacements. -/
def guardStep (C : Catalog) (S : Store) (own : String) (inRun : List String)
    (st : List (String × String) × List String) (segmentId : String) :
    Except SegmentError (List (String × String) × List String) :=
  if belongsElsewhere T C S own segmentId then
    let free (candidate : String) : Bool :=
      (S.segments.get? candidate).isNone && candidate ∉ inRun &&
        (S.aliases.get? candidate).isNone && candidate ∉ st.1.map Prod.snd
    match freeRemint sha free segmentId own 512 2 with
    | some candidate => .ok (st.1 ++ [(segmentId, candidate)], st.2)
    | none => .error (.remintExhausted segmentId)
  else if S.hasMembers segmentId then .ok (st.1, st.2 ++ [segmentId])
  else .ok st

def newId (remints : List (String × String)) (segmentId : String) : String :=
  (remints.lookup segmentId).getD segmentId

def avoidForeignIds (C : Catalog) (S : Store) (own : String) (claimed : List String)
    (segments : List Segment) (aliases : Table String String) : Except SegmentError Plan := do
  let (remints, unclaimedExisting) ← (writtenUnclaimedIds segments aliases claimed).foldlM
    (guardStep T sha C S own (segments.map Segment.id)) ([], [])
  return {
    segments := segments.map fun s => { s with id := newId remints s.id }
    aliases := aliases.update (fun _ _ => true) fun _ target => newId remints target
    remints := remints
    unclaimedExisting := unclaimedExisting }

def planRun (rejected : String → Finset String → Bool) (C : Catalog) (S : Store) (tour : String) :
    Except SegmentError Plan := do
  let derived ← derivedSegments T sha C S tour rejected
  let (segments, aliases) ← reconcileIds derived (assigned T C S tour)
  avoidForeignIds T sha C S (T.countryNorm (tourCountry C tour)) (claimed T C S tour) segments aliases

/-! ## The writes -/

namespace Plan

variable (P : Plan)

def toWrite : List Segment :=
  (P.segments.map fun s => { s with atomIds := s.atomIds.filter fun a => !isPseudo a }).filter
    fun s => !s.atomIds.isEmpty

def aliasRows : List (String × String) :=
  P.aliases.rows.filter fun e => e.2 ∈ P.segments.map Segment.id

/-- The rows of `atom_segment` to write: the Segments to write and the alias targets. -/
def segmentRows : List (String × String × String) :=
  (P.toWrite ++ P.segments.filter fun s =>
      s.id ∈ P.aliasRows.map Prod.snd && s.id ∉ P.toWrite.map Segment.id).map fun s =>
    (s.id, s.place, s.action)

def memberRows : List (String × String) :=
  P.toWrite.flatMap fun s => s.atomIds.map fun a => (s.id, a)

def writtenIds : List String := P.toWrite.map Segment.id ++ P.aliasRows.map Prod.snd

end Plan

/-- `INSERT … ON CONFLICT DO NOTHING`. -/
def insertRow (members : List (String × String)) (r : String × String) : List (String × String) :=
  if r ∈ members then members else members ++ [r]

/-- The members of `was` are inserted into `target`. -/
def repointInsert (members : List (String × String)) (e : String × String) : List (String × String) :=
  ((members.filter fun r => r.1 = e.1).map fun r => (e.2, r.2)).foldl insertRow members

/-- `_repoint_members`: every insert, then every delete. -/
def repointMembers (members : List (String × String)) (rows : List (String × String)) :
    List (String × String) :=
  (rows.foldl repointInsert members).filter fun r => r.1 ∉ rows.map Prod.fst

/-- The label upsert: a taken id is relabelled only where the run may. -/
def upsertLabel (may : String → Bool) (segments : Table String (String × String))
    (e : String × String × String) : Table String (String × String) :=
  if (segments.get? e.1).isNone || may e.1 then segments.upsert e.1 e.2 else segments

def advance (aliases : Table String String) : Table String String :=
  aliases.update (fun _ _ => true) fun _ target => (aliases.get? target).getD target

/-- The alias rows are upserted, all rows advance, and self rows are deleted. -/
def writeAliases (aliases : Table String String) (rows : List (String × String)) :
    Table String String :=
  if rows.isEmpty then aliases
  else
    (advance (rows.foldl (fun t e => t.upsert e.1 e.2) aliases)).delete fun old canonical =>
      old = canonical

/-- The known countries of a Segment's live members, each once. -/
def liveCountries (C : Catalog) (members : List (String × String)) (segmentId : String) :
    List String :=
  wordSet ((((members.filter fun r => r.1 = segmentId).filter fun r =>
      ((C.atoms.get? r.2).map C.live).getD false).filterMap fun r =>
    (C.countryOf r.2).map T.countryNorm).filter (· ≠ ""))

/-- Live members of more than one country, and not all of them there before. -/
def mixedNow (C : Catalog) (before after : List (String × String)) (segmentId : String) : Bool :=
  let now := liveCountries T C after segmentId
  let was := liveCountries T C before segmentId
  1 < now.length && !(1 < was.length && now.all (· ∈ was))

/-- `assert_each_atom_in_one_segment`: the atoms in none of the Segments, and in several. -/
def uncovered (toWrite : List Segment) (atomIds : List String) : List String × List String :=
  let count (a : String) : Nat := (toWrite.flatMap Segment.atomIds).count a
  ((wordSet atomIds).filter fun a => count a = 0, (wordSet atomIds).filter fun a => 1 < count a)

/-- The write transaction. -/
def Store.write (C : Catalog) (S : Store) (tour : String) (P : Plan) : Except SegmentError Store :=
  let (missing, repeated) := uncovered P.toWrite ((C.formingAtoms T tour).map SegmentAtom.atomId)
  if !missing.isEmpty || !repeated.isEmpty then .error (.coverage missing repeated)
  else
    let may (segmentId : String) : Bool :=
      segmentId ∈ claimed T C S tour || !S.hasMembers segmentId
    let kept := (repointMembers S.members P.aliasRows).filter fun r =>
      r.2 ∉ C.excludedAtoms T tour && !C.deadAtom tour r.2
    let members := P.memberRows.foldl insertRow kept
    match P.writtenIds.find? (mixedNow T C S.members members) with
    | some segmentId => .error (.mixedCountry (liveCountries T C members segmentId))
    | none =>
      .ok {
        segments := (sortBy Prod.fst P.segmentRows).foldl (upsertLabel may) S.segments
        members := members
        aliases := writeAliases S.aliases P.aliasRows }

/-- `run_segment_matching`: the plan and the store it leaves. -/
def runSegmentMatching (rejected : String → Finset String → Bool) (C : Catalog) (S : Store)
    (tour : String) : Except SegmentError (Plan × Store) :=
  if (C.newAtoms tour).isEmpty then
    .ok (⟨[], Table.empty, [], []⟩,
      { S with members := S.members.filter fun r => !C.deadAtom tour r.2 })
  else do
    let P ← planRun T sha rejected C S tour
    let S' ← S.write T C tour P
    return (P, S')

/-! ## Runs one after another -/

structure World where
  catalog : Catalog
  store : Store

/-- A run of a tour, or a change of the atoms and tours by other stages. -/
inductive Act where
  | run (tour : String)
  | edit (catalog : Catalog)

/-- A run that raises is rolled back. -/
def World.step (rejected : String → Finset String → Bool) (w : World) : Act → World
  | .run tour =>
    match runSegmentMatching T sha rejected w.catalog w.store tour with
    | .ok (_, S') => { w with store := S' }
    | .error _ => w
  | .edit catalog => { w with catalog := catalog }

def World.init (C : Catalog) : World := ⟨C, Store.empty⟩

end CisApp.Segments
