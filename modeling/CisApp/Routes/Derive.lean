import CisApp.Lib.Grouping
import CisApp.Lib.UnionFind

/-!
# Routes and families of tours

The part of `services/acp_contract/route_detection.py` that reads the ranking
only.  A Route is a span of consecutive days of one tour.  `familyOf` joins tours
whose Segments overlap enough (Jaccard over the union, ratios are exact) by a
union-find in the order of the tour ids.

`plan` is what a run derives before it looks at what is stored: the Routes, the
family of each tour, and the families that have a Route, each with the name of its
journey.  It does not depend on the order of the rows (`plan_perm`).
-/

namespace CisApp.Routes

open Lib List

/-- A Segment of a tour, with the first day on which the tour has it. -/
structure RankedRow where
  segmentId : String
  tourId : String
  place : String
  action : String
  day : Int
deriving Repr, DecidableEq

/-- The rows that `run_route_detection` reads, one for each Segment of a tour.  A tour id is the text
of a UUID. -/
structure Ranking where
  rows : List RankedRow
  distinct : (rows.map fun r => (r.tourId, r.segmentId)).Nodup
  uuids : ∀ r ∈ rows, ':' ∉ r.tourId.toList

structure Moment where
  segmentId : String
  tourId : String
  day : Int
  place : String
deriving Repr, DecidableEq

structure Route where
  tourId : String
  firstDay : Int
  lastDay : Int
  segmentIds : List String
  places : List String
  hubName : String := ""
  hubId : Option String := none
deriving Repr, DecidableEq

def Route.routeId (r : Route) : String :=
  r.tourId ++ ":" ++ toString r.firstDay ++ "-" ++ toString r.lastDay

def leastDays : Nat := 2
def leastPlaces : Nat := 2
def mostDays : Nat := 5

/-! ## Routes -/

def RankedRow.moment (r : RankedRow) : Moment := ⟨r.segmentId, r.tourId, r.day, r.place⟩

def Moment.order (m : Moment) : Int ×ₗ String := toLex (m.day, m.segmentId)

def heldBy (moments : List Moment) (tour : String) : List Moment :=
  sortBy Moment.order (moments.filter fun m => m.tourId = tour)

/-- `_runs`: a day with nothing on it ends a run. -/
def runs (held : List Moment) : List (List Moment) :=
  held.foldl (fun runs m =>
    match runs.getLast?.bind fun run => run.getLast? with
    | some last => if m.day - last.day ≤ 1 then runs.dropLast ++ [runs.getLast?.getD [] ++ [m]] else runs ++ [[m]]
    | none => runs ++ [[m]]) []

/-- The days of a run in spans; a last span that is too short joins the one before it. -/
def cutDays (days : List Int) : List (List Int) :=
  let cuts := (List.range ((days.length + mostDays - 1) / mostDays)).map fun i =>
    (days.drop (i * mostDays)).take mostDays
  match cuts.reverse with
  | last :: before :: rest => if last.length < leastDays then rest.reverse ++ [before ++ last] else cuts
  | _ => cuts

def spans (runs : List (List Moment)) : List (List Moment) :=
  runs.flatMap fun run =>
    (cutDays (sortBy id (run.map Moment.day).dedup)).map fun cut => run.filter fun m => m.day ∈ cut

/-- The Route of a span, unless it is no journey. -/
def route? (tour : String) (span : List Moment) : Option Route :=
  let places := (span.map Moment.place).eraseDups
  let days := (span.map Moment.day).dedup
  if days.length < leastDays || places.length < leastPlaces then none
  else
    match days.min?, days.max? with
    | some first, some last =>
      some { tourId := tour, firstDay := first, lastDay := last, segmentIds := span.map Moment.segmentId, places }
    | _, _ => none

def tourRoutes (moments : List Moment) (tour : String) : List Route :=
  (spans (runs (heldBy moments tour))).filterMap (route? tour)

def deriveRoutes (moments : List Moment) : List Route :=
  sortBy Route.routeId ((sortBy id (moments.map Moment.tourId).dedup).flatMap (tourRoutes moments))

/-! ## Families -/

def Ranking.tours (R : Ranking) : List String := sortBy id (R.rows.map RankedRow.tourId).dedup

def Ranking.segmentsOf (R : Ranking) (tour : String) : Finset String :=
  ((R.rows.filter fun r => r.tourId = tour).map RankedRow.segmentId).toFinset

/-- `|∩| / |∪| >= SHARED_ENOUGH`, the constant being 3/10. -/
def sharesEnough (a b : Finset String) : Bool := 0 < (a ∪ b).card && 3 * (a ∪ b).card ≤ 10 * (a ∩ b).card

/-- Two tours become one family under the smaller root. -/
def link (fuel : Nat) (parent : String → String) (one other : String) : String → String :=
  let left := find fuel parent one
  let right := find fuel left.2 other
  if left.1 = right.1 then right.2 else Function.update right.2 (max left.1 right.1) (min left.1 right.1)

/-- The two nested loops over the tours. -/
def joinTours (join : String → String → Bool) (fuel : Nat) : List String → (String → String) → (String → String)
  | [], parent => parent
  | one :: rest, parent =>
    joinTours join fuel rest (rest.foldl (fun p other => if join one other then link fuel p one other else p) parent)

/-- `families`: the key of each tour that has a family. -/
def familyOf (R : Ranking) : Table String String :=
  let ordered := R.tours
  let fuel := ordered.length * ordered.length
  let parent := joinTours (fun a b => sharesEnough (R.segmentsOf a) (R.segmentsOf b)) fuel ordered id
  let grouped := groups Prod.fst ((findAll fuel parent ordered).zip ordered)
  let named := grouped.flatMap fun e =>
    let members := e.2.map Prod.snd
    if 1 < members.length then members.map fun tour => (tour, members.min?.getD tour) else []
  named.foldl (fun d e => d.upsert e.1 e.2) Table.empty

/-! ## Names -/

def journeyName (places : List String) : String :=
  match places.eraseDups.take 4 with
  | [] => "Untitled journey"
  | trimmed => " → ".intercalate trimmed

def Ranking.steps (R : Ranking) (tour : String) : List (Int ×ₗ String ×ₗ String) :=
  sortBy id ((R.rows.filter fun r => r.tourId = tour).map fun r => toLex (r.day, toLex (r.place, r.action)))

/-- The name of a family's journey: the longest Route of its first tour, else the places of that tour. -/
def familyName (R : Ranking) (routes : List Route) (key : String) : String :=
  let candidates := routes.filter fun r => r.tourId = key
  match (sortBy (fun r : Route => toLex (-(r.segmentIds.length : Int), r.routeId)) candidates).head? with
  | some route => journeyName route.places
  | none => journeyName ((R.steps key).map fun s => (ofLex (ofLex s).2).1)

structure Family where
  key : String
  tours : Finset String
  name : String
deriving DecidableEq

/-- The families that have a Route, in the order of their keys' first tours. -/
def familiesOf (R : Ranking) (routes : List Route) (families : Table String String) : List Family :=
  (groups Prod.snd families.rows).filterMap fun e =>
    let tours := (e.2.map Prod.fst).toFinset
    if routes.any fun r => r.tourId ∈ tours then some ⟨e.1, tours, familyName R routes e.1⟩ else none

structure Plan where
  routes : List Route
  familyOf : Table String String
  families : List Family

def plan (R : Ranking) : Plan :=
  let routes := deriveRoutes (R.rows.map RankedRow.moment)
  let families := familyOf R
  ⟨routes, families, familiesOf R routes families⟩

/-! ## The order of the rows -/

section order

variable {R R' : Ranking}

theorem tours_perm (h : R'.rows.Perm R.rows) : R'.tours = R.tours := by
  refine sortBy_congr id (h.map RankedRow.tourId).dedup ?_
  rw [map_id]
  exact nodup_dedup _

theorem segments_nodup (R : Ranking) (tour : String) :
    ((R.rows.filter fun r => r.tourId = tour).map RankedRow.segmentId).Nodup := by
  refine List.Nodup.map_on ?_ ((List.Nodup.of_map _ R.distinct).filter _)
  intro r hr r' hr' heq
  obtain ⟨hr, ht⟩ := mem_filter.1 hr
  obtain ⟨hr', ht'⟩ := mem_filter.1 hr'
  refine inj_on_of_nodup_map R.distinct hr hr' ?_
  rw [heq, of_decide_eq_true ht, of_decide_eq_true ht']

theorem heldBy_perm (h : R'.rows.Perm R.rows) (tour : String) :
    heldBy (R'.rows.map RankedRow.moment) tour = heldBy (R.rows.map RankedRow.moment) tour := by
  refine sortBy_congr_of_part _ (fun k => (ofLex k).2) ((h.map _).filter _) ?_
  rw [filter_map, map_map]
  exact segments_nodup R' tour

theorem deriveRoutes_perm (h : R'.rows.Perm R.rows) :
    deriveRoutes (R'.rows.map RankedRow.moment) = deriveRoutes (R.rows.map RankedRow.moment) := by
  have htours : sortBy id ((R'.rows.map RankedRow.moment).map Moment.tourId).dedup =
      sortBy id ((R.rows.map RankedRow.moment).map Moment.tourId).dedup := by
    rw [map_map, map_map]
    exact tours_perm h
  have hroutes : tourRoutes (R'.rows.map RankedRow.moment) = tourRoutes (R.rows.map RankedRow.moment) := by
    funext tour
    rw [tourRoutes, tourRoutes, heldBy_perm h]
  rw [deriveRoutes, deriveRoutes, htours, hroutes]

theorem segmentsOf_perm (h : R'.rows.Perm R.rows) (tour : String) : R'.segmentsOf tour = R.segmentsOf tour :=
  toFinset_eq_of_perm _ _ ((h.filter _).map _)

theorem steps_perm (h : R'.rows.Perm R.rows) (tour : String) : R'.steps tour = R.steps tour := by
  refine List.Perm.eq_of_pairwise ?_ (sortBy_pairwise id _) (sortBy_pairwise id _)
    ((sortBy_perm id _).trans (((h.filter _).map _).trans (sortBy_perm id _).symm))
  intro a b _ _ hab hba
  exact le_antisymm hab hba

theorem familyOf_perm (h : R'.rows.Perm R.rows) : familyOf R' = familyOf R := by
  have hsegments : R'.segmentsOf = R.segmentsOf := funext (segmentsOf_perm h)
  rw [familyOf, familyOf, tours_perm h, hsegments]

theorem familyName_perm (h : R'.rows.Perm R.rows) (routes : List Route) (key : String) :
    familyName R' routes key = familyName R routes key := by
  rw [familyName, familyName, steps_perm h]

theorem plan_perm (h : R'.rows.Perm R.rows) : plan R' = plan R := by
  have hname : familyName R' = familyName R := funext fun routes => funext (familyName_perm h routes)
  rw [plan, plan, deriveRoutes_perm h, familyOf_perm h, familiesOf, familiesOf, hname]

end order

/-! ## What a plan is made of -/

/-- The families are told apart by their keys, and are those of the tours that have a Route. -/
structure Plan.Sound (P : Plan) : Prop where
  keys : (P.families.map Family.key).Nodup
  tours : ∀ f ∈ P.families, ∀ t, t ∈ f.tours ↔ P.familyOf.get? t = some f.key
  routed : ∀ f ∈ P.families, ∃ r ∈ P.routes, r.tourId ∈ f.tours
  covers : ∀ r ∈ P.routes, ∀ k, P.familyOf.get? r.tourId = some k → ∃ f ∈ P.families, f.key = k

theorem mem_familiesOf {R : Ranking} {routes : List Route} {families : Table String String} {f : Family} :
    f ∈ familiesOf R routes families ↔
      ∃ e ∈ groups Prod.snd families.rows, (∃ r ∈ routes, r.tourId ∈ (e.2.map Prod.fst).toFinset) ∧
        f = ⟨e.1, (e.2.map Prod.fst).toFinset, familyName R routes e.1⟩ := by
  unfold familiesOf
  rw [mem_filterMap]
  constructor
  · rintro ⟨e, he, hf⟩
    dsimp only at hf
    split at hf
    · next hany =>
      obtain ⟨r, hr, hin⟩ := List.any_eq_true.1 hany
      exact ⟨e, he, ⟨r, hr, of_decide_eq_true hin⟩, (Option.some.inj hf).symm⟩
    · cases hf
  · rintro ⟨e, he, ⟨r, hr, hin⟩, rfl⟩
    refine ⟨e, he, ?_⟩
    rw [if_pos (List.any_eq_true.2 ⟨r, hr, decide_eq_true hin⟩)]

theorem mem_group_tours {families : Table String String} {e : String × List (String × String)}
    (he : e ∈ groups Prod.snd families.rows) (t : String) :
    t ∈ (e.2.map Prod.fst).toFinset ↔ families.get? t = some e.1 := by
  rw [Table.get?_eq_some_iff, mem_toFinset, mem_map, ((mem_groups Prod.snd _ e).1 he).2]
  constructor
  · rintro ⟨x, hx, rfl⟩
    obtain ⟨hx, hkey⟩ := mem_filter.1 hx
    rw [← of_decide_eq_true hkey]
    exact hx
  · intro hx
    exact ⟨(t, e.1), mem_filter.2 ⟨hx, decide_eq_true rfl⟩, rfl⟩

theorem plan_sound (R : Ranking) : (plan R).Sound := by
  refine ⟨?_, ?_, ?_, ?_⟩
  · -- the keys are those of the groups
    show ((familiesOf R (deriveRoutes (R.rows.map RankedRow.moment)) (familyOf R)).map Family.key).Nodup
    refine pairwise_map.2 (List.Pairwise.filterMap _ ?_ (pairwise_map.1 (groups_keys_nodup _ _)))
    intro e e' hne f hf f' hf'
    dsimp only at hf hf'
    split at hf
    · split at hf'
      · obtain rfl := Option.some.inj hf
        obtain rfl := Option.some.inj hf'
        exact hne
      · cases hf'
    · cases hf
  · intro f hf t
    obtain ⟨e, he, -, rfl⟩ := mem_familiesOf.1 hf
    exact mem_group_tours he t
  · intro f hf
    obtain ⟨e, -, hr, rfl⟩ := mem_familiesOf.1 hf
    exact hr
  · intro r hr k hk
    have hmem := (Table.get?_eq_some_iff _ _ _).1 hk
    obtain ⟨e, he, hek⟩ : ∃ e ∈ groups Prod.snd (familyOf R).rows, e.1 = k :=
      ⟨(k, (familyOf R).rows.filter fun x => x.2 = k), (mem_groups _ _ _).2 ⟨⟨_, hmem, rfl⟩, rfl⟩, rfl⟩
    subst hek
    exact ⟨_, mem_familiesOf.2 ⟨e, he, ⟨r, hr, (mem_group_tours he _).2 hk⟩, rfl⟩, rfl⟩

end CisApp.Routes
