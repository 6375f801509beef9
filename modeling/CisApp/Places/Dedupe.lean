import CisApp.Lib.Grouping
import CisApp.Lib.Memo
import CisApp.Lib.UnionFind

/-!
# The dedupe plan of a country's places

`services/places/dedupe.py`: `plan_country` decides which destinations of a
country are one place.  Pairs the rules or the two-model check call the same
are the edges of clusters (union-find); in each cluster the first row by
`keeper_key` is kept, and the members with an edge of their own to it are merged
into it, as many as fit together.

* `decide` is the decision of a pair, symmetric by its first line.  The steps
  behind it (names, kinds, distances, lines) are the parameter `Rules.rule`.
* `planCountry` is the function with its cache of decisions, in `PlanM`: every
  lookup stores what it computes, in the order the source asks.

A row of the catalog is known by its id, among the usable rows and the rows
already merged (`Input.determined`).
-/

namespace CisApp.Places

open Lib

/-! ## Rows and decisions -/

inductive Precision where
  | point
  | area
  | line
deriving Repr, DecidableEq

inductive LocatedBy where
  | manual
  | geoapify
  | llm
  | other
deriving Repr, DecidableEq

inductive Geometry where
  | point
  | linear
  | area
deriving Repr, DecidableEq

inductive ShapeStatus where
  | ok
  | manual
  | pending
  | approximate
  | failed
deriving Repr, DecidableEq

/-- `geo.place_shape`: a drawn line, its polylines as (lat, lng), the box (least and
largest lat and lng), and what the same-line rule reads of the map's feature. -/
structure Shape where
  status : ShapeStatus
  osmType : Option String := none
  osmId : Option Nat := none
  lines : List (List (Rat × Rat)) := []
  bbox : Option (Rat × Rat × Rat × Rat) := none
  lengthKm : Option Rat := none
  geomMid : Option String := none
  osmNames : List String := []
  lineClass : Option String := none
  kind : String := "line"
deriving Repr, DecidableEq

/-- Status `ok` or `manual` (`SHAPE_OK`), with lines. -/
def Shape.usable (s : Shape) : Bool :=
  (s.status = .ok || s.status = .manual) && !s.lines.isEmpty

/-- One destination. -/
structure Row where
  id : String
  name : String
  country : String
  lat : Rat
  lng : Rat
  nameNorm : Option String := none
  localityNorm : String := ""
  locatedBy : Option LocatedBy := none
  manualStatus : Bool := false
  precision : Option Precision := none
  resultType : Option String := none
  geocoderName : Option String := none
  placeId : Option String := none
  stop : Bool := false
  card : Option String := none
  cardName : Option String := none
  components : Nat := 0
  createdAt : String := ""
  shape : Option Shape := none
  mergedMembers : Nat := 0
deriving Repr, DecidableEq

/-- Fixed by an admin: `geo_status` or `located_by` is `manual`. -/
def Row.manual (r : Row) : Bool := r.manualStatus || r.locatedBy = some .manual

def Row.geoapify (r : Row) : Bool := r.locatedBy = some .geoapify

inductive Outcome where
  | autoMerge
  | llm
  | keep
deriving Repr, DecidableEq

/-- The decision of a pair; a hard keep always has a reason. -/
structure Decision where
  decision : Outcome
  score : Rat
  reason : String
  km : Option Rat := none
  basis : Option String := none
  hard : Bool := false
  caps : List String := []
  evidence : List String := []
  named : hard = true → reason ≠ ""

inductive Verdict where
  | same
  | different
  | unsure
deriving Repr, DecidableEq

/-- The tokens of the country's settlements, and the cosines of pairs. -/
structure Ctx where
  localities : Finset String
  embeddingCos : String × String → Option Rat

/-- What the plan reads of the pair rules and of the geometry, as the source
computes it. -/
structure Rules where
  /-- `(country or "").strip().lower()`. -/
  normCountry : String → String
  /-- The steps of `decide`, of two rows in the order of their ids. -/
  rule : Ctx → Row → Row → Decision
  /-- The test of `candidate_pairs`: drawn lines whose boxes overlap, or points in reach. -/
  near : Row → Row → Bool
  /-- `geomatch.feature_kind`. -/
  featureKind : String → Option String → Option Geometry
  /-- The name truly names the geocoder's area (`geocoder_name_matches`, no feature word). -/
  namesArea : Row → Bool
  /-- `_length` of a line's polylines. -/
  polylineKm : List (List (Rat × Rat)) → Rat
  hardCore : Row → Finset String
  features : Row → Row → Decision → String
  digest : List (String × String × String) → String

/-- Symmetric: the two rows in the order of their ids. -/
def Rules.decide (R : Rules) (ctx : Ctx) (a b : Row) : Decision :=
  let (a, b) := if b.id < a.id then (b, a) else (a, b)
  if a.id = b.id then
    { decision := .autoMerge, score := 1, reason := "same_row", km := some 0, basis := some "rule",
      named := by simp }
  else R.rule ctx a b

/-! ## Keepers -/

def coarseTypes : List String :=
  ["city", "suburb", "district", "county", "state", "postcode", "country"]

/-- `(result_type or "")`. -/
def Row.resultText (r : Row) : String := r.resultType.getD ""

def Row.geometry (R : Rules) (r : Row) : Geometry :=
  if r.precision = some .line ∨ r.shape.isSome then .linear
  else (R.featureKind r.name r.resultType).getD .point

/-- A geocoder's admin area that the row does not truly name. -/
def Row.geocodeFallback (R : Rules) (r : Row) : Bool :=
  if !r.geoapify || r.resultText ∉ coarseTypes then false
  else !(r.resultText ∈ ["city", "suburb", "district"] && R.namesArea r)

def drawsLine (r : Row) : Bool :=
  r.precision = some .line && (r.shape.map (·.usable)).getD false

def drawTier (r : Row) : Nat :=
  if drawsLine r then 0 else if r.precision = some .line then 1 else 2

/-- A merge never stops a line from being drawn: the reason it would, if any. -/
def hidesLine (keeper merged : Row) : Option String :=
  if merged.precision = some .line ∧ keeper.precision ≠ some .line then some "would_hide_line"
  else if drawsLine merged ∧ ¬ drawsLine keeper then some "would_hide_drawn_line"
  else none

/-- The length of a drawn shape: the stored one, unless it is missing or zero. -/
def shapeKm (R : Rules) (s : Shape) : Rat :=
  match s.lengthKm with
  | some l => if l = 0 then R.polylineKm s.lines else l
  | none => R.polylineKm s.lines

/-- Manual, drawn line, line row, existing keeper, longest line, Geoapify point or
settlement, card, components, age, id. -/
def keeperKey (R : Rules) (r : Row) :
    Bool ×ₗ Nat ×ₗ Bool ×ₗ Nat ×ₗ Rat ×ₗ Bool ×ₗ Bool ×ₗ Bool ×ₗ Int ×ₗ String ×ₗ String :=
  let shapeOk := (r.shape.map (·.usable)).getD false
  let lineTier := if shapeOk then 0 else if r.geometry R = .linear then 1 else 2
  let length := if shapeOk then -((r.shape.map (shapeKm R)).getD 0) else 0
  let located := r.geoapify && !r.geocodeFallback R
  let settlementOk := located && r.resultText ∈ ["city", "suburb", "district"]
  let confirmedPoi := located && r.resultText ∉ coarseTypes
  toLex (!r.manual, toLex (drawTier r, toLex (r.mergedMembers == 0, toLex (lineTier,
    toLex (length, toLex (!confirmedPoi, toLex (!settlementOk, toLex (r.card.isNone,
      toLex (-(r.components : Int),
        toLex (if r.createdAt = "" then "~" else r.createdAt, r.id))))))))))

/-! ## Pairs and clusters -/

/-- `itertools.combinations(l, 2)`. -/
def pairsOf {α : Type} : List α → List (α × α)
  | [] => []
  | a :: l => l.map (a, ·) ++ pairsOf l

/-- `itertools.combinations(l, n)`. -/
def combinations {α : Type} : Nat → List α → List (List α)
  | 0, _ => [[]]
  | _ + 1, [] => []
  | n + 1, a :: l => (combinations n l).map (a :: ·) ++ combinations (n + 1) l

/-- Pairs of one country that may be the same place, in the order of their ids. -/
def candidatePairs (R : Rules) (rows : List Row) : List (Row × Row) :=
  (groups (fun r => R.normCountry r.country) rows).flatMap fun e =>
    (pairsOf (sortBy (·.id) e.2)).filter fun p => R.near p.1 p.2

def pairKey (a b : String) : String × String := if a ≤ b then (a, b) else (b, a)

/-- The arguments of `plan_country`: the usable rows with their distinct ids, the
verdicts, the context, and the rows already merged into each keeper.  An id is the
id of one row. -/
structure Input where
  rows : List Row
  verdicts : String × String → Option Verdict
  ctx : Option Ctx
  rulesOnly : Bool
  merged : String → List Row
  distinct : (rows.map (·.id)).Nodup
  determined : ∀ x y, (x ∈ rows ∨ ∃ k, x ∈ merged k) → (y ∈ rows ∨ ∃ k, y ∈ merged k) →
    x.id = y.id → x = y

/-- The context given, else the tokens of the rows' settlements. -/
def Input.context (I : Input) (R : Rules) : Ctx :=
  I.ctx.getD ⟨(I.rows.map R.hardCore).foldr (· ∪ ·) ∅, fun _ => none⟩

structure Merge where
  mergedId : String
  keeperId : String
  country : String
  decidedBy : String
  score : Rat
  reason : String
  features : String
  verdict : Option (String × String)
  flatten : List String
deriving Repr, DecidableEq

/-- A member cut from a cluster, with the clash (the two ids and the reason). -/
structure Conflict where
  keeperId : String
  destinationId : String
  clash : Option (String × String × String)
deriving Repr, DecidableEq

structure Plan where
  merges : List Merge := []
  llmNeeded : List (String × String × Rat) := []
  possible : List (String × String × Verdict) := []
  conflicts : List Conflict := []
  defects : List (String × String × String) := []
  skipped : List (String × String) := []

/-- `Plan.fingerprint`. -/
def Plan.fingerprint (R : Rules) (p : Plan) : String :=
  R.digest (sortBy (fun x => (toLex (x.1, toLex (x.2.1, x.2.2)) : String ×ₗ String ×ₗ String))
    (p.merges.map fun m => (m.mergedId, m.keeperId, m.decidedBy)))

/-! ## The plan with its cache -/

abbrev PlanM := StateM (List ((String × String) × Decision))

section

variable (R : Rules) (I : Input)

def decOf (x y : Row) : PlanM Decision := ask (pairKey x.id y.id) (R.decide (I.context R) x y)

/-- The edge a decision makes: its basis, `llm` for a confirmed pair. -/
def edgeBy (x y : Row) (dec : Decision) : Option String :=
  match dec.decision with
  | .autoMerge => some (if dec.basis.getD "" = "" then "rule" else dec.basis.getD "")
  | .llm =>
    if ¬ I.rulesOnly ∧ I.verdicts (pairKey x.id y.id) = some .same then some "llm" else none
  | .keep => none

def edgeM (x y : Row) : PlanM (Option String) := edgeBy I x y <$> decOf R I x y

def clashBy (dec : Decision) : Option String := if dec.hard then some dec.reason else none

def clashM (x y : Row) : PlanM (Option String) :=
  if I.verdicts (pairKey x.id y.id) = some .different then pure (some "verdict_different")
  else clashBy <$> decOf R I x y

/-- The variables of the loop over the candidate pairs. -/
structure Scan where
  parent : String → String := id
  llmNeeded : List (String × String × Rat) := []
  possible : List (String × String × Verdict) := []
  defects : List (String × String × String) := []

/-- What one candidate pair adds, with its decision and its edge. -/
def Scan.note (fuel : Nat) (s : Scan) (p : Row × Row) (dec : Decision) (edge : Option String) : Scan :=
  let key := pairKey p.1.id p.2.id
  let asks := dec.decision = .llm ∧ ¬ I.rulesOnly
  { parent := if edge.isSome then union fuel s.parent key.1 key.2 else s.parent
    llmNeeded :=
      if asks ∧ I.verdicts key = none then s.llmNeeded ++ [(key.1, key.2, dec.score)]
      else s.llmNeeded
    possible :=
      match I.verdicts key with
      | some v => if asks ∧ v ≠ .same then s.possible ++ [(key.1, key.2, v)] else s.possible
      | none => s.possible
    defects :=
      if dec.hard ∧ "/geocode_defect".toList.isSuffixOf dec.reason.toList then
        s.defects ++ [(key.1, key.2, dec.reason)]
      else s.defects }

def scanM (fuel : Nat) (pairs : List (Row × Row)) : PlanM Scan :=
  pairs.foldlM (fun s p => do
    let dec ← decOf R I p.1 p.2
    let edge ← edgeM R I p.1 p.2
    return s.note I fuel p dec edge) {}

def bundle (m : Row) : List Row := m :: I.merged m.id

def across (x y : Row) : List (Row × Row) := (bundle I x).product (bundle I y)

/-- The first clash of the pairs, with the two ids. -/
def firstClashM (pairs : List (Row × Row)) : PlanM (Option (String × String × String)) :=
  pairs.findSomeM? fun p => (fun c => c.map (p.1.id, p.2.id, ·)) <$> clashM R I p.1 p.2

def bundlesClashM (x y : Row × String) : PlanM Bool :=
  (across I x.1 y.1).anyM fun p => Option.isSome <$> clashM R I p.1 p.2

def maxExactSubset : Nat := 12

def subsets {α : Type} (l : List α) : List (List α) :=
  (List.range l.length).reverse.flatMap fun n => combinations (n + 1) l

/-- `_largest_consistent`: exact up to `maxExactSubset` members, greedy beyond. -/
def largestConsistentM {α : Type} (cands : List α) (clash : α → α → PlanM Bool) : PlanM (List α) :=
  if cands.length ≤ maxExactSubset then
    (fun found => found.getD []) <$> (subsets cands).findSomeM? fun combo =>
      (fun fine => if fine then some combo else none) <$>
        (pairsOf combo).allM fun p => not <$> clash p.1 p.2
  else
    cands.foldlM (fun out c =>
      (fun fine => if fine then out ++ [c] else out) <$> out.allM fun o => not <$> clash c o) []

/-- The members with an edge of their own to the keeper; a manual one is noted. -/
def candsM (k : Row) (members : List Row) : PlanM (List (Row × String) × List (String × String)) :=
  members.foldlM (fun acc m =>
    (fun
      | none => acc
      | some basis =>
        if m.manual then (acc.1, acc.2 ++ [(m.id, k.id)]) else (acc.1 ++ [(m, basis)], acc.2))
    <$> edgeM R I k m) ([], [])

/-- Why a candidate is cut from its keeper, if it is. -/
def whyM (k m : Row) : PlanM (Option (String × String × String)) :=
  match hidesLine k m with
  | some hidden => pure (some (m.id, k.id, hidden))
  | none => firstClashM R I (across I m k)

abbrev Cut := Row × Option (String × String × String)

def checkM (k : Row) (cands : List (Row × String)) : PlanM (List (Row × String) × List Cut) :=
  cands.foldlM (fun acc c =>
    (fun why => if why.isSome then (acc.1, acc.2 ++ [(c.1, why)]) else (acc.1 ++ [c], acc.2))
    <$> whyM R I k c.1) ([], [])

def cutM (chosen left : List (Row × String)) (cut : List Cut) : PlanM (List Cut) :=
  left.foldlM (fun cut m =>
    (fun why => cut ++ [(m.1, why)])
    <$> firstClashM R I (chosen.flatMap fun c => across I m.1 c.1)) cut

def conflictOf (k : Row) (c : Cut) : Conflict := ⟨k.id, c.1.id, c.2⟩

def mergeOf (k m : Row) (basis : String) (dec : Decision) : Merge where
  mergedId := m.id
  keeperId := k.id
  country := m.country
  decidedBy := basis
  score := dec.score
  reason := dec.reason
  features := R.features k m dec
  verdict := if basis = "llm" then some (pairKey k.id m.id) else none
  flatten := sortBy id ((I.merged m.id).map (·.id))

def mergesM (k : Row) (chosen : List (Row × String)) : PlanM (List Merge) :=
  chosen.foldlM (fun out c =>
    (fun dec => out ++ [mergeOf R I k c.1 c.2 dec]) <$> decOf R I k c.1) []

/-- The members of `ok` that were not chosen. -/
def leftOut (ok chosen : List (Row × String)) : List (Row × String) :=
  ok.filter fun m => m.1.id ∉ chosen.map (·.1.id)

/-- One cluster. -/
def clusterM (g : List Row) : PlanM (List Merge × List Conflict × List (String × String)) :=
  match sortBy (keeperKey R) g with
  | [] => pure ([], [], [])
  | k :: rest =>
    if g.length < 2 then pure ([], [], [])
    else do
      let (cands, skipped) ← candsM R I k ((k :: rest).filter (·.id ≠ k.id))
      if cands = [] then return ([], [], skipped)
      let (ok, cut) ← checkM R I k cands
      let chosen ← largestConsistentM ok (bundlesClashM R I)
      let cut ← cutM R I chosen (leftOut ok chosen) cut
      let merges ← mergesM R I k chosen
      return (merges, cut.map (conflictOf k), skipped)

/-- The clusters: the rows by the root of their id. -/
def clusters (fuel : Nat) (parent : String → String) : List (List Row) :=
  let roots := findAll fuel parent (I.rows.map (·.id))
  (groups Prod.fst (roots.zip I.rows)).map fun e => e.2.map Prod.snd

def planM : PlanM Plan := do
  let pairs := candidatePairs R I.rows
  let scan ← scanM R I pairs.length pairs
  let (merges, conflicts, skipped) ← (clusters I pairs.length scan.parent).foldlM
    (fun acc g =>
      (fun out => (acc.1 ++ out.1, acc.2.1 ++ out.2.1, acc.2.2 ++ out.2.2)) <$> clusterM R I g)
    ([], [], [])
  return {
    merges := sortBy (fun m => (toLex (m.keeperId, m.mergedId) : String ×ₗ String)) merges
    llmNeeded := sortBy
      (fun x => (toLex (-x.2.2, toLex (x.1, x.2.1)) : Rat ×ₗ String ×ₗ String)) scan.llmNeeded
    possible := scan.possible
    conflicts := sortBy (fun c => (toLex (c.keeperId, c.destinationId) : String ×ₗ String)) conflicts
    defects := scan.defects
    skipped := skipped }

def planCountry : Plan := (planM R I).run' []

end

end CisApp.Places
