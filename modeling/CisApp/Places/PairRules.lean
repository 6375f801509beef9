import CisApp.Lib.Rounding
import CisApp.Places.Dedupe

/-!
# The pair rules of the dedupe plan

`services/places/dedupe.py`: `decide` with its steps, and the test by which
`candidate_pairs` leaves pairs out before they are decided.

* `rule` is the decision of two rows in the order of their ids: the hard keeps,
  then `decideLines` for two drawn lines, else `decidePoints`.
* `near` is the prefilter: the boxes of two drawn lines overlap, else the points
  are within the larger `reachKm`.

Words and names, distances and overlaps are a `Measures`.
-/

namespace CisApp.Places

open Lib

/-! ## Names and kinds -/

/-- What `parse` reads in a name.  `wordKinds` are the kinds of its words in
`geomatch.KIND_OF_WORD`. -/
structure Parsed where
  core : List String
  kinds : Finset String
  hardKinds : Finset String
  qualifiers : Finset String
  numbers : Finset String
  wordKinds : Finset String

inductive NameRel where
  | exact
  | fuzzy
  | containLocality
  | containExtra
  | fuzzyLow
  | kindOnly
  | other
deriving Repr, DecidableEq

def NameRel.text : NameRel → String
  | .exact => "exact"
  | .fuzzy => "fuzzy"
  | .containLocality => "contain_locality"
  | .containExtra => "contain_extra"
  | .fuzzyLow => "fuzzy_low"
  | .kindOnly => "kind_only"
  | .other => "other"

inductive KindRel where
  | townVsLandmark
  | bothBare
  | sameKind
  | softKindDiff
  | bareNatural
  | bareResolvedPoi
  | bareVsBuilt
  | heritageMuseum
  | differentKinds
deriving Repr, DecidableEq

def KindRel.text : KindRel → String
  | .townVsLandmark => "town_vs_landmark"
  | .bothBare => "both_bare"
  | .sameKind => "same_kind"
  | .softKindDiff => "soft_kind_diff"
  | .bareNatural => "bare_natural"
  | .bareResolvedPoi => "bare_resolved_poi"
  | .bareVsBuilt => "bare_vs_built"
  | .heritageMuseum => "heritage_museum"
  | .differentKinds => "different_kinds"

inductive Settlement where
  | hard
  | soft
deriving Repr, DecidableEq

def settlementKinds : Finset String := {"town", "village"}

def naturalBare : Finset String :=
  {"waterfall", "cave", "mountain", "lake", "river", "island", "village", "valley", "pass", "beach", "bay", "park",
    "town"}

def heritage : Finset String := {"palace", "fort", "temple", "monument"}

/-- `geomatch.LINEAR_SUBTYPES` -/
def linearSubtypes : Finset String := {"river", "road", "trail", "rail", "canal"}

def weak : List String := ["royal", "national", "central", "imperial", "golden", "sacred", "holy", "main"]

def linearRadiusKm : Rat := 50

def poiRadiusKm : Rat := 1 / 2

/-- `RADIUS_KM` -/
def radiusTable : List (String × Rat) :=
  [("waterfall", 2), ("cave", 2), ("pass", 3), ("beach", 2), ("mountain", 3), ("island", 3), ("village", 3),
    ("town", 5), ("old_town", 3 / 2), ("lake", 15), ("bay", 15), ("valley", 10), ("park", 10), ("national_park", 25),
    ("reserve", 25), ("delta", 50), ("plateau", 25), ("gorge", 10), ("coast", 50), ("archipelago", 50),
    ("glacier", 5), ("reef", 5), ("estuary", 10), ("spring", 1), ("range", 25), ("river", linearRadiusKm),
    ("road", linearRadiusKm), ("trail", linearRadiusKm), ("rail", linearRadiusKm), ("canal", linearRadiusKm)]

def kindRadius (k : String) : Rat := (radiusTable.lookup k).getD poiRadiusKm

def bareFarKm : Rat := 2
def embedKm : Rat := 1
def embedCos : Rat := 4 / 5
def high : Rat := 4 / 5
def low : Rat := 3 / 10
def overlapLlm : Rat := 3 / 10
def overlapShareMin : Rat := 7 / 10
def lineDupNameSim : Rat := 999 / 1000

/-- `round(x, n)` -/
def roundTo (n : Nat) (x : Rat) : Rat := roundHalfEven (x * 10 ^ n) / 10 ^ n

/-- Names, distances and lines as the source measures them.  A degree of latitude
is more than 111 km on the sphere of `km`. -/
structure Measures where
  /-- `(country or "").strip().lower()` -/
  normCountry : String → String
  /-- `row.p` -/
  parse : Row → Parsed
  nameRelation : Parsed → Parsed → Finset String → NameRel × Rat
  /-- `geomatch.feature_kind` -/
  featureKind : String → Option String → Option Geometry
  namesArea : Row → Bool
  /-- `km` of two points, as (lat, lng). -/
  km : Rat × Rat → Rat × Rat → Rat
  lat_le_km : ∀ p q, |q.1 - p.1| * 111 ≤ km p q
  /-- `shape.names_match` -/
  namesMatch : String → List String → Rat
  /-- `geomatch.line_class` -/
  lineClass : String → Option String
  /-- `parts_from_geojson` of the middle geometry is not empty. -/
  hasParts : Shape → Bool
  /-- `overlap_share` of the middle geometries. -/
  overlapShare : Shape → Shape → Rat
  lineOverlap : Shape → Shape → Rat
  polylineKm : List (List (Rat × Rat)) → Rat
  features : Row → Row → Decision → String
  digest : List (String × String × String) → String
  /-- The formats `:g` and `:.2f`. -/
  textG : Rat → String
  text2 : Rat → String

namespace Measures

variable (M : Measures)

/-! ## What a row is -/

def geometry (r : Row) : Geometry :=
  if r.precision = some .line ∨ r.shape.isSome then .linear else (M.featureKind r.name r.resultType).getD .point

def kinds (r : Row) : Finset String := (M.parse r).kinds

def geocodeFallback (r : Row) : Bool :=
  if !r.geoapify || r.resultText ∉ coarseTypes then false
  else !(r.resultText ∈ ["city", "suburb", "district"] && M.namesArea r)

def settlement (r : Row) : Option Settlement :=
  if r.stop ∨ "town" ∈ (M.parse r).hardKinds then some .hard
  else if r.geoapify && !M.geocodeFallback r then
    if r.resultText = "city" then some .hard
    else if r.resultText ∈ ["suburb", "district"] then some .soft
    else none
  else none

def loose (r : Row) : Bool := r.locatedBy = some .llm || r.precision = some .area || M.geocodeFallback r

def poiPoint (r : Row) : Bool :=
  r.geoapify && r.resultText ∈ ["amenity", "building"] && r.precision = some .point && !M.geocodeFallback r

def idObject (r : Row) : Bool :=
  r.placeId.any (· ≠ "") && r.geoapify && r.resultText ∈ ["amenity", "building", "unknown"] && !M.geocodeFallback r

def linearKind (r : Row) : Bool := M.kinds r ∩ linearSubtypes ≠ ∅ || M.geometry r = .linear

/-- `subtype`: the one linear kind of the name, `mixed` for several. -/
def subtype (r : Row) : Option String :=
  let sub := (M.kinds r ∪ (M.parse r).wordKinds) ∩ linearSubtypes
  if sub.card = 1 then (["river", "road", "trail", "rail", "canal"].find? (· ∈ sub))
  else if sub = ∅ then none
  else some "mixed"

def landmark (r : Row) : Bool := M.kinds r \ settlementKinds ≠ ∅ || (M.kinds r = ∅ && M.poiPoint r)

/-! ## Relations of two rows -/

/-- One direction of the first loop of `kind_relation`. -/
def townAndLandmark (s o : Row) : Bool :=
  M.settlement s = some .hard && M.settlement o ≠ some .hard && M.landmark o

/-- One direction of the second loop: a bare name and another. -/
def bareRelation (bare other : Row) : KindRel × Option Rat :=
  let k := M.kinds other
  if M.settlement bare = some .hard then
    if k ⊆ settlementKinds then (.sameKind, some 1) else (.townVsLandmark, none)
  else if k ⊆ naturalBare then (.bareNatural, some (9 / 10))
  else if M.poiPoint bare then (.bareResolvedPoi, some (17 / 20))
  else (.bareVsBuilt, some (1 / 2))

/-- `kind_relation`; no score is a hard keep. -/
def kindRelation (a b : Row) : KindRel × Option Rat :=
  let ka := M.kinds a
  let kb := M.kinds b
  let ha := (M.parse a).hardKinds
  if M.townAndLandmark a b || M.townAndLandmark b a then (.townVsLandmark, none)
  else if ka = ∅ ∧ kb = ∅ then (.bothBare, some 1)
  else if ka = kb then (.sameKind, some 1)
  else if ha = (M.parse b).hardKinds ∧ ha ≠ ∅ then (.softKindDiff, some (3 / 5))
  else if ka = ∅ then M.bareRelation a b
  else if kb = ∅ then M.bareRelation b a
  else if (kb \ ka = {"museum"} ∧ ka ⊆ heritage) ∨ (ka \ kb = {"museum"} ∧ kb ⊆ heritage) then
    (.heritageMuseum, some (4 / 5))
  else (.differentKinds, none)

def radiusKm (a b : Row) (krel : KindRel) : Rat :=
  let ks := M.kinds a ∪ M.kinds b
  let kind :=
    if ks = ∅ then (if M.settlement a = some .hard ∨ M.settlement b = some .hard then 5 else 2)
    else ks.fold max 0 kindRadius
  let line := if M.geometry a = .linear ∨ M.geometry b = .linear then max kind linearRadiusKm else kind
  let built :=
    if krel = .bareVsBuilt then
      max line (if M.settlement a = some .soft ∨ M.settlement b = some .soft then 2 else 1)
    else line
  built * (if M.loose a || M.loose b then 2 else 1)

def reachKm (r : Row) : Rat :=
  let base := (M.kinds r).fold max 5 kindRadius
  (if M.geometry r = .linear then max base linearRadiusKm else base) * 2

/-! ## The decision -/

/-- `_keep` -/
def keepHard (reason : String) (d : Rat) (named : reason ≠ "") : Decision :=
  { decision := .keep, score := 0, reason, km := some d, hard := true, named := fun _ => named }

def hardKeep (a b : Row) : Option String :=
  if M.normCountry a.country ≠ M.normCountry b.country then some "other_country"
  else if (M.parse a).numbers ≠ (M.parse b).numbers then some "number_differs"
  else if (M.parse a).qualifiers ≠ (M.parse b).qualifiers then some "qualifier_differs"
  else if a.localityNorm ≠ "" ∧ b.localityNorm ≠ "" ∧ a.localityNorm ≠ b.localityNorm then some "locality_differs"
  else if a.manual ∧ b.manual then some "both_manual"
  else if M.geometry a = .linear ∧ M.geometry b = .linear ∧
      (M.subtype a = some "mixed" ∨ M.subtype b = some "mixed" ∨
        ((M.subtype a).isSome ∧ (M.subtype b).isSome ∧ M.subtype a ≠ M.subtype b)) then
    some "linear_subtype_differs"
  else none

theorem hardKeep_named {a b : Row} {reason : String} (h : M.hardKeep a b = some reason) : reason ≠ "" := by
  unfold hardKeep at h
  split_ifs at h <;> (obtain rfl := Option.some.inj h; decide)

def capsOf (a b : Row) (krel : KindRel) (nrel : NameRel) (d : Rat) : List String :=
  let bare := if M.kinds a = ∅ then a else b
  let mismatch := M.geometry a ≠ M.geometry b
  let notDrawn := ¬mismatch ∧ M.geometry a = .linear
  (if nrel ∈ [.containExtra, .fuzzyLow, .kindOnly] then ["name:" ++ nrel.text] else []) ++
  (if krel ∈ [.bareVsBuilt, .softKindDiff, .heritageMuseum] then ["kind:" ++ krel.text] else []) ++
  (if krel = .bareNatural ∧ bareFarKm < d ∧ !M.poiPoint bare then ["bare_far"] else []) ++
  (if mismatch then ["geometry_mismatch"] else if notDrawn then ["shape_not_drawn"] else []) ++
  (if M.settlement a = some .soft ∨ M.settlement b = some .soft then ["soft_settlement"] else []) ++
  (if M.geocodeFallback a || M.geocodeFallback b then ["geocode_fallback"] else []) ++
  (if (M.linearKind a || M.linearKind b) ∧ ¬mismatch ∧ ¬notDrawn then ["linear_point_radius"] else [])

/-- The rules of two points within the radius `r`, `d` apart. -/
def withinRadius (ctx : Ctx) (a b : Row) (krel : KindRel) (ks d r : Rat) : Decision :=
  let sameObject := a.placeId.any (· ≠ "") && a.placeId = b.placeId
  let (nrel, ns₀) := M.nameRelation (M.parse a) (M.parse b) ctx.localities
  let caps := M.capsOf a b krel nrel d
  let sharedObj := sameObject && M.idObject a && M.idObject b
  let sharedCard := a.card.any (· ≠ "") && a.card = b.card
  let evidence := (if sharedObj then ["shared_object"] else []) ++ (if sharedCard then ["shared_card"] else [])
  let base := nrel.text ++ "/" ++ krel.text
  let identified := caps = [] ∧ nrel ∈ [.exact, .fuzzy]
  if identified ∧ sharedObj then
    { decision := .autoMerge, score := 1, reason := "same_provider_object/" ++ base, km := some d,
      basis := some "provider_id", evidence, named := by simp }
  else if identified ∧ sharedCard then
    { decision := .autoMerge, score := 1, reason := "same_place_card/" ++ base, km := some d,
      basis := some "place_card", evidence, named := by simp }
  else
    let bothWeak := (M.parse a).core.all (· ∈ weak) && (M.parse b).core.all (· ∈ weak)
    let ns := if bothWeak ∧ 3 / 10 < d then ns₀ * (17 / 20) else ns₀
    let ev : Rat :=
      if M.poiPoint a && M.poiPoint b && a.placeId.any (· ≠ "") && b.placeId.any (· ≠ "") && a.placeId ≠ b.placeId then
        -(3 / 20)
      else 0
    let score := roundTo 3 (ns * ks * (3 / 5 + 2 / 5 * (1 - d / r)) + ev)
    let reason := base ++ String.join (evidence.map ("/" ++ ·)) ++
      (if sameObject && !sharedObj then "/shared_coarse_id" else "") ++ String.join (caps.map ("/cap:" ++ ·))
    if high ≤ score ∧ caps = [] then
      { decision := .autoMerge, score, reason, km := some d, basis := some "rule", named := by simp }
    else if evidence ≠ [] then
      { decision := .llm, score, reason, km := some d, caps, evidence, named := by simp }
    else if low ≤ score ∧ 1 / 2 ≤ ns then
      { decision := .llm, score, reason, km := some d, caps, named := by simp }
    else
      match ctx.embeddingCos (a.id, b.id) with
      | some cos =>
        if embedCos ≤ cos ∧ d ≤ embedKm then
          { decision := .llm, score, reason := reason ++ "/embedding_" ++ M.text2 cos, km := some d, caps,
            evidence := ["embedding"], named := by simp }
        else { decision := .keep, score, reason, km := some d, caps, named := by simp }
      | none => { decision := .keep, score, reason, km := some d, caps, named := by simp }

/-- `round(km(a, b), 2)` -/
def roundedKm (a b : Row) : Rat := roundTo 2 (M.km (a.lat, a.lng) (b.lat, b.lng))

/-- The point rules of `decide`. -/
def decidePoints (ctx : Ctx) (a b : Row) : Decision :=
  let d := M.roundedKm a b
  let sameObject := a.placeId.any (· ≠ "") && a.placeId = b.placeId
  match M.kindRelation a b with
  | (krel, none) =>
    keepHard (krel.text ++ if sameObject then "/geocode_defect" else "") d
      (by cases krel <;> simp [KindRel.text])
  | (krel, some ks) =>
    let r := M.radiusKm a b krel
    if r < d then keepHard ("farther_than_" ++ M.textG r ++ "km") d (by simp)
    else M.withinRadius ctx a b krel ks d r

/-- The `why` of `same_line_place`. -/
inductive LineReason where
  | country
  | kind
  | cls
  | name
  | osmIdNames
  | osmId
  | overlap
  | noGeometryEvidence
  | noOverlap
deriving Repr, DecidableEq

def LineReason.text : LineReason → String
  | .country => "country"
  | .kind => "kind"
  | .cls => "class"
  | .name => "name"
  | .osmIdNames => "osm_id_names"
  | .osmId => "osm_id"
  | .overlap => "overlap"
  | .noGeometryEvidence => "no_geometry_evidence"
  | .noOverlap => "no_overlap"

def sharedOsm (sa sb : Shape) : Bool := sa.osmId.isSome && sa.osmId = sb.osmId && sa.osmType = sb.osmType

/-- `sh.kind or "line"` -/
def lineKind (s : Shape) : String := if s.kind = "" then "line" else s.kind

def ownClass (s : Shape) : Option String := s.lineClass.filter (· ≠ "")

/-- `shape.same_line_place` -/
def sameLinePlace (a b : Row) (sa sb : Shape) : Bool × LineReason :=
  let osmNames := sa.osmNames ++ sb.osmNames.filter (· ∉ sa.osmNames)
  if M.normCountry a.country ≠ M.normCountry b.country then (false, .country)
  else if lineKind sa ≠ lineKind sb then (false, .kind)
  else if (ownClass sa).or (M.lineClass a.name) ≠ (ownClass sb).or (M.lineClass b.name) then (false, .cls)
  else if M.namesMatch a.name [b.name] < lineDupNameSim then
    if sharedOsm sa sb ∧ osmNames ≠ [] ∧ lineDupNameSim ≤ M.namesMatch a.name osmNames ∧
        lineDupNameSim ≤ M.namesMatch b.name osmNames then (true, .osmIdNames)
    else (false, .name)
  else if sharedOsm sa sb then (true, .osmId)
  else if M.hasParts sa && M.hasParts sb then
    if overlapShareMin ≤ M.overlapShare sa sb then (true, .overlap) else (false, .noOverlap)
  else (false, .noGeometryEvidence)

def decideLines (a b : Row) (sa sb : Shape) (d : Rat) : Decision :=
  let evidence := if sharedOsm sa sb then ["shared_osm"] else []
  match M.sameLinePlace a b sa sb with
  | (true, why) =>
    { decision := .autoMerge, score := 1, reason := "same_line_place/" ++ why.text, km := some d,
      basis := some (if why = .osmId ∨ why = .osmIdNames then "osm_id" else "line_overlap"), evidence,
      named := by simp }
  | (false, why) =>
    let knownClass := (ownClass sa).isSome && (ownClass sb).isSome
    if why = .country ∨ why = .kind ∨ (why = .cls ∧ knownClass) then
      keepHard ("line_" ++ why.text ++ "_differs") d (by simp)
    else
      let (nrel, ns) := M.nameRelation (M.parse a) (M.parse b) ∅
      let ov := roundTo 3 (M.lineOverlap sa sb)
      let reason := "line_overlap_" ++ M.textG ov ++ "/" ++ nrel.text ++ "/" ++ why.text
      if sharedOsm sa sb ∨ overlapLlm ≤ ov then
        { decision := .llm, score := roundTo 3 (max ov (3 / 10) * max ns (1 / 2)), reason, km := some d, evidence,
          named := by simp }
      else { decision := .keep, score := roundTo 3 ov, reason, km := some d, named := by simp }

/-- The shapes of two rows that are both drawn. -/
def drawnShapes (a b : Row) : Option (Shape × Shape) :=
  match a.shape, b.shape with
  | some sa, some sb => if sa.usable && sb.usable then some (sa, sb) else none
  | _, _ => none

/-- The steps of `decide`, of two different rows in the order of their ids. -/
def rule (ctx : Ctx) (a b : Row) : Decision :=
  match h : M.hardKeep a b with
  | some reason => keepHard reason (M.roundedKm a b) (M.hardKeep_named h)
  | none =>
    match drawnShapes a b with
    | some (sa, sb) =>
      if M.geometry a = .linear ∧ M.geometry b = .linear then M.decideLines a b sa sb (M.roundedKm a b)
      else M.decidePoints ctx a b
    | none => M.decidePoints ctx a b

/-! ## The prefilter -/

/-- `_bbox`, as (least lat, least lng, largest lat, largest lng). -/
def boxOf (lines : List (List (Rat × Rat))) : Rat × Rat × Rat × Rat :=
  let lats := lines.flatten.map Prod.fst
  let lngs := lines.flatten.map Prod.snd
  (lats.min?.getD 0, lngs.min?.getD 0, lats.max?.getD 0, lngs.max?.getD 0)

def boxPad : Rat := 1 / 100

/-- `_bbox_overlap` -/
def boxesOverlap (ba bb : Rat × Rat × Rat × Rat) : Bool :=
  !(bb.2.2.1 < ba.1 - boxPad || ba.2.2.1 < bb.1 - boxPad || bb.2.2.2 < ba.2.1 - boxPad || ba.2.2.2 < bb.2.1 - boxPad)

def shapeBox (s : Shape) : Rat × Rat × Rat × Rat := s.bbox.getD (boxOf s.lines)

/-- The test of `candidate_pairs`. -/
def near (a b : Row) : Bool :=
  match drawnShapes a b with
  | some (sa, sb) => boxesOverlap (shapeBox sa) (shapeBox sb)
  | none =>
    let reach := max (M.reachKm a) (M.reachKm b)
    !(reach < |b.lat - a.lat| * 111 || reach < M.km (a.lat, a.lng) (b.lat, b.lng))

/-- The rules that the plan uses. -/
def rules : Rules where
  normCountry := M.normCountry
  rule := M.rule
  near := M.near
  featureKind := M.featureKind
  namesArea := M.namesArea
  polylineKm := M.polylineKm
  hardCore r := if M.settlement r = some .hard then (M.parse r).core.toFinset else ∅
  features := M.features
  digest := M.digest

end Measures

end CisApp.Places
