import CisApp.Places.PairRules
import CisApp.Places.PlanOrder

/-!
# What the prefilter of the dedupe plan leaves out

`candidate_pairs` leaves a pair out before it is decided.  A pair of points that
is left out is farther apart than the reach, and the radius of a pair is at most
its reach (`radiusKm_le_reach`); but the rules compare the distance rounded to
two decimals.  A pair of drawn lines is left out when the boxes are more than a
hundredth of a degree apart, while the rules merge lines by their object on the
map and by what lies within one kilometre.

* `missed_iff`: a pair that is left out and would not be kept apart is a line
  pair with evidence (`LineMissed`) or a loose pair just beyond a radius equal to
  its reach (`RoundedIn`).
* `prefilter_complete_iff`: the plan loses no pair and no edge exactly when there
  is no such pair.
-/

namespace CisApp.Places

open Lib List

/-! ## Radius and reach -/

def Halves (x : Rat) : Prop := (x * 2).den = 1

theorem Halves.max {x y : Rat} (hx : Halves x) (hy : Halves y) : Halves (max x y) := by
  rcases max_choice x y with h | h
  · rwa [h]
  · rwa [h]

theorem halves_kindRadius (k : String) : Halves (kindRadius k) := by
  have htable : ∀ e ∈ radiusTable, Halves e.2 := by
    unfold Halves
    decide +kernel
  unfold kindRadius
  cases hk : radiusTable.lookup k with
  | none =>
    unfold Halves
    decide +kernel
  | some v =>
    obtain ⟨l₁, l₂, heq, -⟩ := lookup_eq_some_iff.1 hk
    exact htable (k, v) (by rw [heq]; simp)

theorem halves_fold {x : Rat} (hx : Halves x) (ks : Finset String) : Halves (ks.fold max x kindRadius) := by
  induction ks using Finset.induction_on with
  | empty => simpa using hx
  | insert k ks hk ih =>
    rw [Finset.fold_insert hk]
    exact (halves_kindRadius k).max ih

namespace Measures

variable (M : Measures) {a b r : Row}

theorem ten_le_reachKm (r : Row) : 10 ≤ M.reachKm r := by
  have hbase : (5 : Rat) ≤ (M.kinds r).fold max 5 kindRadius := (Finset.le_fold_max _).2 (Or.inl le_rfl)
  unfold reachKm
  split
  · have := le_max_left ((M.kinds r).fold max 5 kindRadius) linearRadiusKm
    linarith
  · linarith

theorem kindRadius_le_reachKm {k : String} (hk : k ∈ M.kinds r) : kindRadius k * 2 ≤ M.reachKm r := by
  have hbase : kindRadius k ≤ (M.kinds r).fold max 5 kindRadius := (Finset.le_fold_max _).2 (Or.inr ⟨k, hk, le_rfl⟩)
  unfold reachKm
  split
  · have := le_max_left ((M.kinds r).fold max 5 kindRadius) linearRadiusKm
    linarith
  · linarith

theorem linearRadiusKm_le_reachKm (h : M.geometry r = .linear) : linearRadiusKm * 2 ≤ M.reachKm r := by
  unfold reachKm
  dsimp only
  rw [if_pos h]
  have := le_max_right ((M.kinds r).fold max 5 kindRadius) linearRadiusKm
  linarith

theorem reachKm_den (r : Row) : (M.reachKm r).den = 1 := by
  have hbase : Halves ((M.kinds r).fold max 5 kindRadius) := halves_fold (by unfold Halves; decide +kernel) _
  unfold reachKm
  split
  · exact hbase.max (by unfold Halves linearRadiusKm; decide +kernel)
  · exact hbase

def pairReach (a b : Row) : Rat := max (M.reachKm a) (M.reachKm b)

theorem pairReach_den (a b : Row) : (M.pairReach a b).den = 1 := by
  unfold pairReach
  rcases max_choice (M.reachKm a) (M.reachKm b) with h | h
  · rw [h]
    exact M.reachKm_den a
  · rw [h]
    exact M.reachKm_den b

theorem kindRadius_le_pairReach {k : String} (hk : k ∈ M.kinds a ∪ M.kinds b) : kindRadius k * 2 ≤ M.pairReach a b := by
  rcases Finset.mem_union.1 hk with hk | hk
  · exact (M.kindRadius_le_reachKm hk).trans (le_max_left _ _)
  · exact (M.kindRadius_le_reachKm hk).trans (le_max_right _ _)

theorem linearRadiusKm_le_pairReach (h : M.geometry a = .linear ∨ M.geometry b = .linear) :
    linearRadiusKm * 2 ≤ M.pairReach a b := by
  rcases h with h | h
  · exact (M.linearRadiusKm_le_reachKm h).trans (le_max_left _ _)
  · exact (M.linearRadiusKm_le_reachKm h).trans (le_max_right _ _)

theorem ten_le_pairReach (a b : Row) : 10 ≤ M.pairReach a b := (M.ten_le_reachKm a).trans (le_max_left _ _)

theorem radiusKm_le_reach (a b : Row) (krel : KindRel) :
    M.radiusKm a b krel * (if M.loose a || M.loose b then 1 else 2) ≤ M.pairReach a b := by
  have hten := M.ten_le_pairReach a b
  have hkind : (if M.kinds a ∪ M.kinds b = ∅ then
      (if M.settlement a = some .hard ∨ M.settlement b = some .hard then 5 else 2)
      else (M.kinds a ∪ M.kinds b).fold max 0 kindRadius : Rat) * 2 ≤ M.pairReach a b := by
    split
    · split <;> linarith
    · have hfold : (M.kinds a ∪ M.kinds b).fold max 0 kindRadius ≤ M.pairReach a b / 2 := by
        refine (Finset.fold_max_le _).2 ⟨by linarith, ?_⟩
        intro k hk
        have := M.kindRadius_le_pairReach hk
        linarith
      linarith
  unfold radiusKm
  dsimp only
  generalize (if M.kinds a ∪ M.kinds b = ∅ then
      (if M.settlement a = some .hard ∨ M.settlement b = some .hard then 5 else 2)
      else (M.kinds a ∪ M.kinds b).fold max 0 kindRadius : Rat) = kind at hkind ⊢
  have hline : (if M.geometry a = .linear ∨ M.geometry b = .linear then max kind linearRadiusKm else kind) * 2 ≤
      M.pairReach a b := by
    split
    next hlin =>
      have := M.linearRadiusKm_le_pairReach hlin
      rcases max_choice kind linearRadiusKm with h | h <;> rw [h] <;> linarith
    next => exact hkind
  generalize (if M.geometry a = .linear ∨ M.geometry b = .linear then max kind linearRadiusKm else kind) = line
    at hline ⊢
  have hbuilt : (if krel = .bareVsBuilt then
      max line (if M.settlement a = some .soft ∨ M.settlement b = some .soft then 2 else 1) else line) * 2 ≤
      M.pairReach a b := by
    split
    · rcases max_choice line (if M.settlement a = some .soft ∨ M.settlement b = some .soft then 2 else 1) with h | h
      · rw [h]
        exact hline
      · rw [h]
        split <;> linarith
    · exact hline
  generalize (if krel = .bareVsBuilt then
      max line (if M.settlement a = some .soft ∨ M.settlement b = some .soft then 2 else 1) else line) = built
    at hbuilt ⊢
  split <;> linarith

/-! ## What is left out -/

/-- Two drawn lines are one place by the rules, or go to the model. -/
def LineEvidence (a b : Row) (sa sb : Shape) : Prop :=
  (M.sameLinePlace a b sa sb).1 = true ∨
    (¬((M.sameLinePlace a b sa sb).2 = .country ∨ (M.sameLinePlace a b sa sb).2 = .kind ∨
      ((M.sameLinePlace a b sa sb).2 = .cls ∧ (ownClass sa).isSome ∧ (ownClass sb).isSome)) ∧
      (sharedOsm sa sb = true ∨ overlapLlm ≤ roundTo 3 (M.lineOverlap sa sb)))

/-- Two drawn lines with evidence whose boxes are too far apart. -/
def LineMissed (a b : Row) : Prop :=
  ∃ sa sb, drawnShapes a b = some (sa, sb) ∧ M.hardKeep a b = none ∧ M.LineEvidence a b sa sb ∧
    boxesOverlap (shapeBox sa) (shapeBox sb) = false

/-- A loose pair whose radius is its reach, farther apart than that by less than
the rounding takes away. -/
def RoundedIn (ctx : Ctx) (a b : Row) : Prop :=
  drawnShapes a b = none ∧ M.hardKeep a b = none ∧ (M.loose a || M.loose b) = true ∧
    M.pairReach a b < M.km (a.lat, a.lng) (b.lat, b.lng) ∧ M.roundedKm a b = M.pairReach a b ∧
    ∃ krel ks, M.kindRelation a b = (krel, some ks) ∧ M.radiusKm a b krel = M.pairReach a b ∧
      (M.withinRadius ctx a b krel ks (M.pairReach a b) (M.pairReach a b)).decision ≠ .keep

theorem decideLines_ne_keep_iff (a b : Row) (sa sb : Shape) (d : Rat) :
    (M.decideLines a b sa sb d).decision ≠ .keep ↔ M.LineEvidence a b sa sb := by
  unfold decideLines LineEvidence
  cases hsame : M.sameLinePlace a b sa sb with
  | mk same why =>
    cases same with
    | true => simp
    | false =>
      simp only [Bool.false_eq_true, false_or]
      split
      next hdiff =>
        simp only [Bool.and_eq_true] at hdiff
        simp [keepHard, hdiff]
      next hdiff =>
        simp only [Bool.and_eq_true] at hdiff
        simp only [hdiff, not_false_eq_true, true_and]
        split
        next h => simp [h]
        next h => simp [h]

theorem geometry_of_drawn {a b : Row} {sa sb : Shape} (h : drawnShapes a b = some (sa, sb)) :
    M.geometry a = .linear ∧ M.geometry b = .linear := by
  unfold drawnShapes at h
  split at h
  next ha hb =>
    unfold geometry
    rw [if_pos (Or.inr (by rw [ha]; rfl)), if_pos (Or.inr (by rw [hb]; rfl))]
    exact ⟨rfl, rfl⟩
  next => cases h

theorem roundTo_mono (n : Nat) {x y : Rat} (h : x ≤ y) : roundTo n x ≤ roundTo n y := by
  have hpow : (0 : Rat) < 10 ^ n := by positivity
  refine div_le_div_of_nonneg_right ?_ hpow.le
  exact_mod_cast roundHalfEven_mono (mul_le_mul_of_nonneg_right h hpow.le)

theorem roundTo_of_den {n : Nat} {x : Rat} (h : x.den = 1) : roundTo n x = x := by
  have hpow : (10 : Rat) ^ n ≠ 0 := by positivity
  obtain ⟨m, rfl⟩ : ∃ m : ℤ, x = m := ⟨x.num, (Rat.den_eq_one_iff x).1 h |>.symm⟩
  have hint : (m : Rat) * 10 ^ n = ((m * 10 ^ n : ℤ) : Rat) := by push_cast; ring
  rw [roundTo, hint, roundHalfEven_intCast, ← hint, mul_div_cancel_right₀ _ hpow]

variable {ctx : Ctx}

theorem rule_keep {reason : String} (h : M.hardKeep a b = some reason) : (M.rule ctx a b).decision = .keep := by
  unfold rule
  split
  next => rfl
  next hnone => rw [h] at hnone; cases hnone

theorem rule_lines {sa sb : Shape} (h : M.hardKeep a b = none) (hs : drawnShapes a b = some (sa, sb)) :
    M.rule ctx a b = M.decideLines a b sa sb (M.roundedKm a b) := by
  unfold rule
  split
  next hsome => rw [h] at hsome; cases hsome
  next =>
    rw [hs]
    simp only [if_pos (M.geometry_of_drawn hs)]

theorem rule_points (h : M.hardKeep a b = none) (hs : drawnShapes a b = none) :
    M.rule ctx a b = M.decidePoints ctx a b := by
  unfold rule
  split
  next hsome => rw [h] at hsome; cases hsome
  next => rw [hs]

theorem decidePoints_ne_keep_iff : (M.decidePoints ctx a b).decision ≠ .keep ↔
    ∃ krel ks, M.kindRelation a b = (krel, some ks) ∧ M.roundedKm a b ≤ M.radiusKm a b krel ∧
      (M.withinRadius ctx a b krel ks (M.roundedKm a b) (M.radiusKm a b krel)).decision ≠ .keep := by
  unfold decidePoints
  dsimp only
  split
  next krel hrel => simp [keepHard, hrel]
  next krel ks hrel =>
    rw [hrel]
    constructor
    · intro h
      refine ⟨krel, ks, rfl, ?_⟩
      by_cases hfar : M.radiusKm a b krel < M.roundedKm a b
      · rw [if_pos hfar] at h
        exact absurd rfl h
      · rw [if_neg hfar] at h
        exact ⟨not_lt.1 hfar, h⟩
    · rintro ⟨krel', ks', heq, hle, h⟩
      cases heq
      rw [if_neg (not_lt.2 hle)]
      exact h

theorem near_points_iff (hs : drawnShapes a b = none) :
    M.near a b = false ↔ M.pairReach a b < M.km (a.lat, a.lng) (b.lat, b.lng) := by
  have hlat := M.lat_le_km (a.lat, a.lng) (b.lat, b.lng)
  unfold near
  rw [hs]
  simp only [Bool.not_eq_false', Bool.or_eq_true, decide_eq_true_eq]
  constructor
  · rintro (h | h)
    · exact lt_of_lt_of_le h hlat
    · exact h
  · exact Or.inr

theorem rounded_eq_reach {krel : KindRel} (hle : M.roundedKm a b ≤ M.radiusKm a b krel)
    (hfar : M.pairReach a b < M.km (a.lat, a.lng) (b.lat, b.lng)) :
    (M.loose a || M.loose b) = true ∧ M.roundedKm a b = M.pairReach a b ∧ M.radiusKm a b krel = M.pairReach a b := by
  have hround : M.pairReach a b ≤ M.roundedKm a b := by
    rw [← roundTo_of_den (n := 2) (M.pairReach_den a b)]
    exact roundTo_mono 2 hfar.le
  have hten := M.ten_le_pairReach a b
  have hradius := M.radiusKm_le_reach a b krel
  have hloose : (M.loose a || M.loose b) = true := by
    by_contra htight
    rw [if_neg htight] at hradius
    linarith
  rw [if_pos hloose, mul_one] at hradius
  exact ⟨hloose, le_antisymm (hle.trans hradius) hround, le_antisymm hradius (hround.trans hle)⟩

theorem missed_iff (ctx : Ctx) (a b : Row) :
    ((M.rule ctx a b).decision ≠ .keep ∧ M.near a b = false) ↔ M.LineMissed a b ∨ M.RoundedIn ctx a b := by
  cases hkeep : M.hardKeep a b with
  | some reason =>
    constructor
    · rintro ⟨h, -⟩
      exact absurd (M.rule_keep hkeep) h
    · rintro (⟨sa, sb, -, hnone, -⟩ | ⟨-, hnone, -⟩)
      · rw [hkeep] at hnone
        cases hnone
      · rw [hkeep] at hnone
        cases hnone
  | none =>
    cases hs : drawnShapes a b with
    | some shapes =>
      obtain ⟨sa, sb⟩ := shapes
      have hnear : M.near a b = boxesOverlap (shapeBox sa) (shapeBox sb) := by rw [near, hs]
      rw [M.rule_lines hkeep hs, M.decideLines_ne_keep_iff, hnear]
      constructor
      · rintro ⟨hev, hbox⟩
        exact Or.inl ⟨sa, sb, hs, hkeep, hev, hbox⟩
      · rintro (⟨sa', sb', hs', -, hev, hbox⟩ | ⟨hs', -⟩)
        · rw [hs] at hs'
          cases hs'
          exact ⟨hev, hbox⟩
        · rw [hs] at hs'
          cases hs'
    | none =>
      rw [M.rule_points hkeep hs, M.decidePoints_ne_keep_iff, M.near_points_iff hs]
      constructor
      · rintro ⟨⟨krel, ks, hrel, hle, hdec⟩, hfar⟩
        obtain ⟨hloose, hd, hr⟩ := M.rounded_eq_reach hle hfar
        rw [hd, hr] at hdec
        exact Or.inr ⟨hs, hkeep, hloose, hfar, hd, krel, ks, hrel, hr, hdec⟩
      · rintro (⟨sa, sb, hs', -⟩ | ⟨-, -, -, hfar, hd, krel, ks, hrel, hr, hdec⟩)
        · rw [hs] at hs'
          cases hs'
        · refine ⟨⟨krel, ks, hrel, ?_, ?_⟩, hfar⟩
          · rw [hd, hr]
          · rw [hd, hr]
            exact hdec

end Measures

/-! ## The plan -/

def allPairs (rows : List Row) : List (Row × Row) := pairsOf (sortBy (·.id) rows)

theorem groups_of_const {α κ : Type} [DecidableEq κ] {key : α → κ} {k : κ} {l : List α} (hne : l ≠ [])
    (h : ∀ a ∈ l, key a = k) : groups key l = [(k, l)] := by
  induction l using List.reverseRecOn with
  | nil => exact absurd rfl hne
  | append_singleton l a ih =>
    have ha : key a = k := h a (by simp)
    rw [groups_append]
    cases l with
    | nil => simp [groups, put, ha]
    | cons b l =>
      rw [ih (by simp) fun c hc => h c (mem_append_left _ hc)]
      simp [put, ha]

theorem candidatePairs_of_one {R : Rules} {rows : List Row}
    (h : ∀ r ∈ rows, ∀ r' ∈ rows, R.normCountry r.country = R.normCountry r'.country) :
    candidatePairs R rows = (allPairs rows).filter fun p => R.near p.1 p.2 := by
  cases rows with
  | nil => rfl
  | cons r rows =>
    rw [candidatePairs, groups_of_const (k := R.normCountry r.country) (by simp)
      fun r' hr' => h r' hr' r mem_cons_self]
    simp [allPairs]

theorem decide_of_mem_allPairs {R : Rules} {ctx : Ctx} {rows : List Row} (hd : (rows.map (·.id)).Nodup)
    {p : Row × Row} (hp : p ∈ allPairs rows) : R.decide ctx p.1 p.2 = R.rule ctx p.1 p.2 := by
  have hlt : p.1.id < p.2.id := pairsOf_of_pairwise (sortBy_strict (fun r : Row => r.id) hd) p hp
  unfold Rules.decide
  simp only [if_neg (not_lt.2 hlt.le), if_neg hlt.ne]

theorem ne_keep_of_edge (R : Rules) (I : Input) {x y : Row} (h : (edge R I x y).isSome = true) :
    (R.decide (I.context R) x y).decision ≠ .keep := by
  intro hkeep
  have hnone : edge R I x y = none := by
    show edgeBy I x y (R.decide (I.context R) x y) = none
    rw [edgeBy, hkeep]
  rw [hnone] at h
  cases h

/-- **The prefilter of a country loses nothing** (every pair that is merged or goes to the model is a candidate, and the
candidates have the edges of all pairs) exactly when no two drawn lines with evidence have their boxes apart, and no
loose pair is rounded into its reach. -/
theorem prefilter_complete_iff (M : Measures) (I : Input)
    (hone : ∀ r ∈ I.rows, ∀ r' ∈ I.rows, M.normCountry r.country = M.normCountry r'.country) :
    ((∀ p ∈ allPairs I.rows, (M.rules.decide (I.context M.rules) p.1 p.2).decision ≠ .keep →
        p ∈ candidatePairs M.rules I.rows) ∧
      edgePairs M.rules I (candidatePairs M.rules I.rows) = edgePairs M.rules I (allPairs I.rows)) ↔
    ∀ p ∈ allPairs I.rows, ¬M.LineMissed p.1 p.2 ∧ ¬M.RoundedIn (I.context M.rules) p.1 p.2 := by
  have hcand := candidatePairs_of_one (R := M.rules) hone
  have hrule : ∀ p ∈ allPairs I.rows,
      M.rules.decide (I.context M.rules) p.1 p.2 = M.rule (I.context M.rules) p.1 p.2 :=
    fun p hp => decide_of_mem_allPairs I.distinct hp
  have hnear : (∀ p ∈ allPairs I.rows, ¬M.LineMissed p.1 p.2 ∧ ¬M.RoundedIn (I.context M.rules) p.1 p.2) →
      ∀ p ∈ allPairs I.rows, (M.rules.decide (I.context M.rules) p.1 p.2).decision ≠ .keep →
        M.near p.1 p.2 = true := by
    intro h p hp hdec
    by_contra hfar
    rw [hrule p hp] at hdec
    exact not_or.2 (h p hp) ((M.missed_iff _ _ _).1 ⟨hdec, by simpa using hfar⟩)
  constructor
  · rintro ⟨hall, -⟩ p hp
    rw [← not_or, ← M.missed_iff]
    rintro ⟨hdec, hfar⟩
    have hmem := hall p hp (by rwa [hrule p hp])
    rw [hcand, mem_filter] at hmem
    exact absurd hmem.2 (by simp [Measures.rules, hfar])
  · intro h
    refine ⟨?_, ?_⟩
    · intro p hp hdec
      rw [hcand, mem_filter]
      exact ⟨hp, hnear h p hp hdec⟩
    · unfold edgePairs
      rw [hcand, filter_filter]
      congr 1
      refine filter_congr fun p hp => ?_
      cases hedge : (edge M.rules I p.1 p.2).isSome with
      | false => rfl
      | true =>
        rw [Bool.true_and]
        exact hnear h p hp (ne_keep_of_edge M.rules I hedge)

/-! Two stops named Sapa on one meridian, located by the model.  Their reach is ten kilometres. -/

/-- Distances along a meridian, and names of one word. -/
def meridian : Measures where
  normCountry := id
  parse r := ⟨[r.name], ∅, ∅, ∅, ∅, ∅⟩
  nameRelation p q _ := if p.core = q.core then (.exact, 1) else (.other, 0)
  featureKind _ _ := none
  namesArea _ := false
  km p q := |q.1 - p.1| * (11119492 / 100000)
  lat_le_km p q := mul_le_mul_of_nonneg_left (by norm_num) (abs_nonneg _)
  namesMatch _ _ := 0
  lineClass _ := none
  hasParts _ := false
  overlapShare _ _ := 0
  lineOverlap _ _ := 0
  polylineKm _ := 0
  features _ _ _ := ""
  digest _ := ""
  textG _ := ""
  text2 _ := ""

def sapa (id : String) (lat : Rat) : Row :=
  { id, name := "sapa", country := "vietnam", lat, lng := 104, locatedBy := some .llm, stop := true }

def sapaInput (lat : Rat) : Input where
  rows := [sapa "a" 22, sapa "b" lat]
  verdicts _ := none
  ctx := some ⟨∅, fun _ => none⟩
  rulesOnly := false
  merged _ := []
  distinct := by simp [sapa]
  determined := by
    intro x y hx hy hid
    simp only [List.mem_cons, List.not_mem_nil, or_false, exists_false] at hx hy
    rcases hx with rfl | rfl <;> rcases hy with rfl | rfl <;> simp [sapa] at hid ⊢

theorem sapa_one_km_found :
    edgePairs meridian.rules (sapaInput (2201 / 100)) (candidatePairs meridian.rules (sapaInput (2201 / 100)).rows) =
      edgePairs meridian.rules (sapaInput (2201 / 100)) (allPairs (sapaInput (2201 / 100)).rows) := by
  refine ((prefilter_complete_iff meridian (sapaInput (2201 / 100)) ?_).2 ?_).2
  · intro r hr r' hr'
    simp only [sapaInput, mem_cons, not_mem_nil, or_false] at hr hr'
    rcases hr with rfl | rfl <;> rcases hr' with rfl | rfl <;> rfl
  · intro p hp
    have hpair : allPairs (sapaInput (2201 / 100)).rows = [(sapa "a" 22, sapa "b" (2201 / 100))] := by decide +kernel
    rw [hpair, mem_singleton] at hp
    subst hp
    refine ⟨?_, ?_⟩
    · rintro ⟨sa, sb, hs, -⟩
      cases hs
    · rintro ⟨-, -, -, hfar, -⟩
      exact absurd hfar (by decide +kernel)

/-- A little more than ten kilometres: the pair would go to the model and is left out. -/
theorem sapa_rounded_in : ¬∀ p ∈ allPairs (sapaInput (2208994 / 100000)).rows,
    (meridian.rules.decide ((sapaInput (2208994 / 100000)).context meridian.rules) p.1 p.2).decision ≠ .keep →
      p ∈ candidatePairs meridian.rules (sapaInput (2208994 / 100000)).rows := by
  intro h
  have hpair : (sapa "a" 22, sapa "b" (2208994 / 100000)) ∈ allPairs (sapaInput (2208994 / 100000)).rows := by
    decide +kernel
  have hdec : (meridian.rules.decide ((sapaInput (2208994 / 100000)).context meridian.rules) (sapa "a" 22)
      (sapa "b" (2208994 / 100000))).decision = .llm := by
    decide +kernel
  have hmem := h _ hpair (by rw [hdec]; decide)
  have hnone : candidatePairs meridian.rules (sapaInput (2208994 / 100000)).rows = [] := by
    decide +kernel
  rw [hnone] at hmem
  cases hmem

end CisApp.Places
