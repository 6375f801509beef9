import CisApp.Lib.Competition

/-!
# Rank-sum

`src/services/acp_contract/atom_ranking.py`, `rank_segments`: the Segments of the
platform are ranked for one market on demand, recurrence, questions and how much the
itineraries say, and the four ranks are added up, the lowest total first.  A Segment
whose demand was not measured takes the median rank of those that were.
-/

namespace CisApp.Rank

open Lib List

structure Candidate where
  segmentId : String
  tourIds : List String
  recurrence : Int
  questions : Int
  said : Int
  demand : Table String Int

structure RankedSegment where
  segmentId : String
  tourIds : List String
  demandRank : Nat
  recurrenceRank : Nat
  questionsRank : Nat
  saidRank : Nat
  totalRank : Nat
  demandMarket : String
  demandVolume : Option Int
  recurrence : Int
  questions : Int
  said : Int

/-! ## The source -/

def competitionRanks (candidates : List Candidate) (of : Candidate → Int) : Table String Nat :=
  competition Candidate.segmentId of candidates

def measured (market : String) (candidates : List Candidate) : List Candidate :=
  candidates.filter fun c => (c.demand.get? market).isSome

def volume (market : String) (c : Candidate) : Int := (c.demand.get? market).getD 0

def middle (ranks : Table String Nat) : Nat := (sortBy id (ranks.rows.map Prod.snd)).getD (ranks.rows.length / 2) 1

def demandRanks (candidates : List Candidate) (market : String) (id : String) : Nat :=
  if measured market candidates = [] then 1
  else
    let ranks := competitionRanks (measured market candidates) (volume market)
    (ranks.get? id).getD (middle ranks)

/-- The row of a candidate. -/
def rankedSegment (candidates : List Candidate) (market : String) (c : Candidate) : RankedSegment :=
  let recurrenceRank := ((competitionRanks candidates Candidate.recurrence).get? c.segmentId).getD 0
  let questionsRank := ((competitionRanks candidates Candidate.questions).get? c.segmentId).getD 0
  let saidRank := ((competitionRanks candidates Candidate.said).get? c.segmentId).getD 0
  let demandRank := demandRanks candidates market c.segmentId
  { segmentId := c.segmentId, tourIds := c.tourIds, demandRank, recurrenceRank, questionsRank, saidRank
    totalRank := demandRank + recurrenceRank + questionsRank + saidRank
    demandMarket := market, demandVolume := c.demand.get? market
    recurrence := c.recurrence, questions := c.questions, said := c.said }

def RankedSegment.order (r : RankedSegment) : Nat ×ₗ String := toLex (r.totalRank, r.segmentId)

def rankSegments (candidates : List Candidate) (market : String) : List RankedSegment :=
  sortBy RankedSegment.order (candidates.map (rankedSegment candidates market))

/-! ## Ranks -/

section ranks

variable {candidates : List Candidate} {market : String} (hids : (candidates.map Candidate.segmentId).Nodup)
include hids

theorem measured_ids (market : String) : ((measured market candidates).map Candidate.segmentId).Nodup :=
  hids.sublist (filter_sublist.map _)

variable {c : Candidate}

theorem axis_rank (of : Candidate → Int) (hc : c ∈ candidates) :
    ((competitionRanks candidates of).get? c.segmentId).getD 0 = standing of candidates (of c) := by
  rw [competitionRanks, get?_competition _ hids hc]
  rfl

theorem demandRanks_measured (hc : c ∈ candidates) {v : Int} (hv : c.demand.get? market = some v) :
    demandRanks candidates market c.segmentId = standing (volume market) (measured market candidates) v := by
  have hin : c ∈ measured market candidates := mem_filter.2 ⟨hc, by rw [hv]; rfl⟩
  have hvolume : volume market c = v := by
    unfold volume
    rw [hv]
    rfl
  unfold demandRanks
  rw [if_neg (ne_nil_of_mem hin)]
  dsimp only
  rw [competitionRanks, get?_competition _ (measured_ids hids market) hin, hvolume]
  rfl

theorem demandRanks_unmeasured (hc : c ∈ candidates) (hnone : c.demand.get? market = none)
    (hsome : measured market candidates ≠ []) : ∃ m ∈ measured market candidates,
      demandRanks candidates market c.segmentId = standing (volume market) (measured market candidates) (volume market m) := by
  have hmids := measured_ids hids market
  obtain ⟨ranks, hranks⟩ : ∃ ranks, ranks = competitionRanks (measured market candidates) (volume market) := ⟨_, rfl⟩
  have hget : ranks.get? c.segmentId = none := by
    rw [hranks]
    refine Option.not_isSome_iff_eq_none.1 fun h => ?_
    obtain ⟨b, hb, hid⟩ := mem_map.1 ((competition_isSome _ hmids _).1 h)
    obtain ⟨hb, hmeasured⟩ := mem_filter.1 hb
    rw [inj_on_of_nodup_map hids hb hc hid, hnone] at hmeasured
    cases hmeasured
  have hpos : 0 < ranks.rows.length := by
    obtain ⟨m, hm⟩ := exists_mem_of_ne_nil _ hsome
    have hm := (Table.get?_eq_some_iff _ _ _).1 (get?_competition (volume market) hmids hm)
    rw [hranks]
    exact length_pos_of_mem hm
  -- the median is one of the ranks
  have hmiddle : middle ranks ∈ ranks.rows.map Prod.snd := by
    have hlt : ranks.rows.length / 2 < (sortBy id (ranks.rows.map Prod.snd)).length := by
      rw [(sortBy_perm id _).length_eq, length_map]
      omega
    unfold middle
    rw [getD_eq_getElem _ _ hlt]
    exact (mem_sortBy id _ _).1 (getElem_mem hlt)
  obtain ⟨⟨k, n⟩, hin, hn⟩ := mem_map.1 hmiddle
  have hentry := (Table.get?_eq_some_iff _ _ _).2 hin
  rw [hranks] at hentry
  obtain ⟨m, hm, -, rfl⟩ := (mem_competition hmids).1 hentry
  refine ⟨m, hm, ?_⟩
  unfold demandRanks
  rw [if_neg hsome]
  dsimp only
  rw [← hranks, hget]
  exact hn.symm

theorem row_eq (hc : c ∈ candidates) {r : RankedSegment} (hr : r ∈ rankSegments candidates market)
    (hid : r.segmentId = c.segmentId) : r = rankedSegment candidates market c := by
  obtain ⟨b, hb, rfl⟩ := mem_map.1 ((mem_sortBy _ _ r).1 hr)
  rw [inj_on_of_nodup_map hids hb hc hid]

/-! ## The order of the candidates -/

variable {candidates' : List Candidate} (hperm : candidates'.Perm candidates)
include hperm

theorem competitionRanks_perm (of : Candidate → Int) (id : String) :
    (competitionRanks candidates' of).get? id = (competitionRanks candidates of).get? id := by
  have hids' := (hperm.map Candidate.segmentId).nodup_iff.2 hids
  apply Option.ext
  intro n
  rw [competitionRanks, competitionRanks, mem_competition hids, mem_competition hids']
  constructor
  · rintro ⟨a, ha, hid, rfl⟩
    exact ⟨a, hperm.mem_iff.1 ha, hid, standing_perm hperm _⟩
  · rintro ⟨a, ha, hid, rfl⟩
    exact ⟨a, hperm.mem_iff.2 ha, hid, (standing_perm hperm _).symm⟩

theorem demandRanks_perm (market id : String) : demandRanks candidates' market id = demandRanks candidates market id := by
  have hmeasured : (measured market candidates').Perm (measured market candidates) := hperm.filter _
  have hget := competitionRanks_perm (measured_ids hids market) hmeasured (volume market)
  have hmiddle : middle (competitionRanks (measured market candidates') (volume market)) =
      middle (competitionRanks (measured market candidates) (volume market)) := by
    have hrows := Table.rows_perm hget
    unfold middle
    rw [sortBy_id_congr (hrows.map Prod.snd), hrows.length_eq]
  unfold demandRanks
  dsimp only
  rw [hget, hmiddle]
  by_cases hnil : measured market candidates = []
  · rw [if_pos hnil, if_pos (perm_nil.1 (hnil ▸ hmeasured))]
  · rw [if_neg hnil, if_neg]
    intro h
    rw [h] at hmeasured
    exact hnil (nil_perm.1 hmeasured)

theorem rankSegments_perm (market : String) : rankSegments candidates' market = rankSegments candidates market := by
  have hrow : rankedSegment candidates' market = rankedSegment candidates market := by
    unfold rankedSegment
    simp only [competitionRanks_perm hids hperm, demandRanks_perm hids hperm]
  unfold rankSegments
  rw [hrow]
  refine sortBy_congr_of_part _ (fun o => (ofLex o).2) (hperm.map _) ?_
  rw [map_map]
  exact (hperm.map Candidate.segmentId).nodup_iff.2 hids

end ranks

/-- At least as good on every axis, demand measured for both. -/
structure Dominates (market : String) (a b : Candidate) : Prop where
  recurrence : b.recurrence ≤ a.recurrence
  questions : b.questions ≤ a.questions
  said : b.said ≤ a.said
  demand : ∃ v w, a.demand.get? market = some v ∧ b.demand.get? market = some w ∧ w ≤ v

def BetterOnOne (market : String) (a b : Candidate) : Prop :=
  b.recurrence < a.recurrence ∨ b.questions < a.questions ∨ b.said < a.said ∨ volume market b < volume market a

theorem volume_eq {market : String} {c : Candidate} {v : Int} (h : c.demand.get? market = some v) : volume market c = v := by
  unfold volume
  rw [h]
  rfl

theorem total_le {candidates : List Candidate} (hids : (candidates.map Candidate.segmentId).Nodup) {market : String}
    {a b : Candidate} (ha : a ∈ candidates) (hb : b ∈ candidates) (h : Dominates market a b) :
    (rankedSegment candidates market a).totalRank ≤ (rankedSegment candidates market b).totalRank ∧
      (BetterOnOne market a b →
        (rankedSegment candidates market a).totalRank < (rankedSegment candidates market b).totalRank) := by
  obtain ⟨v, w, hv, hw, hle⟩ := h.demand
  have hin : a ∈ measured market candidates := mem_filter.2 ⟨ha, by rw [hv]; rfl⟩
  have hrecurrence := standing_le Candidate.recurrence candidates h.recurrence
  have hquestions := standing_le Candidate.questions candidates h.questions
  have hsaid := standing_le Candidate.said candidates h.said
  have hdemand := standing_le (volume market) (measured market candidates) hle
  simp only [rankedSegment, axis_rank hids _ ha, axis_rank hids _ hb, demandRanks_measured hids ha hv,
    demandRanks_measured hids hb hw]
  refine ⟨by omega, fun hbetter => ?_⟩
  rcases hbetter with hlt | hlt | hlt | hlt
  · have := standing_lt Candidate.recurrence ha hlt
    omega
  · have := standing_lt Candidate.questions ha hlt
    omega
  · have := standing_lt Candidate.said ha hlt
    omega
  · have := standing_lt (volume market) hin hlt
    rw [volume_eq hv, volume_eq hw] at this
    omega

/-- For candidates with distinct ids: the ranking does not depend on their order; a rank counts the candidates that are
better on the axis, on demand those of them that were measured; who dominates has no larger total, and a smaller one where
it is better on one axis; and nobody without a measure ranks after the least demanded. -/
theorem rank_sum (candidates : List Candidate) (market : String) (hids : (candidates.map Candidate.segmentId).Nodup) :
    (∀ candidates' : List Candidate, candidates'.Perm candidates →
      rankSegments candidates' market = rankSegments candidates market) ∧
    ((rankSegments candidates market).map RankedSegment.segmentId).Perm (candidates.map Candidate.segmentId) ∧
    (∀ c ∈ candidates, ∀ r ∈ rankSegments candidates market, r.segmentId = c.segmentId →
      r.recurrenceRank = 1 + candidates.countP (fun b => c.recurrence < b.recurrence) ∧
      r.questionsRank = 1 + candidates.countP (fun b => c.questions < b.questions) ∧
      r.saidRank = 1 + candidates.countP (fun b => c.said < b.said) ∧ (∀ v, c.demand.get? market = some v →
        r.demandRank = 1 + candidates.countP fun b => (b.demand.get? market).any fun w => v < w) ∧
      r.totalRank = r.demandRank + r.recurrenceRank + r.questionsRank + r.saidRank) ∧
    (∀ a ∈ candidates, ∀ b ∈ candidates, ∀ r ∈ rankSegments candidates market, ∀ s ∈ rankSegments candidates market,
      r.segmentId = a.segmentId → s.segmentId = b.segmentId → Dominates market a b →
        r.totalRank ≤ s.totalRank ∧ (BetterOnOne market a b → r.totalRank < s.totalRank)) ∧
    (∀ a ∈ candidates, ∀ b ∈ candidates, ∀ r ∈ rankSegments candidates market, ∀ s ∈ rankSegments candidates market,
      r.segmentId = a.segmentId → s.segmentId = b.segmentId → a.demand.get? market = none →
        ∀ w, b.demand.get? market = some w →
          (∀ c ∈ candidates, ∀ u, c.demand.get? market = some u → w ≤ u) → r.demandRank ≤ s.demandRank) := by
  refine ⟨fun candidates' hperm => rankSegments_perm hids hperm market, ?_, ?_, ?_, ?_⟩
  · refine ((sortBy_perm _ _).map _).trans ?_
    rw [map_map]
    exact List.Perm.refl _
  · intro c hc r hr hid
    rw [row_eq hids hc hr hid]
    refine ⟨axis_rank hids _ hc, axis_rank hids _ hc, axis_rank hids _ hc, fun v hv => ?_, rfl⟩
    refine (demandRanks_measured hids hc hv).trans ?_
    unfold standing measured
    rw [countP_filter]
    refine congrArg (1 + ·) (countP_congr fun b _ => ?_)
    cases hb : b.demand.get? market with
    | none => simp
    | some w => simp [volume_eq hb]
  · intro a ha b hb r hr s hs hra hsb
    rw [row_eq hids ha hr hra, row_eq hids hb hs hsb]
    exact total_le hids ha hb
  · intro a ha b hb r hr s hs hra hsb hnone w hw hleast
    rw [row_eq hids ha hr hra, row_eq hids hb hs hsb]
    have hin : b ∈ measured market candidates := List.mem_filter.2 ⟨hb, by rw [hw]; rfl⟩
    obtain ⟨m, hm, hrank⟩ := demandRanks_unmeasured hids ha hnone (ne_nil_of_mem hin)
    obtain ⟨hmin, hmeasured⟩ := List.mem_filter.1 hm
    obtain ⟨u, hu⟩ := Option.isSome_iff_exists.1 hmeasured
    show demandRanks candidates market a.segmentId ≤ demandRanks candidates market b.segmentId
    rw [hrank, demandRanks_measured hids hb hw, volume_eq hu]
    exact standing_le _ _ (hleast m hmin u hu)

def three : List Candidate :=
  [⟨"a", [], 3, 0, 9, ⟨[("uk", 40)], by decide⟩⟩, ⟨"b", [], 1, 2, 9, ⟨[], by decide⟩⟩, ⟨"c", [], 1, 0, 5, ⟨[("uk", 7)], by decide⟩⟩]

theorem rank_sum_three : ((rankSegments three "uk").map RankedSegment.segmentId).Perm ["a", "b", "c"] ∧
      (rankSegments three "uk").map (fun r => (r.segmentId, r.totalRank)) = [("a", 5), ("b", 6), ("c", 9)] :=
  ⟨(rank_sum three "uk" (by decide)).2.1, by decide +kernel⟩

end CisApp.Rank
