import Mathlib
import CisApp.Places.Simplify

/-! The linked lists of `_vw` (`services/places/shape.py`).

The vertices that are left of a part form a doubly linked list over its indices.  Three things hold at every pass of the
loop: the links join neighbours among the vertices alive (`Linked`), every vertex between the ends has an up-to-date entry
on the heap (`Fresh`), and `count` is the number of vertices alive (`Counted`).  By the second the loop goes on until the
target or the ends are reached, whatever the areas are.

A target below zero is as good as zero: no count is below it. -/

namespace CisApp.Places.Lines

open List

/-! ## Neighbours -/

/-- Two vertices alive with none alive between them. -/
structure Consecutive (alive : Nat → Bool) (a b : Nat) : Prop where
  lt : a < b
  left : alive a = true
  right : alive b = true
  between : ∀ k, a < k → k < b → alive k = false

section Neighbours

variable {alive : Nat → Bool} {a b c d i m : Nat}

theorem exists_before (hfirst : alive 0 = true) (hi : alive i = true) (hpos : 0 < i) : ∃ a, Consecutive alive a i := by
  have hle : Nat.findGreatest (fun k => alive k = true) (i - 1) ≤ i - 1 := Nat.findGreatest_le _
  have hspec : alive (Nat.findGreatest (fun k => alive k = true) (i - 1)) = true :=
    Nat.findGreatest_spec (P := fun k => alive k = true) (Nat.zero_le _) hfirst
  refine ⟨_, by omega, hspec, hi, ?_⟩
  intro k hk hki
  have := Nat.findGreatest_is_greatest hk (show k ≤ i - 1 by omega)
  simpa using this

theorem exists_after (hi : alive i = true) (hm : alive m = true) (hlt : i < m) : ∃ b ≤ m, Consecutive alive i b := by
  have hex : ∃ b, i < b ∧ alive b = true := ⟨m, hlt, hm⟩
  obtain ⟨hib, hb⟩ := Nat.find_spec hex
  refine ⟨Nat.find hex, Nat.find_min' hex ⟨hlt, hm⟩, hib, hi, hb, ?_⟩
  intro k hik hkb
  have := Nat.find_min hex hkb
  simpa [hik] using this

theorem Consecutive.of_removed (ha : Consecutive alive a i) (hb : Consecutive alive i b)
    (h : Consecutive (fun k => if k = i then false else alive k) c d) :
    c = a ∧ d = b ∨ c ≠ a ∧ d ≠ b ∧ Consecutive alive c d := by
  have hc : c ≠ i ∧ alive c = true := by simpa using h.left
  have hd : d ≠ i ∧ alive d = true := by simpa using h.right
  have hgap : ∀ k, c < k → k < d → k ≠ i → alive k = false := by
    intro k hck hkd hk
    simpa [hk] using h.between k hck hkd
  have hnot : ∀ k, alive k = true → ¬(a < k ∧ k < i) ∧ ¬(i < k ∧ k < b) ∧ (k ≠ i → ¬(c < k ∧ k < d)) := by
    intro k hk
    refine ⟨fun hlt => ?_, fun hlt => ?_, fun hne hlt => ?_⟩
    · exact absurd hk (by simp [ha.between k hlt.1 hlt.2])
    · exact absurd hk (by simp [hb.between k hlt.1 hlt.2])
    · exact absurd hk (by simp [hgap k hlt.1 hlt.2 hne])
  have hlt := h.lt
  have hai := ha.lt
  have hib := hb.lt
  have hna := hnot a ha.left
  have hnb := hnot b hb.right
  have hnc := hnot c hc.2
  have hnd := hnot d hd.2
  by_cases hin : c < i ∧ i < d
  · left
    omega
  · right
    refine ⟨by omega, by omega, hlt, hc.2, hd.2, fun k hck hkd => hgap k hck hkd (by omega)⟩

end Neighbours

variable {Pt K : Type} [LinearOrder K] (G : Geometry Pt K) {parts : List (List Pt)} {target : Nat} {s s' : Thinning K}

/-! ## What every pass keeps -/

/-- `prev` and `nxt` join consecutive vertices, with `-1` before the first and the length after the last. -/
structure Thinning.Linked (parts : List (List Pt)) (s : Thinning K) : Prop where
  first : ∀ pi < parts.length, s.prev pi 0 = -1
  last : ∀ pi < parts.length, s.nxt pi ((partAt parts pi).length - 1) = (partAt parts pi).length
  join : ∀ pi a b, Consecutive (s.alive pi) a b → b < (partAt parts pi).length → s.nxt pi a = b ∧ s.prev pi b = a

/-- The vertices between the ends are on the heap. -/
def Thinning.Fresh (parts : List (List Pt)) (s : Thinning K) : Prop :=
  ∀ pi i, 0 < i → i + 1 < (partAt parts pi).length → s.alive pi i = true →
    ∃ e ∈ s.heap, e.part = pi ∧ e.i = i ∧ e.ver = s.ver pi i

/-- The vertices alive. -/
def Thinning.left (parts : List (List Pt)) (s : Thinning K) : Finset (Σ _ : Nat, Nat) :=
  (Finset.range parts.length).sigma fun pi => (Finset.range (partAt parts pi).length).filter fun i => s.alive pi i = true

structure Thinning.Consistent (parts : List (List Pt)) (s : Thinning K) : Prop where
  ends : s.EndsStay parts
  linked : s.Linked parts
  fresh : s.Fresh parts
  counted : s.count = (s.left parts).card

theorem Thinning.Consistent.push (h : s.Consistent parts) (a : WithTop K) (pi : Nat) (j : Int) :
    (s.push G parts a pi j).Consistent parts := by
  refine ⟨h.ends.push G a pi j, ?_, ?_, ?_⟩
  · unfold Thinning.push
    split
    · exact ⟨h.linked.first, h.linked.last, h.linked.join⟩
    · exact h.linked
  · unfold Thinning.push
    split
    · intro pj i hpos hlen halive
      by_cases hsame : pj = pi ∧ i = j.toNat
      · obtain ⟨rfl, rfl⟩ := hsame
        exact ⟨_, mem_heappush.2 (Or.inl rfl), rfl, rfl, by simp [setCell]⟩
      · obtain ⟨e, he, hpart, hi, hver⟩ := h.fresh pj i hpos hlen halive
        refine ⟨e, mem_heappush.2 (Or.inr he), hpart, hi, ?_⟩
        show e.ver = setCell s.ver pi j.toNat _ pj i
        rw [setCell, if_neg hsame]
        exact hver
    · exact h.fresh
  · unfold Thinning.push
    split
    · exact h.counted
    · exact h.counted

theorem part_lt {pi i : Nat} (h : i < (partAt parts pi).length) : pi < parts.length := by
  by_contra hge
  rw [partAt, List.getD_eq_default _ _ (not_lt.1 hge)] at h
  exact absurd h (Nat.not_lt_zero _)

theorem Thinning.Consistent.unlink {e : Entry K} {heap : List (Entry K)} (h : s.Consistent parts)
    (hheap : s.heap = e :: heap) (halive : s.alive e.part e.i = true) :
    Thinning.Consistent parts
      { s with
        heap
        alive := setCell s.alive e.part e.i false
        count := s.count - 1
        nxt := setCell s.nxt e.part (s.prev e.part e.i).toNat (s.nxt e.part e.i)
        prev := setCell s.prev e.part (s.nxt e.part e.i) (s.prev e.part e.i) } := by
  obtain ⟨hpos, hlen⟩ := h.ends.inner e (by rw [hheap]; exact mem_cons_self)
  obtain ⟨a, ha⟩ := exists_before (h.ends.first e.part) halive hpos
  obtain ⟨b, hble, hb⟩ := exists_after halive (h.ends.last e.part) (show e.i < _ by omega)
  have hblt : b < (partAt parts e.part).length := by omega
  rw [(h.linked.join _ a e.i ha (by omega)).2, (h.linked.join _ e.i b hb hblt).1, Int.toNat_natCast]
  have hai := ha.lt
  have hib := hb.lt
  refine ⟨⟨?_, ?_, ?_⟩, ⟨?_, ?_, ?_⟩, ?_, ?_⟩
  · intro e' he'
    exact h.ends.inner e' (by rw [hheap]; exact mem_cons_of_mem _ he')
  · intro pi
    show setCell s.alive e.part e.i false pi 0 = true
    rw [setCell, if_neg (by omega)]
    exact h.ends.first pi
  · intro pi
    show setCell s.alive e.part e.i false pi _ = true
    rw [setCell, if_neg]
    · exact h.ends.last pi
    · rintro ⟨rfl, hi⟩
      omega
  · intro pi hpi
    show setCell s.prev e.part b a pi 0 = -1
    rw [setCell, if_neg (by omega)]
    exact h.linked.first pi hpi
  · intro pi hpi
    show setCell s.nxt e.part a b pi _ = _
    rw [setCell, if_neg]
    · exact h.linked.last pi hpi
    · rintro ⟨rfl, hi⟩
      omega
  · intro pi c d hcd hd
    show setCell s.nxt e.part a b pi c = d ∧ setCell s.prev e.part b a pi d = c
    by_cases hpi : pi = e.part
    · subst hpi
      have hcell : setCell s.alive e.part e.i false e.part = fun k => if k = e.i then false else s.alive e.part k := by
        funext k
        simp [setCell]
      have hcd' : Consecutive (setCell s.alive e.part e.i false e.part) c d := hcd
      rw [hcell] at hcd'
      rcases Consecutive.of_removed ha hb hcd' with ⟨rfl, rfl⟩ | ⟨hca, hdb, hold⟩
      · simp [setCell]
      · rw [setCell, setCell, if_neg (by omega), if_neg (by omega)]
        exact h.linked.join _ c d hold hd
    · have hcell : setCell s.alive e.part e.i false pi = s.alive pi := by
        funext k
        simp [setCell, hpi]
      have hcd' : Consecutive (setCell s.alive e.part e.i false pi) c d := hcd
      rw [hcell] at hcd'
      rw [setCell, setCell, if_neg (by omega), if_neg (by omega)]
      exact h.linked.join _ c d hcd' hd
  · intro pi i hi hilen hali
    have hne : ¬(pi = e.part ∧ i = e.i) := by
      rintro ⟨rfl, rfl⟩
      simp [setCell] at hali
    have hold : s.alive pi i = true := by
      simpa only [setCell, if_neg hne] using hali
    obtain ⟨e', he', hpart, hi', hver⟩ := h.fresh pi i hi hilen hold
    rw [hheap] at he'
    rcases mem_cons.1 he' with rfl | he'
    · exact absurd ⟨hpart.symm, hi'.symm⟩ hne
    · exact ⟨e', he', hpart, hi', hver⟩
  · have hmem : (⟨e.part, e.i⟩ : Σ _ : Nat, Nat) ∈ s.left parts := by
      simp only [Thinning.left, Finset.mem_sigma, Finset.mem_range, Finset.mem_filter]
      exact ⟨part_lt (show e.i < _ by omega), by omega, halive⟩
    show s.count - 1 = _
    rw [h.counted, ← Finset.card_erase_of_mem hmem]
    congr 1
    ext ⟨pi, i⟩
    simp only [Thinning.left, Finset.mem_erase, Finset.mem_sigma, Finset.mem_range, Finset.mem_filter, setCell, Ne,
      Sigma.mk.injEq, heq_eq_eq]
    by_cases hsame : pi = e.part ∧ i = e.i
    · simp [hsame]
    · simp [hsame]

theorem Thinning.Consistent.pass (h : s.Consistent parts) (hpass : s.pass G parts target = some s') :
    s'.Consistent parts := by
  obtain ⟨e, heap, hheap, -, ⟨hstale, rfl⟩ | ⟨halive, -, rfl⟩⟩ := pass_cases G hpass
  · refine ⟨⟨fun e' he' => ?_, h.ends.first, h.ends.last⟩, ⟨h.linked.first, h.linked.last, h.linked.join⟩, ?_, h.counted⟩
    · exact h.ends.inner e' (by rw [hheap]; exact mem_cons_of_mem _ he')
    · intro pi i hpos hlen halive
      obtain ⟨e', he', hpart, hi, hver⟩ := h.fresh pi i hpos hlen halive
      rw [hheap] at he'
      -- the entry that goes is not the one of a vertex alive
      rcases mem_cons.1 he' with rfl | he'
      · exact absurd ⟨by rw [hpart, hi]; exact halive, by rw [hpart, hi]; exact hver⟩ hstale
      · exact ⟨e', he', hpart, hi, hver⟩
  · exact ((h.unlink hheap halive).push G _ _ _).push G _ _ _

/-- The states of the loop. -/
def Visits (parts : List (List Pt)) (target : Nat) : Thinning K → Prop :=
  Relation.ReflTransGen (fun s s' => s.pass G parts target = some s') (Thinning.start G parts)

/-! ## Before and after the loop -/

theorem vertexCount_eq (qs : List (List Pt)) : vertexCount qs = ∑ pi ∈ Finset.range qs.length, (partAt qs pi).length := by
  induction qs with
  | nil => rfl
  | cons q qs ih =>
    rw [length_cons, Finset.sum_range_succ']
    show q.length + vertexCount qs = _
    rw [ih, add_comm]
    rfl

theorem card_left (s : Thinning K) : (s.left parts).card = ∑ pi ∈ Finset.range parts.length,
    ((Finset.range (partAt parts pi).length).filter fun i => s.alive pi i = true).card := Finset.card_sigma _ _

theorem length_keep (p : List Pt) (keep : Nat → Bool) : ((p.zipIdx.filter fun y => keep y.2).map Prod.fst).length =
    ((Finset.range p.length).filter fun i => keep i = true).card := by
  induction p using List.reverseRecOn with
  | nil => rfl
  | append_singleton p x ih =>
    by_cases hx : keep p.length = true
    · simp [zipIdx_append, ih, Finset.range_add_one, Finset.filter_insert, hx]
    · simp [zipIdx_append, ih, Finset.range_add_one, Finset.filter_insert, hx]

theorem vertexCount_vw (target : Nat) :
    vertexCount (vw G parts target) = ((vwLoop G parts target (Thinning.start G parts)).left parts).card := by
  rw [vertexCount_eq, card_left]
  unfold vw
  rw [length_map, length_zipIdx]
  refine Finset.sum_congr rfl fun pi hpi => ?_
  rw [← length_keep]
  congr 1
  have hpi := Finset.mem_range.1 hpi
  simp [partAt, getD_eq_getElem?_getD, getElem?_eq_getElem hpi]

theorem mem_foldr_heappush {entries : List (Entry K)} {e : Entry K} : e ∈ entries.foldr heappush [] ↔ e ∈ entries := by
  induction entries with
  | nil => rfl
  | cons x xs ih => rw [foldr_cons, mem_heappush, ih, mem_cons]

theorem two_le_length (hparts : ∀ p ∈ parts, 2 ≤ p.length) {pi : Nat} (hpi : pi < parts.length) :
    2 ≤ (partAt parts pi).length := by
  rw [partAt, getD_eq_getElem _ _ hpi]
  exact hparts _ (getElem_mem hpi)

theorem consistent_start (hparts : ∀ p ∈ parts, 2 ≤ p.length) : (Thinning.start G parts).Consistent parts := by
  refine ⟨endsStay_start G parts, ⟨fun _ _ => rfl, fun pi hpi => ?_, fun pi a b hab _ => ?_⟩, ?_, ?_⟩
  · have := two_le_length hparts hpi
    show (partAt parts pi).length - 1 + 1 = _
    omega
  · have hlt := hab.lt
    have hnext : a + 1 = b := by
      by_contra hne
      exact absurd (hab.between (a + 1) (by omega) (by omega)) (by simp [Thinning.start])
    subst hnext
    exact ⟨rfl, by simp [Thinning.start]⟩
  · intro pi i hpos hlen _
    obtain ⟨k, rfl⟩ : ∃ k, i = k + 1 := ⟨i - 1, by omega⟩
    exact ⟨_, mem_foldr_heappush.2 (mem_flatMap.2 ⟨pi, mem_range.2 (part_lt hlen),
      mem_map.2 ⟨k, mem_range.2 (by omega), rfl⟩⟩), rfl, rfl, rfl⟩
  · show vertexCount parts = _
    rw [vertexCount_eq, card_left]
    refine Finset.sum_congr rfl fun pi _ => ?_
    simp [Thinning.start]

theorem Visits.consistent (hparts : ∀ p ∈ parts, 2 ≤ p.length) (h : Visits G parts target s) : s.Consistent parts := by
  induction h with
  | refl => exact consistent_start G hparts
  | tail _ hpass ih => exact ih.pass G hpass

/-! ## How many are left -/

theorem Thinning.EndsStay.two_mul_le (h : s.EndsStay parts) (hparts : ∀ p ∈ parts, 2 ≤ p.length) :
    2 * parts.length ≤ (s.left parts).card := by
  rw [card_left, mul_comm]
  conv_lhs => rw [← Finset.card_range parts.length]
  refine Finset.card_nsmul_le_sum (Finset.range parts.length) _ 2 fun pi hpi => ?_
  have hlen := two_le_length hparts (Finset.mem_range.1 hpi)
  rw [← Finset.card_pair (show 0 ≠ (partAt parts pi).length - 1 by omega)]
  refine Finset.card_le_card fun i hi => ?_
  rw [Finset.mem_insert, Finset.mem_singleton] at hi
  rw [Finset.mem_filter, Finset.mem_range]
  rcases hi with rfl | rfl
  · exact ⟨by omega, h.first pi⟩
  · exact ⟨by omega, h.last pi⟩

theorem Thinning.Fresh.card_left_le (h : s.Fresh parts) (hheap : s.heap = []) : (s.left parts).card ≤ 2 * parts.length := by
  rw [card_left, mul_comm]
  conv_rhs => rw [← Finset.card_range parts.length]
  refine Finset.sum_le_card_nsmul (Finset.range parts.length) _ 2 fun pi _ => ?_
  refine le_trans (Finset.card_le_card (t := {0, (partAt parts pi).length - 1}) fun i hi => ?_) Finset.card_le_two
  rw [Finset.mem_filter, Finset.mem_range] at hi
  rw [Finset.mem_insert, Finset.mem_singleton]
  by_contra hinner
  obtain ⟨e, he, -⟩ := h pi i (by omega) (by omega) hi.2
  rw [hheap] at he
  cases he

theorem Visits.count_bounds (h : Visits G parts target s) :
    min (vertexCount parts) target ≤ s.count ∧ s.count ≤ vertexCount parts := by
  induction h with
  | refl => exact ⟨min_le_left _ _, le_refl _⟩
  | tail _ hpass ih =>
    obtain ⟨e, heap, -, hcount, ⟨-, rfl⟩ | ⟨-, -, rfl⟩⟩ := pass_cases G hpass
    · exact ih
    · rw [(heap_remove_length G parts _ e).2]
      dsimp only
      omega

theorem visits_vwLoop (h : Visits G parts target s) : Visits G parts target (vwLoop G parts target s) ∧
    (vwLoop G parts target s).pass G parts target = none := by
  revert h
  refine vwLoop_rec G parts target (motive := fun s => Visits G parts target s → Visits G parts target
    (vwLoop G parts target s) ∧ (vwLoop G parts target s).pass G parts target = none) ?_ ?_ s
  · intro s hs h
    rw [vwLoop_eq, hs]
    exact ⟨h, hs⟩
  · intro s s' hs ih h
    rw [vwLoop_eq, hs]
    exact ih (h.tail hs)

/-- **The lists of `_vw`.**  For parts of two points or more: in every state of the loop the links join consecutive
vertices alive; every part keeps its ends and the order of its points; and as many vertices are left as the target says,
or as the ends are, if that is more, but not more than there were. -/
theorem vw_consistent (parts : List (List Pt)) (hparts : ∀ p ∈ parts, 2 ≤ p.length) (target : Int) :
    (∀ s, Visits G parts target.toNat s → s.Linked parts) ∧ List.Forall₂ KeepsEnds parts (vw G parts target.toNat) ∧
    (vertexCount (vw G parts target.toNat) : Int) = min (vertexCount parts : Int) (max target (2 * parts.length)) := by
  obtain ⟨hvisits, hend⟩ := @visits_vwLoop _ _ _ G parts target.toNat _ Relation.ReflTransGen.refl
  have hcons := hvisits.consistent G hparts
  refine ⟨fun s hs => (hs.consistent G hparts).linked, ?_, ?_⟩
  · rw [forall₂_iff_get]
    refine ⟨by simp [vw], fun i hi hi' => ?_⟩
    have hat : partAt parts i = parts[i] := getD_eq_getElem _ _ hi
    have hlast := hcons.ends.last i
    rw [hat] at hlast
    simpa [vw] using keepsEnds_filter parts[i] _ (hcons.ends.first i) hlast
  · obtain ⟨hmin, hmax⟩ := hvisits.count_bounds
    have htwo := hcons.ends.two_mul_le hparts
    rw [vertexCount_vw, ← hcons.counted]
    rw [← hcons.counted] at htwo
    have hstop : (vwLoop G parts target.toNat (Thinning.start G parts)).count ≤ target.toNat ∨
        (vwLoop G parts target.toNat (Thinning.start G parts)).count ≤ 2 * parts.length := by
      rw [Thinning.pass] at hend
      split at hend
      next hcount => exact Or.inl hcount
      next =>
        split at hend
        next hheap =>
          rw [hcons.counted]
          exact Or.inr (hcons.fresh.card_left_le hheap)
        next => split at hend <;> cases hend
    omega

/-- The loop of four points comes down to its target of three. -/
theorem vw_loop_three : (∀ s, Visits plane [loop] 3 s → s.Linked [loop]) ∧
    List.Forall₂ KeepsEnds [loop] (vw plane [loop] 3) ∧ (vertexCount (vw plane [loop] 3) : Int) = 3 :=
  vw_consistent plane [loop] (by decide) 3

end CisApp.Places.Lines
