import Mathlib.Analysis.SpecialFunctions.Trigonometric.Inverse
import Mathlib.Data.Multiset.Bind
import Mathlib.Data.Sym.Sym2

/-!
# Chaining ways

`src/services/places/shape.py`, `_chain`: a way is taken from the pool and grows at
both ends, by ways that start or end at most `JOIN_KM` away, until none is left that
touches it; then the next chain is begun.  A way that is joined loses the vertex at
the join, so that its first segment starts at the end of the chain instead.

`Grown` says how a chain was put together and of which ways; every way of the input is
in one of the chains (`chains_grown`), and segment for segment the chains are the
input, up to the vertices that were lost (`chain_keeps`).

Distances are floating point in the source, so which points are close is left open;
`isClose` is `_close` over the reals.
-/

namespace CisApp.Places

open List

@[ext]
structure Way (Pt : Type) where
  points : List Pt
  two : 2 ≤ points.length

namespace Way

variable {Pt : Type}

def of? (p : List Pt) : Option (Way Pt) := if h : 2 ≤ p.length then some ⟨p, h⟩ else none

theorem ne_nil (w : Way Pt) : w.points ≠ [] := by
  intro h
  have := w.two
  rw [h] at this
  simp at this

def first (w : Way Pt) : Pt := w.points.head w.ne_nil

def last (w : Way Pt) : Pt := w.points.getLast w.ne_nil

def reversed (w : Way Pt) : Way Pt := ⟨w.points.reverse, by rw [List.length_reverse]; exact w.two⟩

/-- `cur + p[1:]` -/
def after (cur p : Way Pt) : Way Pt :=
  ⟨cur.points ++ p.points.tail, by
    have := cur.two
    rw [List.length_append]
    omega⟩

/-- `p[:-1] + cur` -/
def before (cur p : Way Pt) : Way Pt :=
  ⟨p.points.dropLast ++ cur.points, by
    have := cur.two
    rw [List.length_append]
    omega⟩

end Way

section chain

variable {Pt : Type} (close : Pt → Pt → Bool)

/-! ## The source -/

/-- The branches of the loop over the pool. -/
def attach? (cur p : Way Pt) : Option (Way Pt) :=
  if close cur.last p.first then some (cur.after p)
  else if close cur.last p.last then some (cur.after p.reversed)
  else if close cur.first p.last then some (cur.before p)
  else if close cur.first p.first then some (cur.before p.reversed)
  else none

/-- The first way of the pool that can be attached, and the pool without it. -/
def join? (cur : Way Pt) : List (Way Pt) → Option (Way Pt × List (Way Pt))
  | [] => none
  | p :: rest =>
    match attach? close cur p with
    | some cur' => some (cur', rest)
    | none => (join? cur rest).map fun e => (e.1, p :: e.2)

theorem join?_spec {cur cur' : Way Pt} {pool pool' : List (Way Pt)} (h : join? close cur pool = some (cur', pool')) :
    ∃ p, pool.Perm (p :: pool') ∧ attach? close cur p = some cur' := by
  induction pool generalizing pool' with
  | nil => cases h
  | cons p rest ih =>
    unfold join? at h
    split at h
    · next x hattach =>
      obtain ⟨rfl, rfl⟩ := Prod.mk.inj (Option.some.inj h)
      exact ⟨p, List.Perm.refl _, hattach⟩
    · obtain ⟨⟨x, rest'⟩, hjoin, heq⟩ := Option.map_eq_some_iff.1 h
      obtain ⟨rfl, rfl⟩ := Prod.mk.inj heq
      obtain ⟨q, hperm, hattach⟩ := ih hjoin
      exact ⟨q, (hperm.cons p).trans (List.Perm.swap q p rest'), hattach⟩

theorem join?_length {cur cur' : Way Pt} {pool pool' : List (Way Pt)} (h : join? close cur pool = some (cur', pool')) :
    pool'.length < pool.length := by
  obtain ⟨p, hperm, -⟩ := join?_spec close h
  rw [hperm.length_eq, length_cons]
  exact Nat.lt_succ_self _

/-- `while grown` -/
def grow (cur : Way Pt) (pool : List (Way Pt)) : Way Pt × List (Way Pt) :=
  match _h : join? close cur pool with
  | none => (cur, pool)
  | some (cur', pool') => grow cur' pool'
termination_by pool.length
decreasing_by exact join?_length close _h

theorem grow_length (cur : Way Pt) (pool : List (Way Pt)) : (grow close cur pool).2.length ≤ pool.length := by
  induction hn : pool.length using Nat.strong_induction_on generalizing cur pool with
  | _ n ih =>
    rw [grow]
    split
    · exact le_of_eq hn
    · next cur' pool' hjoin =>
      have hlt := join?_length close hjoin
      exact (ih pool'.length (hn ▸ hlt) cur' pool' rfl).trans (hn ▸ le_of_lt hlt)

/-- `while pool` -/
def chains : List (Way Pt) → List (Way Pt)
  | [] => []
  | cur :: pool => (grow close cur pool).1 :: chains (grow close cur pool).2
termination_by pool => pool.length
decreasing_by exact Nat.lt_succ_of_le (grow_length close cur pool)

def chain (parts : List (List Pt)) : List (Way Pt) := chains close (parts.filterMap Way.of?)

/-! ## Chains and their ways -/

/-- The chain was grown of the ways: each is attached in its own or in reversed order, where its end is close. -/
inductive Grown : List (Way Pt) → Way Pt → Prop
  | start (p : Way Pt) : Grown [p] p
  | after {ps : List (Way Pt)} {c : Way Pt} (p q : Way Pt) (hc : Grown ps c) (hq : q = p ∨ q = p.reversed)
      (hclose : close c.last q.first = true) : Grown (p :: ps) (c.after q)
  | before {ps : List (Way Pt)} {c : Way Pt} (p q : Way Pt) (hc : Grown ps c) (hq : q = p ∨ q = p.reversed)
      (hclose : close c.first q.last = true) : Grown (p :: ps) (c.before q)

variable {close}

theorem Way.reversed_first (p : Way Pt) : p.reversed.first = p.last := head_reverse _

theorem Way.reversed_last (p : Way Pt) : p.reversed.last = p.first := getLast_reverse _

variable {ps : List (Way Pt)}

theorem grown_attach {c c' p : Way Pt} (hc : Grown close ps c) (h : attach? close c p = some c') :
    Grown close (p :: ps) c' := by
  unfold attach? at h
  split at h
  · next hclose =>
    obtain rfl := Option.some.inj h
    exact Grown.after p p hc (Or.inl rfl) hclose
  · split at h
    · next hclose =>
      obtain rfl := Option.some.inj h
      exact Grown.after p p.reversed hc (Or.inr rfl) (by rw [p.reversed_first]; exact hclose)
    · split at h
      · next hclose =>
        obtain rfl := Option.some.inj h
        exact Grown.before p p hc (Or.inl rfl) hclose
      · split at h
        · next hclose =>
          obtain rfl := Option.some.inj h
          exact Grown.before p p.reversed hc (Or.inr rfl) (by rw [p.reversed_last]; exact hclose)
        · cases h

theorem grow_grown {cur : Way Pt} (hc : Grown close ps cur) (pool : List (Way Pt)) :
    ∃ ps', Grown close ps' (grow close cur pool).1 ∧ (ps' ++ (grow close cur pool).2).Perm (ps ++ pool) := by
  induction hn : pool.length using Nat.strong_induction_on generalizing ps cur pool with
  | _ n ih =>
    rw [grow]
    split
    · exact ⟨ps, hc, List.Perm.refl _⟩
    · next cur' pool' hjoin =>
      obtain ⟨p, hperm, hattach⟩ := join?_spec close hjoin
      obtain ⟨ps', hgrown, hrest⟩ :=
        ih pool'.length (hn ▸ join?_length close hjoin) (grown_attach hc hattach) pool' rfl
      refine ⟨ps', hgrown, hrest.trans ?_⟩
      exact perm_middle.symm.trans (hperm.symm.append_left ps)

variable (close) in
theorem chains_grown (pool : List (Way Pt)) :
    ∃ used, List.Forall₂ (Grown close) used (chains close pool) ∧ used.flatten.Perm pool := by
  induction hn : pool.length using Nat.strong_induction_on generalizing pool with
  | _ n ih =>
    cases pool with
    | nil =>
      rw [chains]
      exact ⟨[], List.Forall₂.nil, List.Perm.refl _⟩
    | cons cur pool =>
      have hstart : Grown close [cur] cur := Grown.start cur
      obtain ⟨ps, hgrown, hperm⟩ := grow_grown hstart pool
      have hlt : (grow close cur pool).2.length < n := hn ▸ Nat.lt_succ_of_le (grow_length close cur pool)
      obtain ⟨used, hall, hused⟩ := ih _ hlt (grow close cur pool).2 rfl
      rw [chains]
      exact ⟨ps :: used, List.Forall₂.cons hgrown hall, (hused.append_left ps).trans hperm⟩

/-! ## Segments -/

def segments (l : List Pt) : Multiset (Sym2 Pt) := ↑(List.zipWith (fun a b => s(a, b)) l l.tail)

theorem segments_cons (a b : Pt) (l : List Pt) : segments (a :: b :: l) = s(a, b) ::ₘ segments (b :: l) := rfl

theorem segments_append (l : List Pt) (a : Pt) (m : List Pt) :
    segments (l ++ a :: m) = segments (l ++ [a]) + segments (a :: m) := by
  induction l with
  | nil => exact (zero_add _).symm
  | cons b l ih =>
    cases l with
    | nil => rfl
    | cons c l =>
      rw [cons_append, cons_append, cons_append, cons_append, segments_cons, segments_cons,
        Multiset.cons_add, ← cons_append, ih]
      rfl

theorem segments_reverse (l : List Pt) : segments l.reverse = segments l := by
  induction l with
  | nil => rfl
  | cons a l ih =>
    cases l with
    | nil => rfl
    | cons b l =>
      have hswap : segments [b, a] = {s(a, b)} := by
        rw [Sym2.eq_swap]
        rfl
      rw [reverse_cons] at ih ⊢
      rw [reverse_cons, append_assoc, singleton_append, segments_append, ih, hswap, segments_cons, add_comm,
        Multiset.singleton_add]

variable (close)

/-- A segment of a chain for one of the input: one end may be at the end of the chain that it was joined to. -/
def Moved (s s' : Sym2 Pt) : Prop := ∃ a a' b, s = s(a, b) ∧ s' = s(a', b) ∧ (a' = a ∨ close a' a = true)

variable {close}

theorem Moved.refl (s : Sym2 Pt) : Moved close s s := by
  induction s using Sym2.ind with
  | _ a b => exact ⟨a, a, b, rfl, rfl, Or.inl rfl⟩

theorem moved_segments (m : Multiset (Sym2 Pt)) : Multiset.Rel (Moved close) m m :=
  Multiset.rel_refl_of_refl_on fun s _ => Moved.refl s

theorem moved_head {a a' : Pt} (h : close a' a = true) (l : List Pt) :
    Multiset.Rel (Moved close) (segments (a :: l)) (segments (a' :: l)) := by
  cases l with
  | nil => exact Multiset.Rel.zero
  | cons b l =>
    rw [segments_cons, segments_cons]
    exact Multiset.Rel.cons ⟨a, a', b, rfl, rfl, Or.inr h⟩ (moved_segments _)

theorem segments_after (c q : Way Pt) :
    segments (c.after q).points = segments c.points + segments (c.last :: q.points.tail) := by
  have hc : c.points = c.points.dropLast ++ [c.last] := (dropLast_append_getLast c.ne_nil).symm
  show segments (c.points ++ q.points.tail) = _
  rw [hc, append_assoc, singleton_append, segments_append, ← hc]

theorem moved_after {c q : Way Pt} (h : close c.last q.first = true) :
    Multiset.Rel (Moved close) (segments q.points) (segments (c.last :: q.points.tail)) := by
  have hq : q.points = q.first :: q.points.tail := (cons_head_tail q.ne_nil).symm
  have hmoved := moved_head h q.points.tail
  rw [← hq] at hmoved
  exact hmoved

theorem Way.before_eq (c q : Way Pt) : c.before q = (c.reversed.after q.reversed).reversed := by
  apply Way.ext
  show q.points.dropLast ++ c.points = (c.points.reverse ++ q.points.reverse.tail).reverse
  rw [reverse_append, reverse_reverse, tail_reverse, reverse_reverse]

theorem segments_reversed (c : Way Pt) : segments c.reversed.points = segments c.points := segments_reverse c.points

theorem Grown.moved {c : Way Pt} (h : Grown close ps c) :
    Multiset.Rel (Moved close) (ps.map fun p => segments p.points).sum (segments c.points) := by
  have hown : ∀ {p q : Way Pt}, q = p ∨ q = p.reversed → segments p.points = segments q.points := by
    rintro p q (rfl | rfl)
    · rfl
    · exact (segments_reversed p).symm
  induction h with
  | start p =>
    rw [map_singleton, sum_singleton]
    exact moved_segments _
  | after p q _ hq hclose ih =>
    rw [map_cons, sum_cons, segments_after, hown hq, add_comm]
    exact Multiset.Rel.add ih (moved_after hclose)
  | @before ps c p q _ hq hclose ih =>
    rw [← c.reversed_last, ← q.reversed_first] at hclose
    rw [map_cons, sum_cons, Way.before_eq, segments_reversed, segments_after, segments_reversed, hown hq,
      ← segments_reversed q, add_comm]
    exact Multiset.Rel.add ih (moved_after hclose)

/-! ## What is kept -/

theorem points_of? (parts : List (List Pt)) :
    (parts.filterMap Way.of?).map Way.points = parts.filter fun p => 2 ≤ p.length := by
  induction parts with
  | nil => rfl
  | cons p parts ih =>
    by_cases h : 2 ≤ p.length
    · rw [filterMap_cons_some (dif_pos h), map_cons, ih, filter_cons_of_pos (by simpa using h)]
    · rw [filterMap_cons_none (dif_neg h), ih, filter_cons_of_neg (by simpa using h)]

theorem segments_short {p : List Pt} (h : ¬2 ≤ p.length) : segments p = 0 := by
  cases p with
  | nil => rfl
  | cons a p =>
    cases p with
    | nil => rfl
    | cons b p => exact absurd (Nat.le_add_left 2 p.length) h

theorem sum_segments_filter (parts : List (List Pt)) :
    ((parts.filter fun p => 2 ≤ p.length).map segments).sum = (parts.map segments).sum := by
  induction parts with
  | nil => rfl
  | cons p parts ih =>
    by_cases h : 2 ≤ p.length
    · rw [filter_cons_of_pos (by simpa using h), map_cons, map_cons, sum_cons, sum_cons, ih]
    · rw [filter_cons_of_neg (by simpa using h), ih, map_cons, sum_cons, segments_short h, zero_add]

theorem moved_all {used : List (List (Way Pt))} {cs : List (Way Pt)} (h : List.Forall₂ (Grown close) used cs) :
    Multiset.Rel (Moved close) (used.map fun ps => (ps.map fun p => segments p.points).sum).sum
      (cs.map fun c => segments c.points).sum := by
  induction h with
  | nil => exact Multiset.Rel.zero
  | cons hgrown _ ih =>
    exact Multiset.Rel.add hgrown.moved ih

end chain

/-- Every part with two points is in exactly one of the chains, attached in its own or in reversed order where it is close;
and segment for segment the chains are the parts, where a joined part's segment starts at the end of the chain. -/
theorem chain_keeps {Pt : Type} (close : Pt → Pt → Bool) (parts : List (List Pt)) :
    (∃ used, List.Forall₂ (Grown close) used (chain close parts) ∧
      (used.flatten.map Way.points).Perm (parts.filter fun p => 2 ≤ p.length)) ∧
    Multiset.Rel (Moved close) (parts.map segments).sum ((chain close parts).map fun c => segments c.points).sum := by
  obtain ⟨used, hall, hperm⟩ := chains_grown close (parts.filterMap Way.of?)
  have hpoints : (used.flatten.map Way.points).Perm (parts.filter fun p => 2 ≤ p.length) :=
    points_of? parts ▸ hperm.map Way.points
  refine ⟨⟨used, hall, hpoints⟩, ?_⟩
  have hsum : (parts.map segments).sum = (used.map fun ps => (ps.map fun p => segments p.points).sum).sum := by
    rw [← sum_segments_filter, ← (hpoints.map segments).sum_eq, map_map, map_flatten, sum_flatten, map_map]
    rfl
  rw [hsum]
  exact moved_all hall

/-! ## The distance of the source -/

section haversine

open Real

noncomputable def radians (d : ℝ) : ℝ := d * π / 180

/-- `km` of two points, as (lng, lat). -/
noncomputable def km (a b : ℝ × ℝ) : ℝ :=
  let p₁ := radians a.2
  let p₂ := radians b.2
  let x := sin ((p₂ - p₁) / 2) ^ 2 + cos p₁ * cos p₂ * sin (radians (b.1 - a.1) / 2) ^ 2
  2 * 6371 * arcsin (√(min 1 x))

noncomputable def joinKm : ℝ := 5 / 100

/-- `_close` -/
noncomputable def isClose (a b : ℝ × ℝ) : Bool := decide (km a b ≤ joinKm)

theorem km_comm (a b : ℝ × ℝ) : km a b = km b a := by
  have hlat : sin ((radians b.2 - radians a.2) / 2) ^ 2 = sin ((radians a.2 - radians b.2) / 2) ^ 2 := by
    rw [← neg_sub, neg_div, sin_neg, neg_sq]
  have hlng : sin (radians (b.1 - a.1) / 2) ^ 2 = sin (radians (a.1 - b.1) / 2) ^ 2 := by
    have hneg : radians (b.1 - a.1) / 2 = -(radians (a.1 - b.1) / 2) := by
      unfold radians
      ring
    rw [hneg, sin_neg, neg_sq]
  unfold km
  dsimp only
  rw [hlat, hlng, mul_comm (cos (radians a.2))]

theorem km_equator {x y : ℝ} (hle : x ≤ y) (hhalf : y - x ≤ 180) : km (x, 0) (y, 0) = 6371 * radians (y - x) := by
  have hpos : 0 ≤ radians (y - x) / 2 := by
    unfold radians
    positivity
  have hle : radians (y - x) / 2 ≤ π / 2 := by
    unfold radians
    have := pi_pos
    nlinarith
  have hsin : 0 ≤ sin (radians (y - x) / 2) := sin_nonneg_of_nonneg_of_le_pi hpos (by linarith [pi_pos])
  have hx : min 1 (sin (radians (y - x) / 2) ^ 2) = sin (radians (y - x) / 2) ^ 2 :=
    min_eq_right (sin_sq_le_one _)
  have hzero : radians 0 = 0 := by
    unfold radians
    ring
  unfold km
  simp only [hzero, sub_self, zero_div, sin_zero, cos_zero, one_mul, ne_eq, OfNat.ofNat_ne_zero, not_false_eq_true, zero_pow,
    zero_add]
  rw [hx, sqrt_sq hsin, arcsin_sin (by linarith [pi_pos]) hle]
  ring

theorem chain_two {Pt : Type} {close : Pt → Pt → Bool} {a b c d : Pt} (h : close b c = true) :
    (chain close [[a, b], [c, d]]).map Way.points = [[a, b, d]] := by
  have hjoin : join? close ⟨[a, b], le_refl 2⟩ [⟨[c, d], le_refl 2⟩] = some (⟨[a, b, d], by simp⟩, []) := by
    have hattach : attach? close ⟨[a, b], le_refl 2⟩ ⟨[c, d], le_refl 2⟩ = some ⟨[a, b, d], by simp⟩ := if_pos h
    unfold join?
    rw [hattach]
  have hdone : grow close ⟨[a, b, d], by simp⟩ [] = (⟨[a, b, d], by simp⟩, []) := by
    rw [grow]
    rfl
  have hgrow : grow close ⟨[a, b], le_refl 2⟩ [⟨[c, d], le_refl 2⟩] = (⟨[a, b, d], by simp⟩, []) := by
    rw [grow]
    split
    · next hnone =>
      rw [hjoin] at hnone
      cases hnone
    · next cur' pool' hsome =>
      rw [hjoin] at hsome
      obtain ⟨rfl, rfl⟩ := Prod.mk.inj (Option.some.inj hsome)
      exact hdone
  show (chains close [⟨[a, b], le_refl 2⟩, ⟨[c, d], le_refl 2⟩]).map Way.points = _
  rw [chains, hgrow, chains]
  rfl

/-- Two ways on the equator, eleven metres apart: the second starts at the end of the first now, so that its segment is not
one that was there before. -/
theorem joined_segment_moved :
    let parts : List (List (ℝ × ℝ)) := [[(0, 0), (1, 0)], [(10001 / 10000, 0), (2, 0)]]
    ¬∀ s ∈ ((chain isClose parts).map fun c => segments c.points).sum,
      s ∈ (parts.map segments).sum ∨ ∃ a b, s = s(a, b) ∧ km a b ≤ joinKm := by
  intro parts hall
  have hclose : isClose (1, 0) (10001 / 10000, 0) = true := by
    refine decide_eq_true ?_
    rw [km_equator (by norm_num) (by norm_num)]
    unfold radians joinKm
    linarith [pi_le_four]
  have hfar : joinKm < km (1, 0) (2, 0) := by
    rw [km_equator (by norm_num) (by norm_num)]
    unfold radians joinKm
    linarith [two_le_pi]
  have hchain : (chain isClose parts).map (fun c => segments c.points) = [segments [(0, 0), (1, 0), (2, 0)]] := by
    rw [← Function.comp_def, ← map_map, chain_two hclose]
    rfl
  rw [hchain] at hall
  rcases hall s((1, 0), (2, 0)) (by simp [segments]) with hin | ⟨a, b, hab, hle⟩
  · norm_num [parts, segments] at hin
  · rcases Sym2.eq_iff.1 hab with ⟨rfl, rfl⟩ | ⟨rfl, rfl⟩
    · exact absurd hle (not_le.2 hfar)
    · rw [km_comm] at hle
      exact absurd hle (not_le.2 hfar)

end haversine

end CisApp.Places
