import Mathlib.Data.List.Destutter
import Mathlib.Data.List.Sort
import Mathlib.Data.Prod.Lex
import Mathlib.Order.WithBot
import Mathlib.Order.Iterate
import Mathlib.Tactic.Linarith

/-! Simplifying the line of a place (`simplify` of `services/places/shape.py`).

`simplify` rounds the points, drops the shortest parts while the ends alone are too many, and thins what is left by
Visvalingam-Whyatt (`vw`): the vertex with the smallest triangle goes first, the ends of a part stay.  The thinning is
tried again with smaller targets until the caps are met; when none meets them, the two ends of the longest part are
returned.

* `keepsEnds_vw`: thinning keeps a sublist of every part, with its ends.
* `simplify_drawable_iff`: the parts returned are thinned parts within both caps; there is something to draw exactly when
  the longest part does not end where it starts, or the line is returned before the two ends are all that is left.
* `loop_not_drawn`: a closed loop under the cap of two vertices comes back as one point, twice.

Rounding, lengths, areas and the texts of numbers are floating point; a `Geometry` holds them. -/

namespace CisApp.Places.Lines

open List

/-- What `shape.py` computes of points: rounding to five decimals, the length of a part, the area of a triangle of three
of its points (in the plane at the part's mean latitude), and a point's JSON text. -/
structure Geometry (Pt K : Type) where
  round : Pt → Pt
  round_round : ∀ p, round (round p) = round p
  lengthKm : List Pt → K
  triangle : List Pt → Pt → Pt → Pt → K
  pointText : Pt → String

/-! ## GeoJSON -/

section Drawing

variable {Pt K : Type} [DecidableEq Pt]

inductive GeoJson (Pt : Type) where
  | lineString (coordinates : List Pt)
  | multiLineString (coordinates : List (List Pt))

def dedupeConsecutive (pts : List Pt) : List Pt := pts.destutter (· ≠ ·)

/-- The parts with two points or more, after `_dedupe_consecutive`. -/
def drawn (parts : List (List Pt)) : List (List Pt) :=
  (parts.map dedupeConsecutive).filter fun q => 2 ≤ q.length

/-- The rounded parts, `rounded` of `simplify`. -/
def Geometry.rounded (G : Geometry Pt K) (parts : List (List Pt)) : List (List Pt) :=
  drawn (parts.map (·.map G.round))

def Geometry.toGeojson (G : Geometry Pt K) (parts : List (List Pt)) : Option (GeoJson Pt) :=
  match G.rounded parts with
  | [] => none
  | [p] => some (.lineString p)
  | ps => some (.multiLineString ps)

def vertexCount (parts : List (List Pt)) : Nat := (parts.map List.length).sum

def Geometry.lineText (G : Geometry Pt K) (pts : List Pt) : String :=
  "[" ++ ", ".intercalate (pts.map G.pointText) ++ "]"

def Geometry.jsonText (G : Geometry Pt K) : GeoJson Pt → String
  | .lineString pts => "\x7b\"type\": \"LineString\", \"coordinates\": " ++ G.lineText pts ++ "\x7d"
  | .multiLineString ps =>
    "\x7b\"type\": \"MultiLineString\", \"coordinates\": [" ++ ", ".intercalate (ps.map G.lineText) ++ "]\x7d"

def Geometry.jsonBytes (G : Geometry Pt K) : Option (GeoJson Pt) → Nat
  | none => 0
  | some g => (G.jsonText g).utf8ByteSize

end Drawing

/-! ## Visvalingam-Whyatt -/

section Thinning

variable {Pt K : Type} [LinearOrder K]

/-- An entry of the heap: a vertex, its area when it was pushed, and its version then. -/
structure Entry (K : Type) where
  area : WithTop K
  part : Nat
  i : Nat
  ver : Nat

def Entry.key (e : Entry K) : WithTop K ×ₗ Nat ×ₗ Nat ×ₗ Nat := toLex (e.area, toLex (e.part, toLex (e.i, e.ver)))

/-- The variables of `_vw`; the heap is kept as an ordered list. -/
structure Thinning (K : Type) where
  prev : Nat → Nat → Int
  nxt : Nat → Nat → Nat
  alive : Nat → Nat → Bool
  ver : Nat → Nat → Nat
  heap : List (Entry K)
  count : Nat

def setCell {α : Type} (table : Nat → Nat → α) (pi i : Nat) (v : α) : Nat → Nat → α :=
  fun pj j => if pj = pi ∧ j = i then v else table pj j

def heappush (e : Entry K) (heap : List (Entry K)) : List (Entry K) :=
  heap.orderedInsert (fun a b => a.key ≤ b.key) e

variable (G : Geometry Pt K) (parts : List (List Pt))

/-- `parts[pi]` -/
def partAt (pi : Nat) : List Pt := parts.getD pi []

def Thinning.area (s : Thinning K) (pi i : Nat) : WithTop K :=
  let a := s.prev pi i
  let b := s.nxt pi i
  if a < 0 ∨ (partAt parts pi).length ≤ b then ⊤
  else
    match (partAt parts pi)[a.toNat]?, (partAt parts pi)[i]?, (partAt parts pi)[b]? with
    | some p, some q, some r => (G.triangle (partAt parts pi) p q r : K)
    | _, _, _ => ⊤

def Thinning.start : Thinning K :=
  let s : Thinning K :=
    { prev := fun _ i => i - 1, nxt := fun _ i => i + 1, alive := fun _ _ => true, ver := fun _ _ => 0, heap := [],
      count := vertexCount parts }
  let entries := (List.range parts.length).flatMap fun pi =>
    (List.range ((partAt parts pi).length - 2)).map fun k => ⟨s.area G parts pi (k + 1), pi, k + 1, 0⟩
  { s with heap := entries.foldr heappush [] }

/-- A neighbour of a removed vertex goes back on the heap, with an area not below `a`. -/
def Thinning.push (a : WithTop K) (pi : Nat) (s : Thinning K) (j : Int) : Thinning K :=
  if 0 < j ∧ j < (partAt parts pi).length - 1 ∧ s.alive pi j.toNat then
    let ver := s.ver pi j.toNat + 1
    { s with
      ver := setCell s.ver pi j.toNat ver
      heap := heappush ⟨max a (s.area G parts pi j.toNat), pi, j.toNat, ver⟩ s.heap }
  else s

/-- The body of the loop for a vertex that is alive and up to date. -/
def Thinning.remove (s : Thinning K) (e : Entry K) : Thinning K :=
  let l := s.prev e.part e.i
  let r := s.nxt e.part e.i
  let s' : Thinning K :=
    { s with
      alive := setCell s.alive e.part e.i false
      count := s.count - 1
      nxt := setCell s.nxt e.part l.toNat r
      prev := setCell s.prev e.part r l }
  [l, (r : Int)].foldl (Thinning.push G parts e.area e.part) s'

theorem heap_push_length (a : WithTop K) (pi : Nat) (s : Thinning K) (j : Int) :
    (s.push G parts a pi j).heap.length ≤ s.heap.length + 1 ∧ (s.push G parts a pi j).count = s.count := by
  unfold Thinning.push
  split
  · simp [heappush, orderedInsert_length]
  · exact ⟨by omega, rfl⟩

theorem heap_remove_length (s : Thinning K) (e : Entry K) :
    (s.remove G parts e).heap.length ≤ s.heap.length + 2 ∧ (s.remove G parts e).count = s.count - 1 := by
  obtain ⟨h₁, c₁⟩ := heap_push_length G parts e.area e.part
    { s with
      alive := setCell s.alive e.part e.i false
      count := s.count - 1
      nxt := setCell s.nxt e.part (s.prev e.part e.i).toNat (s.nxt e.part e.i)
      prev := setCell s.prev e.part (s.nxt e.part e.i) (s.prev e.part e.i) } (s.prev e.part e.i)
  obtain ⟨h₂, c₂⟩ := heap_push_length G parts e.area e.part _ (s.nxt e.part e.i : Int)
  exact ⟨h₂.trans (by simpa using h₁), c₂.trans c₁⟩

/-- The loop of `_vw`.  A removal takes one entry and one vertex away and adds two entries at most. -/
def vwLoop (target : Nat) (s : Thinning K) : Thinning K :=
  if s.count ≤ target then s
  else
    match h : s.heap with
    | [] => s
    | e :: heap =>
      let s' := { s with heap }
      if !s.alive e.part e.i || e.ver ≠ s.ver e.part e.i then vwLoop target s'
      else vwLoop target (s'.remove G parts e)
termination_by s.heap.length + 2 * s.count
decreasing_by
  · simp [h]
  · obtain ⟨hlen, hcount⟩ := heap_remove_length G parts { s with heap } e
    simp only at hlen hcount
    rw [hcount, h, List.length_cons]
    omega

/-- One pass of the loop, if there is one. -/
def Thinning.pass (target : Nat) (s : Thinning K) : Option (Thinning K) :=
  if s.count ≤ target then none
  else
    match s.heap with
    | [] => none
    | e :: heap =>
      let s' := { s with heap }
      if !s.alive e.part e.i || e.ver ≠ s.ver e.part e.i then some s' else some (s'.remove G parts e)

def vw (target : Nat) : List (List Pt) :=
  let s := vwLoop G parts target (Thinning.start G parts)
  parts.zipIdx.map fun x => (x.1.zipIdx.filter fun y => s.alive x.2 y.2).map Prod.fst

end Thinning

/-! ## The caps -/

section Caps

variable {Pt K : Type} [DecidableEq Pt] [LinearOrder K] (G : Geometry Pt K)

def Geometry.fits (maxVertices : Nat) (maxBytes : Option Nat) (ps : List (List Pt)) : Bool :=
  vertexCount ps ≤ maxVertices && maxBytes.all fun b => G.jsonBytes (G.toGeojson ps) ≤ b

/-- The parts after the longest one that are kept: the last is dropped while the ends alone exceed the cap. -/
def dropShortest (maxVertices : Nat) (rest : List (List Pt)) : List (List Pt) :=
  if maxVertices < 2 * (rest.length + 1) ∧ 0 < rest.length then dropShortest maxVertices rest.dropLast else rest
termination_by rest.length
decreasing_by
  rw [List.length_dropLast]
  omega

/-- The first target. -/
def firstTarget (maxVertices : Nat) (maxBytes : Option Nat) (n : Nat) : Nat :=
  match maxBytes with
  | none => maxVertices
  | some b => min maxVertices (max (2 * n) ((b - 64) / 23))

/-- `int(target * 0.85)` -/
def shrink (target : Nat) : Nat := target * 17 / 20

def Geometry.thinned (parts : List (List Pt)) (target : Nat) : List (List Pt) := drawn (vw G parts target)

/-- The loop over the targets. -/
def Geometry.shrinkLoop (maxVertices : Nat) (maxBytes : Option Nat) (longest : List Pt) (rest : List (List Pt))
    (target : Nat) : List (List Pt) :=
  if 2 * (rest.length + 1) ≤ target then
    let out := G.thinned (longest :: rest) target
    if out ≠ [] ∧ G.fits maxVertices maxBytes out then out
    else Geometry.shrinkLoop maxVertices maxBytes longest rest (shrink target)
  else [(longest.head?.toList ++ longest.getLast?.toList)]
termination_by target
decreasing_by
  unfold shrink
  omega

/-- `rounded.sort(key=part_length_km, reverse=True)` -/
def Geometry.longestFirst (ps : List (List Pt)) : List (List Pt) :=
  ps.insertionSort fun p q => G.lengthKm q ≤ G.lengthKm p

def Geometry.simplify (parts : List (List Pt)) (maxVertices : Nat) (maxBytes : Option Nat) : List (List Pt) :=
  if G.rounded parts = [] then []
  else if G.fits maxVertices maxBytes (G.rounded parts) then G.rounded parts
  else
    match G.longestFirst (G.rounded parts) with
    | [] => []
    | longest :: others =>
      let rest := dropShortest maxVertices others
      G.shrinkLoop maxVertices maxBytes longest rest (firstTarget maxVertices maxBytes (rest.length + 1))

end Caps

/-! ## Parts and their ends -/

/-- `q` is left of the part `p`: some of its points, in order, with both ends. -/
structure KeepsEnds {Pt : Type} (p q : List Pt) : Prop where
  sublist : q.Sublist p
  first : q.head? = p.head?
  last : q.getLast? = p.getLast?

theorem KeepsEnds.trans {Pt : Type} {p q r : List Pt} (hpq : KeepsEnds p q) (hqr : KeepsEnds q r) : KeepsEnds p r :=
  ⟨hqr.sublist.trans hpq.sublist, hqr.first.trans hpq.first, hqr.last.trans hpq.last⟩

section Ends

variable {Pt K : Type}

theorem keepsEnds_filter (p : List Pt) (keep : Nat → Bool) (hfirst : keep 0 = true)
    (hlast : keep (p.length - 1) = true) : KeepsEnds p ((p.zipIdx.filter fun y => keep y.2).map Prod.fst) := by
  refine ⟨?_, ?_, ?_⟩
  · have h : ((p.zipIdx.filter fun y => keep y.2).map Prod.fst).Sublist (p.zipIdx.map Prod.fst) :=
      filter_sublist.map Prod.fst
    rwa [zipIdx_map_fst] at h
  · cases p with
    | nil => rfl
    | cons x t => simp [zipIdx_cons, hfirst]
  · rcases eq_nil_or_concat p with rfl | ⟨t, x, rfl⟩
    · rfl
    · have hx : keep t.length = true := by simpa using hlast
      simp [zipIdx_append, hx]

variable [DecidableEq Pt]

theorem head?_destutter' (x : Pt) (l : List Pt) : (l.destutter' (· ≠ ·) x).head? = some x := by
  induction l generalizing x with
  | nil => rfl
  | cons y l ih =>
    by_cases hxy : x = y
    · subst hxy
      rw [List.destutter'_cons_neg _ (by simp)]
      exact ih x
    · rw [List.destutter'_cons_pos _ hxy]
      rfl

theorem getLast?_destutter' (x : Pt) (l : List Pt) : (l.destutter' (· ≠ ·) x).getLast? = (x :: l).getLast? := by
  induction l generalizing x with
  | nil => rfl
  | cons y l ih =>
    rw [List.getLast?_cons_cons]
    by_cases hxy : x = y
    · subst hxy
      rw [List.destutter'_cons_neg _ (by simp)]
      exact ih x
    · rw [List.destutter'_cons_pos _ hxy, ← ih y]
      cases hd : l.destutter' (· ≠ ·) y with
      | nil => exact absurd hd (List.destutter'_ne_nil _ _)
      | cons z t => exact List.getLast?_cons_cons

theorem keepsEnds_dedupeConsecutive (p : List Pt) : KeepsEnds p (dedupeConsecutive p) := by
  refine ⟨p.destutter_sublist _, ?_, ?_⟩
  · cases p with
    | nil => rfl
    | cons x l => exact head?_destutter' x l
  · cases p with
    | nil => rfl
    | cons x l => exact getLast?_destutter' x l

theorem two_le_length_dedupeConsecutive {p : List Pt} {x y : Pt} (hx : x ∈ p) (hy : y ∈ p) (hxy : x ≠ y) :
    2 ≤ (dedupeConsecutive p).length := by
  have hconst : ∀ (a : Pt) (l : List Pt), (l.destutter' (· ≠ ·) a).length < 2 → ∀ z ∈ a :: l, z = a := by
    intro a l
    induction l generalizing a with
    | nil => simp
    | cons b l ih =>
      intro hlen z hz
      by_cases hab : a = b
      · subst hab
        rw [List.destutter'_cons_neg _ (by simp)] at hlen
        refine ih a hlen z ?_
        simpa using hz
      · rw [List.destutter'_cons_pos _ hab, length_cons] at hlen
        have hne : (l.destutter' (· ≠ ·) b).length ≠ 0 := by
          rw [Ne, length_eq_zero_iff]
          exact List.destutter'_ne_nil _ _
        omega
  by_contra hlen
  cases p with
  | nil => cases hx
  | cons a l =>
    have h := hconst a l (not_le.1 hlen)
    exact hxy ((h x hx).trans (h y hy).symm)

end Ends

/-! ## What the thinning removes -/

section Removal

variable {Pt K : Type} [LinearOrder K] (G : Geometry Pt K) {parts : List (List Pt)}

theorem vwLoop_eq (target : Nat) (s : Thinning K) : vwLoop G parts target s =
    match s.pass G parts target with
    | none => s
    | some s' => vwLoop G parts target s' := by
  rw [vwLoop, Thinning.pass]
  split
  · rfl
  · split
    next hheap => simp [hheap]
    next e heap hheap =>
      rw [hheap]
      dsimp only
      split <;> rfl

theorem vwLoop_rec (parts : List (List Pt)) (target : Nat) {motive : Thinning K → Prop}
    (hend : ∀ s, s.pass G parts target = none → motive s)
    (hpass : ∀ s s', s.pass G parts target = some s' → motive s' → motive s) (s : Thinning K) : motive s := by
  induction s using vwLoop.induct G parts target with
  | case1 s hcount => exact hend s (by rw [Thinning.pass, if_pos hcount])
  | case2 s hcount hheap => exact hend s (by rw [Thinning.pass, if_neg hcount, hheap])
  | case3 s hcount e heap hheap s' hstale ih =>
    refine hpass s s' ?_ ih
    rw [Thinning.pass, if_neg hcount, hheap]
    exact if_pos hstale
  | case4 s hcount e heap hheap s' hlive ih =>
    refine hpass s _ ?_ ih
    rw [Thinning.pass, if_neg hcount, hheap]
    exact if_neg hlive

variable {s : Thinning K}

theorem pass_cases {target : Nat} {s' : Thinning K} (h : s.pass G parts target = some s') :
    ∃ e heap, s.heap = e :: heap ∧ target < s.count ∧
      (¬(s.alive e.part e.i = true ∧ e.ver = s.ver e.part e.i) ∧ s' = { s with heap } ∨
        s.alive e.part e.i = true ∧ e.ver = s.ver e.part e.i ∧ s' = Thinning.remove G parts { s with heap } e) := by
  unfold Thinning.pass at h
  split at h
  · cases h
  · next hcount =>
    split at h
    · cases h
    · next e heap hheap =>
      refine ⟨e, heap, hheap, not_le.1 hcount, ?_⟩
      split at h
      · next hstale =>
        refine Or.inl ⟨?_, (Option.some.inj h).symm⟩
        rintro ⟨halive, hver⟩
        simp [halive, hver] at hstale
      · next hlive =>
        rw [Bool.or_eq_true, not_or] at hlive
        exact Or.inr ⟨by simpa using hlive.1, by simpa using hlive.2, (Option.some.inj h).symm⟩

/-- Only vertices between the ends are on the heap, and the ends are alive. -/
structure Thinning.EndsStay (parts : List (List Pt)) (s : Thinning K) : Prop where
  inner : ∀ e ∈ s.heap, 0 < e.i ∧ e.i + 1 < (partAt parts e.part).length
  first : ∀ pi, s.alive pi 0 = true
  last : ∀ pi, s.alive pi ((partAt parts pi).length - 1) = true

theorem mem_heappush {e e' : Entry K} {heap : List (Entry K)} : e' ∈ heappush e heap ↔ e' = e ∨ e' ∈ heap :=
  mem_orderedInsert _

theorem endsStay_start (parts : List (List Pt)) : (Thinning.start G parts).EndsStay parts := by
  refine ⟨?_, fun _ => rfl, fun _ => rfl⟩
  intro e he
  have hmem : ∀ entries : List (Entry K), e ∈ entries.foldr heappush [] → e ∈ entries := by
    intro entries
    induction entries with
    | nil => simp
    | cons x xs ih =>
      intro h
      rcases mem_heappush.1 h with rfl | h
      · exact mem_cons_self
      · exact mem_cons_of_mem _ (ih h)
  obtain ⟨pi, -, hpi⟩ := mem_flatMap.1 (hmem _ he)
  obtain ⟨k, hk, rfl⟩ := mem_map.1 hpi
  have := mem_range.1 hk
  simp only
  omega

theorem Thinning.EndsStay.push (h : s.EndsStay parts) (a : WithTop K) (pi : Nat) (j : Int) :
    (s.push G parts a pi j).EndsStay parts := by
  unfold Thinning.push
  split
  next hj =>
    refine ⟨?_, h.first, h.last⟩
    intro e he
    rcases mem_heappush.1 he with rfl | he
    · simp only
      omega
    · exact h.inner e he
  next => exact h

theorem Thinning.EndsStay.remove (h : s.EndsStay parts) {e : Entry K} (he : 0 < e.i)
    (hlen : e.i + 1 < (partAt parts e.part).length) : (s.remove G parts e).EndsStay parts := by
  apply Thinning.EndsStay.push
  apply Thinning.EndsStay.push
  refine ⟨h.inner, ?_, ?_⟩
  · intro pi
    simp only [setCell]
    rw [if_neg (by omega)]
    exact h.first pi
  · intro pi
    simp only [setCell]
    rw [if_neg]
    · exact h.last pi
    · rintro ⟨rfl, hi⟩
      omega

theorem Thinning.EndsStay.pass {target : Nat} {s' : Thinning K} (h : s.EndsStay parts)
    (hpass : s.pass G parts target = some s') : s'.EndsStay parts := by
  obtain ⟨e, heap, hheap, -, hs'⟩ := pass_cases G hpass
  have hpop : Thinning.EndsStay parts { s with heap } :=
    ⟨fun e' he' => h.inner e' (by rw [hheap]; exact mem_cons_of_mem _ he'), h.first, h.last⟩
  obtain ⟨hi, hlen⟩ := h.inner e (by rw [hheap]; exact mem_cons_self)
  rcases hs' with ⟨-, rfl⟩ | ⟨-, -, rfl⟩
  · exact hpop
  · exact hpop.remove G hi hlen

theorem endsStay_vwLoop (target : Nat) (h : s.EndsStay parts) : (vwLoop G parts target s).EndsStay parts := by
  revert h
  refine vwLoop_rec G parts target (motive := fun s => s.EndsStay parts → (vwLoop G parts target s).EndsStay parts) ?_ ?_ s
  · intro s hs h
    rw [vwLoop_eq, hs]
    exact h
  · intro s s' hs ih h
    rw [vwLoop_eq, hs]
    exact ih (h.pass G hs)

theorem keepsEnds_vw {target : Nat} {q : List Pt} (hq : q ∈ vw G parts target) : ∃ p ∈ parts, KeepsEnds p q := by
  obtain ⟨⟨p, i⟩, hp, rfl⟩ := mem_map.1 hq
  have hget : parts[i]? = some p := mk_mem_zipIdx_iff_getElem?.1 hp
  have hat : partAt parts i = p := by
    rw [partAt, getD_eq_getElem?_getD, hget]
    rfl
  have hstay := endsStay_vwLoop G target (endsStay_start G parts)
  refine ⟨p, mem_of_getElem? hget, keepsEnds_filter p _ (hstay.first i) ?_⟩
  have hlast := hstay.last i
  rwa [hat] at hlast

end Removal

/-! ## What is drawn -/

section Drawn

variable {Pt K : Type} [DecidableEq Pt]

variable {ps : List (List Pt)}

theorem mem_drawn {q : List Pt} : q ∈ drawn ps ↔ ∃ p ∈ ps, dedupeConsecutive p = q ∧ 2 ≤ q.length := by
  rw [drawn, mem_filter, mem_map, decide_eq_true_eq]
  constructor
  · rintro ⟨⟨p, hp, hq⟩, hlen⟩
    exact ⟨p, hp, hq, hlen⟩
  · rintro ⟨p, hp, hq, hlen⟩
    exact ⟨⟨p, hp, hq⟩, hlen⟩

/-- A part as it is after rounding: no two neighbours are equal, and there are two points. -/
structure Geometry.Clean (G : Geometry Pt K) (q : List Pt) : Prop where
  rounded : ∀ x ∈ q, G.round x = x
  deduped : dedupeConsecutive q = q
  two : 2 ≤ q.length

variable {G : Geometry Pt K}

theorem keepsEnds_rounded {parts : List (List Pt)} {q : List Pt} (h : q ∈ G.rounded parts) :
    (∃ p ∈ parts, KeepsEnds (p.map G.round) q) ∧ G.Clean q := by
  obtain ⟨p', hp', rfl, hlen⟩ := mem_drawn.1 h
  obtain ⟨p, hp, rfl⟩ := mem_map.1 hp'
  refine ⟨⟨p, hp, keepsEnds_dedupeConsecutive _⟩, ?_, destutter_idem _ _, hlen⟩
  intro x hx
  obtain ⟨y, -, rfl⟩ := mem_map.1 ((keepsEnds_dedupeConsecutive _).sublist.mem hx)
  exact G.round_round y

theorem rounded_of_clean (h : ∀ q ∈ ps, G.Clean q) : G.rounded ps = ps := by
  have hround : ps.map (·.map G.round) = ps := by
    refine (map_congr_left fun q hq => ?_).trans (map_id ps)
    exact (map_congr_left (h q hq).rounded).trans (map_id q)
  have hdedupe : ps.map dedupeConsecutive = ps :=
    (map_congr_left fun q hq => (h q hq).deduped).trans (map_id ps)
  rw [Geometry.rounded, hround, drawn, hdedupe, filter_eq_self]
  intro q hq
  simpa using (h q hq).two

theorem toGeojson_eq_none_iff : G.toGeojson ps = none ↔ G.rounded ps = [] := by
  unfold Geometry.toGeojson
  split
  next h => simp [h]
  next h => simp [h]
  next h _ => simpa using h

theorem rounded_ne_nil {parts : List (List Pt)}
    (h : ∃ p ∈ parts, ∃ x ∈ p, ∃ y ∈ p, G.round x ≠ G.round y) : G.rounded parts ≠ [] := by
  obtain ⟨p, hp, x, hx, y, hy, hxy⟩ := h
  have hmem : dedupeConsecutive (p.map G.round) ∈ G.rounded parts :=
    mem_drawn.2 ⟨p.map G.round, mem_map_of_mem hp, rfl,
      two_le_length_dedupeConsecutive (mem_map_of_mem hx) (mem_map_of_mem hy) hxy⟩
  exact ne_nil_of_mem hmem

theorem toGeojson_pair_eq_none_iff {x y : Pt} (hx : G.round x = x) (hy : G.round y = y) :
    G.toGeojson [[x, y]] = none ↔ x = y := by
  rw [toGeojson_eq_none_iff]
  by_cases hxy : x = y
  · simp [Geometry.rounded, drawn, dedupeConsecutive, hy, hxy, destutter_pair]
  · simp [Geometry.rounded, drawn, dedupeConsecutive, hx, hy, hxy, destutter_pair]

end Drawn

/-! ## What comes back -/

section Result

variable {Pt K : Type} [DecidableEq Pt] [LinearOrder K] {G : Geometry Pt K}

/-- The lines may be drawn in place of the parts. -/
structure Geometry.Simplified (G : Geometry Pt K) (parts : List (List Pt)) (maxVertices : Nat) (maxBytes : Option Nat)
    (out : List (List Pt)) : Prop where
  nonempty : out ≠ []
  ends : ∀ q ∈ out, ∃ p ∈ parts, KeepsEnds (p.map G.round) q
  vertices : vertexCount out ≤ maxVertices
  bytes : ∀ b ∈ maxBytes, G.jsonBytes (G.toGeojson out) ≤ b
  drawable : G.toGeojson out ≠ none

/-- The parts that are thinned, the longest in front. -/
def Geometry.kept (G : Geometry Pt K) (parts : List (List Pt)) (maxVertices : Nat) : List (List Pt) :=
  match G.longestFirst (G.rounded parts) with
  | [] => []
  | longest :: others => longest :: dropShortest maxVertices others

/-- Thinned to the target, the parts leave something to draw within the caps. -/
def Geometry.Meets (G : Geometry Pt K) (maxVertices : Nat) (maxBytes : Option Nat) (ps : List (List Pt))
    (target : Nat) : Prop :=
  2 * ps.length ≤ target ∧ G.thinned ps target ≠ [] ∧ G.fits maxVertices maxBytes (G.thinned ps target) = true

variable {ps : List (List Pt)}

theorem clean_thinned (h : ∀ p ∈ ps, G.Clean p) {target : Nat} {q : List Pt}
    (hq : q ∈ G.thinned ps target) : (∃ p ∈ ps, KeepsEnds p q) ∧ G.Clean q := by
  obtain ⟨q', hq', rfl, hlen⟩ := mem_drawn.1 hq
  obtain ⟨p, hp, hpq⟩ := keepsEnds_vw G hq'
  have hends := hpq.trans (keepsEnds_dedupeConsecutive q')
  exact ⟨⟨p, hp, hends⟩, fun x hx => (h p hp).rounded x (hends.sublist.mem hx), destutter_idem _ _, hlen⟩

omit [DecidableEq Pt] in
theorem mem_longestFirst {q : List Pt} : q ∈ G.longestFirst ps ↔ q ∈ ps :=
  mem_insertionSort _

omit [DecidableEq Pt] in
theorem dropShortest_subset (maxVertices : Nat) (rest : List (List Pt)) : dropShortest maxVertices rest ⊆ rest := by
  induction rest using dropShortest.induct maxVertices with
  | case1 rest hdrop ih =>
    rw [dropShortest, if_pos hdrop]
    exact List.Subset.trans ih rest.dropLast_subset
  | case2 rest hkeep =>
    rw [dropShortest, if_neg hkeep]
    exact List.Subset.refl rest

theorem shrink_le (t : Nat) : shrink t ≤ t := by
  unfold shrink
  omega

theorem shrinkLoop_cases (G : Geometry Pt K) (maxVertices : Nat) (maxBytes : Option Nat) (longest : List Pt)
    (rest : List (List Pt)) (target : Nat) :
    (∃ n, G.Meets maxVertices maxBytes (longest :: rest) (shrink^[n] target) ∧
      G.shrinkLoop maxVertices maxBytes longest rest target = G.thinned (longest :: rest) (shrink^[n] target)) ∨
    ((∀ n, ¬G.Meets maxVertices maxBytes (longest :: rest) (shrink^[n] target)) ∧
      G.shrinkLoop maxVertices maxBytes longest rest target = [longest.head?.toList ++ longest.getLast?.toList]) := by
  induction target using Nat.strong_induction_on with
  | _ target ih =>
    rw [Geometry.shrinkLoop]
    by_cases hgo : 2 * (rest.length + 1) ≤ target
    · rw [if_pos hgo]
      by_cases hout : G.thinned (longest :: rest) target ≠ [] ∧
          G.fits maxVertices maxBytes (G.thinned (longest :: rest) target)
      · rw [if_pos hout]
        exact Or.inl ⟨0, ⟨hgo, hout.1, hout.2⟩, rfl⟩
      · rw [if_neg hout]
        have hlt : shrink target < target := by
          unfold shrink
          omega
        rcases ih (shrink target) hlt with ⟨n, hn, heq⟩ | ⟨hnone, heq⟩
        · exact Or.inl ⟨n + 1, hn, heq⟩
        · refine Or.inr ⟨?_, heq⟩
          intro n
          cases n with
          | zero => exact fun hmeets => hout hmeets.2
          | succ n => exact hnone n
    · rw [if_neg hgo]
      refine Or.inr ⟨?_, rfl⟩
      rintro n ⟨hn, -⟩
      have hle : shrink^[n] target ≤ target := Function.iterate_le_id_of_le_id shrink_le n target
      rw [length_cons] at hn
      omega

variable {parts : List (List Pt)} {maxVertices : Nat} {maxBytes : Option Nat}

omit [LinearOrder K] in
theorem fits_iff : G.fits maxVertices maxBytes ps = true ↔
    vertexCount ps ≤ maxVertices ∧ ∀ b ∈ maxBytes, G.jsonBytes (G.toGeojson ps) ≤ b := by
  rw [Geometry.fits, Bool.and_eq_true, decide_eq_true_eq]
  cases maxBytes with
  | none => simp
  | some b => simp

theorem simplified_of_clean {out : List (List Pt)} (hne : out ≠ [])
    (hends : ∀ q ∈ out, ∃ p ∈ parts, KeepsEnds (p.map G.round) q) (hclean : ∀ q ∈ out, G.Clean q)
    (hfits : G.fits maxVertices maxBytes out = true) : G.Simplified parts maxVertices maxBytes out := by
  obtain ⟨hcount, hbytes⟩ := fits_iff.1 hfits
  refine ⟨hne, hends, hcount, hbytes, ?_⟩
  rw [Ne, toGeojson_eq_none_iff, rounded_of_clean hclean]
  exact hne

omit [LinearOrder K] in
theorem simplified_ends_iff (hmv : 2 ≤ maxVertices)
    (hmb : ∀ b ∈ maxBytes, ∀ p ∈ parts, ∀ x ∈ p.head?, ∀ y ∈ p.getLast?, G.jsonBytes (G.toGeojson [[x, y]]) ≤ b)
    {q : List Pt} (hq : q ∈ G.rounded parts) :
    G.Simplified parts maxVertices maxBytes [q.head?.toList ++ q.getLast?.toList] ↔ q.head? ≠ q.getLast? := by
  obtain ⟨⟨p, hp, hends⟩, hclean⟩ := keepsEnds_rounded hq
  cases p with
  | nil =>
    have := hclean.two
    rw [eq_nil_of_sublist_nil hends.sublist] at this
    simp at this
  | cons x t =>
    -- the ends are those of an input part, rounded
    obtain ⟨y, hy⟩ : ∃ y, (x :: t).getLast? = some y := ⟨_, List.getLast?_eq_getLast_of_ne_nil (by simp)⟩
    have hfirst : q.head? = some (G.round x) := hends.first
    have hlast : q.getLast? = some (G.round y) := by
      rw [hends.last, List.getLast?_map, hy]
      rfl
    rw [hfirst, hlast]
    show G.Simplified parts maxVertices maxBytes [[G.round x, G.round y]] ↔ _
    have hdraw := toGeojson_pair_eq_none_iff (G := G) (G.round_round x) (G.round_round y)
    constructor
    · intro h heq
      exact h.drawable (hdraw.2 (Option.some.inj heq))
    · intro hne
      refine ⟨by simp, ?_, by simpa [vertexCount] using hmv, ?_, fun h => hne (congrArg some (hdraw.1 h))⟩
      · intro q' hq'
        obtain rfl := mem_singleton.1 hq'
        refine ⟨x :: t, hp, ?_, rfl, ?_⟩
        · refine List.Sublist.trans ?_ hends.sublist
          cases q with
          | nil => simp at hfirst
          | cons z r =>
            obtain rfl : z = G.round x := by simpa using hfirst
            cases r with
            | nil => exact absurd hclean.two (by simp)
            | cons w r =>
              rw [List.getLast?_cons_cons] at hlast
              exact List.Sublist.cons_cons _ (singleton_sublist.2 (mem_of_getLast? hlast))
        · rw [← hends.last, hlast]
          rfl
      · intro b hb
        have hsize := hmb b hb (x :: t) hp x rfl y hy
        have hsame : G.toGeojson [[G.round x, G.round y]] = G.toGeojson [[x, y]] := by
          simp [Geometry.toGeojson, Geometry.rounded, G.round_round]
        rw [hsame]
        exact hsize

/-- **What `simplify` returns can stand for the line** exactly when the rounded line fits the caps as it is, or its
longest part does not end where it starts, or one of the targets tried leaves something to draw within the caps.
Otherwise what is left is the one point at which the longest part starts and ends. -/
theorem simplify_drawable_iff (G : Geometry Pt K) (parts : List (List Pt)) (maxVertices : Nat) (maxBytes : Option Nat)
    (hparts : ∃ p ∈ parts, ∃ x ∈ p, ∃ y ∈ p, G.round x ≠ G.round y) (hmv : 2 ≤ maxVertices)
    (hmb : ∀ b ∈ maxBytes, ∀ p ∈ parts, ∀ x ∈ p.head?, ∀ y ∈ p.getLast?, G.jsonBytes (G.toGeojson [[x, y]]) ≤ b) :
    G.Simplified parts maxVertices maxBytes (G.simplify parts maxVertices maxBytes) ↔
      G.fits maxVertices maxBytes (G.rounded parts) = true ∨
      (∃ longest ∈ (G.longestFirst (G.rounded parts)).head?, longest.head? ≠ longest.getLast?) ∨
      ∃ n, G.Meets maxVertices maxBytes (G.kept parts maxVertices)
        (shrink^[n] (firstTarget maxVertices maxBytes (G.kept parts maxVertices).length)) := by
  have hne := rounded_ne_nil hparts
  rw [Geometry.simplify, if_neg hne]
  by_cases hfits : G.fits maxVertices maxBytes (G.rounded parts) = true
  · rw [if_pos hfits]
    refine iff_of_true ?_ (Or.inl hfits)
    exact simplified_of_clean hne (fun q hq => (keepsEnds_rounded hq).1) (fun q hq => (keepsEnds_rounded hq).2) hfits
  rw [if_neg hfits]
  cases hsort : G.longestFirst (G.rounded parts) with
  | nil =>
    obtain ⟨q, hq⟩ := exists_mem_of_ne_nil _ hne
    have := mem_longestFirst (G := G).2 hq
    rw [hsort] at this
    cases this
  | cons longest others =>
    have hlongest : longest ∈ G.rounded parts := mem_longestFirst.1 (by rw [hsort]; exact mem_cons_self)
    have hkept : G.kept parts maxVertices = longest :: dropShortest maxVertices others := by
      rw [Geometry.kept, hsort]
    have hrounded : ∀ p ∈ longest :: dropShortest maxVertices others, p ∈ G.rounded parts := by
      intro p hp
      refine mem_longestFirst (G := G).1 ?_
      rw [hsort]
      rcases List.mem_cons.1 hp with rfl | hp
      · exact mem_cons_self
      · exact mem_cons_of_mem _ (dropShortest_subset _ _ hp)
    rw [hkept]
    simp only [length_cons, hfits, Bool.false_eq_true, false_or, List.head?_cons, Option.mem_def,
      Option.some.injEq, exists_eq_left']
    rcases shrinkLoop_cases G maxVertices maxBytes longest (dropShortest maxVertices others)
        (firstTarget maxVertices maxBytes ((dropShortest maxVertices others).length + 1))
      with ⟨n, hmeets, heq⟩ | ⟨hnone, heq⟩
    · rw [heq]
      refine iff_of_true ?_ (Or.inr ⟨n, hmeets⟩)
      have hclean : ∀ p ∈ longest :: dropShortest maxVertices others, G.Clean p :=
        fun p hp => (keepsEnds_rounded (hrounded p hp)).2
      refine simplified_of_clean hmeets.2.1 ?_ (fun q hq => (clean_thinned hclean hq).2) hmeets.2.2
      intro q hq
      obtain ⟨p, hp, hpq⟩ := (clean_thinned hclean hq).1
      obtain ⟨p', hp', hends⟩ := (keepsEnds_rounded (hrounded p hp)).1
      exact ⟨p', hp', hends.trans hpq⟩
    · rw [heq, simplified_ends_iff hmv hmb hlongest]
      exact ⟨Or.inl, fun h => h.resolve_right fun ⟨n, hn⟩ => hnone n hn⟩

end Result

/-! A plane in which coordinates are whole hundred-thousandths of a degree. -/

def plane : Geometry (Int × Int) Nat where
  round p := p
  round_round _ := rfl
  lengthKm part := ((part.zip part.tail).map fun s => (s.2.1 - s.1.1).natAbs + (s.2.2 - s.1.2).natAbs).sum
  triangle _ a b c := ((b.1 - a.1) * (c.2 - a.2) - (c.1 - a.1) * (b.2 - a.2)).natAbs
  pointText p := "[" ++ toString p.1 ++ "e-05, " ++ toString p.2 ++ "e-05]"

def loop : List (Int × Int) := [(0, 0), (4000, 0), (0, 3000), (0, 0)]

theorem loop_drawn_with_three : (∃ p ∈ [loop], ∃ x ∈ p, ∃ y ∈ p, plane.round x ≠ plane.round y) ∧
      plane.Simplified [loop] 3 none (plane.simplify [loop] 3 none) := by
  refine ⟨⟨loop, mem_cons_self, (0, 0), by decide, (4000, 0), by decide, by decide⟩, ?_⟩
  refine (simplify_drawable_iff plane [loop] 3 none ⟨loop, mem_cons_self, (0, 0), by decide, (4000, 0),
    by decide, by decide⟩ (by decide) (by simp)).2 (Or.inr (Or.inr ⟨0, ?_⟩))
  unfold Geometry.Meets
  decide +kernel

/-- A closed loop under the smallest cap: nothing is drawn. -/
theorem loop_not_drawn : (∃ p ∈ [loop], ∃ x ∈ p, ∃ y ∈ p, plane.round x ≠ plane.round y) ∧
    ¬plane.Simplified [loop] 2 none (plane.simplify [loop] 2 none) := by
  refine ⟨⟨loop, mem_cons_self, (0, 0), by decide, (4000, 0), by decide, by decide⟩, ?_⟩
  intro h
  have hnone : (plane.toGeojson (plane.simplify [loop] 2 none)).isNone = true := by decide +kernel
  exact h.drawable (Option.isNone_iff_eq_none.1 hnone)

end CisApp.Places.Lines
