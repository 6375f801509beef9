import CisApp.Lib.Decimal
import CisApp.Routes.Derive

/-!
# How runs of days are cut

`derive_routes` splits the moments of a tour at the empty days (`runs`), cuts the
days of each run into blocks (`cutDays`) and keeps the blocks that are a journey.

* `runs_spec`: a run holds every moment of an interval of days, with an empty day
  on both sides.
* `cutDays_short`, `cutDays_long`: up to six days stay together, of more the first
  five are cut off.  So the blocks of an interval are intervals (`tiled_cutDays`).
* `spans_tiles`: the spans of a tour are what it holds on a list of intervals.

`deriveRoutes_cuts` reads the rules of `derive_routes` off these intervals.
-/

namespace CisApp.Routes

open Lib List

theorem related_or {α : Type} {R : α → α → Prop} {l : List α} (h : l.Pairwise R) {a b : α} (ha : a ∈ l) (hb : b ∈ l)
    (hne : a ≠ b) : R a b ∨ R b a := by
  have hsymm : Std.Symm fun x y => R x y ∨ R y x := ⟨fun _ _ => Or.symm⟩
  exact (h.imp (S := fun x y => R x y ∨ R y x) Or.inl).forall ha hb hne

/-! ## Intervals -/

def daysBetween (a b : Int) : List Int := (List.range (b + 1 - a).toNat).map fun i : Nat => a + i

variable {a b : Int}

theorem mem_daysBetween {d : Int} : d ∈ daysBetween a b ↔ a ≤ d ∧ d ≤ b := by
  unfold daysBetween
  rw [mem_map]
  constructor
  · rintro ⟨i, hi, rfl⟩
    rw [mem_range] at hi
    omega
  · rintro ⟨ha, hb⟩
    refine ⟨(d - a).toNat, mem_range.2 (by omega), by omega⟩

theorem length_daysBetween (a b : Int) : (daysBetween a b).length = (b + 1 - a).toNat := by
  rw [daysBetween, length_map, length_range]

theorem daysBetween_sorted (a b : Int) : (daysBetween a b).Pairwise (· < ·) := by
  refine pairwise_map.2 (pairwise_lt_range.imp ?_)
  intro i j hij
  omega

theorem take_daysBetween {n : Nat} (h : a + n ≤ b + 1) : (daysBetween a b).take n = daysBetween a (a + n - 1) := by
  unfold daysBetween
  rw [← map_take, take_range]
  congr 2
  omega

theorem drop_daysBetween {n : Nat} (h : a + n ≤ b + 1) : (daysBetween a b).drop n = daysBetween (a + n) b := by
  refine ext_getElem ?_ fun i hi hi' => ?_
  · rw [length_drop, length_daysBetween, length_daysBetween]
    omega
  · rw [getElem_drop]
    simp only [daysBetween, getElem_map, getElem_range]
    omega

/-- The intervals of the list follow each other from `a` to `b`. -/
def Tiles : Int → Int → List (Int × Int) → Prop
  | a, b, [] => a = b + 1
  | a, b, t :: ts => t.1 = a ∧ t.1 ≤ t.2 ∧ Tiles (t.2 + 1) b ts

theorem Tiles.bounds {ts : List (Int × Int)} (h : Tiles a b ts) : a ≤ b + 1 ∧ ∀ t ∈ ts, a ≤ t.1 ∧ t.1 ≤ t.2 ∧ t.2 ≤ b := by
  induction ts generalizing a with
  | nil =>
    exact ⟨h.le, fun t ht => absurd ht not_mem_nil⟩
  | cons t ts ih =>
    obtain ⟨rfl, hle, hrest⟩ := h
    obtain ⟨hend, hin⟩ := ih hrest
    refine ⟨by omega, fun u hu => ?_⟩
    rcases mem_cons.1 hu with rfl | hu
    · omega
    · have := hin u hu
      omega

theorem Tiles.pairwise {ts : List (Int × Int)} (h : Tiles a b ts) : ts.Pairwise fun t u => t.2 < u.1 := by
  induction ts generalizing a with
  | nil => exact List.Pairwise.nil
  | cons t ts ih =>
    obtain ⟨rfl, -, hrest⟩ := h
    refine pairwise_cons.2 ⟨fun u hu => ?_, ih hrest⟩
    have := hrest.bounds.2 u hu
    omega

/-! ## Blocks of days -/

def blocks (days : List Int) : List (List Int) :=
  (List.range ((days.length + mostDays - 1) / mostDays)).map fun i => (days.drop (i * mostDays)).take mostDays

variable {days : List Int}

theorem blocks_cons (h : mostDays < days.length) : blocks days = days.take mostDays :: blocks (days.drop mostDays) := by
  have hcount : (days.length + mostDays - 1) / mostDays =
      ((days.drop mostDays).length + mostDays - 1) / mostDays + 1 := by
    rw [length_drop]
    unfold mostDays at h ⊢
    omega
  unfold blocks
  rw [hcount, range_succ_eq_map, map_cons, map_map]
  refine congrArg₂ List.cons ?_ ?_
  · rw [Nat.zero_mul, drop_zero]
  · refine map_congr_left fun i _ => ?_
    show (days.drop ((i + 1) * mostDays)).take mostDays = _
    rw [drop_drop, Nat.succ_mul, Nat.add_comm]

theorem blocks_single (h : 0 < days.length) (h' : days.length ≤ mostDays) : blocks days = [days] := by
  have hcount : (days.length + mostDays - 1) / mostDays = 1 := by
    unfold mostDays at h' ⊢
    omega
  unfold blocks
  rw [hcount]
  show [(days.drop (0 * mostDays)).take mostDays] = _
  rw [Nat.zero_mul, drop_zero, take_of_length_le h']

theorem cutDays_eq (days : List Int) : cutDays days =
    match (blocks days).reverse with
    | last :: before :: rest => if last.length < leastDays then rest.reverse ++ [before ++ last] else blocks days
    | _ => blocks days := rfl

theorem cutDays_short (h : 0 < days.length) (h' : days.length ≤ mostDays + 1) : cutDays days = [days] := by
  by_cases hone : days.length ≤ mostDays
  · rw [cutDays_eq, blocks_single h hone]
    rfl
  · -- the sixth day is alone and joins the first five
    have hlen : (days.drop mostDays).length = 1 := by
      rw [length_drop]
      omega
    rw [cutDays_eq, blocks_cons (by omega), blocks_single (by omega) (by rw [hlen]; decide)]
    show (if (days.drop mostDays).length < leastDays then [] ++ [days.take mostDays ++ days.drop mostDays] else _) = _
    rw [hlen, if_pos (by decide), take_append_drop]
    rfl

theorem blocks_ne_nil (h : 0 < days.length) : blocks days ≠ [] := by
  intro hnil
  have hlen := congrArg List.length hnil
  unfold blocks at hlen
  rw [length_map, length_range, length_nil] at hlen
  unfold mostDays at hlen
  omega

theorem cutDays_long (h : mostDays + 1 < days.length) :
    cutDays days = days.take mostDays :: cutDays (days.drop mostDays) := by
  have hcons := blocks_cons (show mostDays < days.length by omega)
  have hlen : (days.drop mostDays).length = days.length - mostDays := length_drop
  rw [cutDays_eq, cutDays_eq (days.drop mostDays), hcons, reverse_cons]
  rcases hrev : (blocks (days.drop mostDays)).reverse with _ | ⟨last, _ | ⟨before, rest⟩⟩
  · exact absurd (reverse_eq_nil_iff.1 hrev) (blocks_ne_nil (by omega))
  · -- one block of at least two days
    have hblocks : blocks (days.drop mostDays) = [last] := by
      rw [← reverse_reverse (blocks _), hrev]
      rfl
    have hsmall : days.length - mostDays ≤ mostDays := by
      have hcount := congrArg List.length hblocks
      unfold blocks at hcount
      rw [length_map, length_range, hlen, length_singleton] at hcount
      unfold mostDays at hcount h ⊢
      omega
    have hlast : last = days.drop mostDays := by
      rw [blocks_single (by omega) (by omega)] at hblocks
      exact (List.cons.inj hblocks).1.symm
    show (if last.length < leastDays then _ else _) = _
    rw [hlast, if_neg (by rw [hlen]; unfold leastDays; omega)]
  · show (if last.length < leastDays then (rest ++ [days.take mostDays]).reverse ++ [before ++ last] else _) = _
    rw [reverse_append]
    dsimp only
    split <;> rfl

theorem tiled_cutDays (hab : a ≤ b) : ∃ ts, cutDays (daysBetween a b) = ts.map (fun t => daysBetween t.1 t.2) ∧
    Tiles a b ts ∧ ∀ t ∈ ts, t.2 + 1 - t.1 ≤ mostDays + 1 ∧ (a < b → leastDays ≤ t.2 + 1 - t.1) := by
  obtain ⟨n, hn⟩ : ∃ n : Nat, (b + 1 - a).toNat = n := ⟨_, rfl⟩
  induction n using Nat.strong_induction_on generalizing a with
  | _ n ih =>
    by_cases hshort : n ≤ mostDays + 1
    · refine ⟨[(a, b)], ?_, ⟨rfl, hab, rfl⟩, fun t ht => ?_⟩
      · rw [cutDays_short (by rw [length_daysBetween]; omega) (by rw [length_daysBetween]; omega)]
        rfl
      · rw [mem_singleton.1 ht]
        unfold leastDays
        omega
    · have hfar : a + mostDays < b := by
        omega
      obtain ⟨ts, hcut, htiles, hsizes⟩ := ih (b + 1 - (a + mostDays)).toNat
        (by unfold mostDays at hshort ⊢; push_cast; omega) hfar.le rfl
      refine ⟨(a, a + mostDays - 1) :: ts, ?_, ⟨rfl, ?_, ?_⟩, fun t ht => ?_⟩
      · rw [cutDays_long (by rw [length_daysBetween]; omega), take_daysBetween (by omega), drop_daysBetween (by omega), hcut]
        rfl
      · show a ≤ a + mostDays - 1
        unfold mostDays
        omega
      · show Tiles (a + mostDays - 1 + 1) b ts
        rw [Int.sub_add_cancel]
        exact htiles
      · rcases mem_cons.1 ht with rfl | ht
        · unfold leastDays mostDays
          omega
        · exact ⟨(hsizes t ht).1, fun _ => (hsizes t ht).2 hfar⟩

/-! ## Runs -/

/-- The days of the moments are those from `a` to `b`. -/
structure Covers (run : List Moment) (a b : Int) : Prop where
  le : a ≤ b
  days : ∀ d, (∃ m ∈ run, m.day = d) ↔ a ≤ d ∧ d ≤ b

/-- Runs in order, each of an interval of days, and an empty day between any two. -/
structure Runs (held : List Moment) (out : List (List Moment)) : Prop where
  flat : out.flatten = held
  covers : ∀ run ∈ out, ∃ a b, Covers run a b
  apart : out.Pairwise fun x y => ∀ a ∈ x, ∀ b ∈ y, a.day + 1 < b.day

theorem covers_singleton (m : Moment) : Covers [m] m.day m.day := by
  refine ⟨le_refl _, fun d => ?_⟩
  constructor
  · rintro ⟨x, hx, rfl⟩
    rw [mem_singleton.1 hx]
    exact ⟨le_refl _, le_refl _⟩
  · rintro ⟨hle, hge⟩
    exact ⟨m, mem_cons_self, le_antisymm hle hge⟩

variable {run : List Moment}

theorem Covers.concat (h : Covers run a b) {m : Moment} (hle : b ≤ m.day)
    (hnear : m.day - b ≤ 1) : Covers (run ++ [m]) a m.day := by
  have hab := h.le
  refine ⟨by omega, fun d => ?_⟩
  constructor
  · rintro ⟨x, hx, rfl⟩
    rcases mem_append.1 hx with hx | hx
    · have := (h.days x.day).1 ⟨x, hx, rfl⟩
      omega
    · rw [mem_singleton.1 hx]
      omega
  · rintro ⟨ha, hd⟩
    by_cases hin : d ≤ b
    · obtain ⟨x, hx, hday⟩ := (h.days d).2 ⟨ha, hin⟩
      exact ⟨x, mem_append_left _ hx, hday⟩
    · exact ⟨m, mem_append_right _ mem_cons_self, by omega⟩

theorem runs_concat (held : List Moment) (m : Moment) : runs (held ++ [m]) =
    match (runs held).getLast?.bind fun run => run.getLast? with
    | some last =>
      if m.day - last.day ≤ 1 then (runs held).dropLast ++ [(runs held).getLast?.getD [] ++ [m]] else runs held ++ [[m]]
    | none => runs held ++ [[m]] := by
  unfold runs
  exact foldl_concat ..

variable {held : List Moment}

theorem runs_spec (hsorted : held.Pairwise fun x y => x.day ≤ y.day) : Runs held (runs held) := by
  induction held using List.reverseRecOn with
  | nil => exact ⟨rfl, fun run hrun => absurd hrun not_mem_nil, List.Pairwise.nil⟩
  | append_singleton held m ih =>
    obtain ⟨hheld, -, hlast⟩ := pairwise_append.1 hsorted
    replace ih := ih hheld
    have hle : ∀ x ∈ held, x.day ≤ m.day := fun x hx => hlast x hx m mem_cons_self
    rw [runs_concat]
    rcases eq_nil_or_concat' (runs held) with hnil | ⟨init, last, hout⟩
    · have hempty : held = [] := by
        rw [← ih.flat, hnil]
        rfl
      rw [hnil, hempty]
      refine ⟨rfl, fun run hrun => ?_, pairwise_singleton _ _⟩
      rw [mem_singleton.1 hrun]
      exact ⟨_, _, covers_singleton m⟩
    · rw [hout] at ih ⊢
      obtain ⟨a, b, hcov⟩ := ih.covers last (mem_append_right _ mem_cons_self)
      obtain ⟨hinit, -, hapart⟩ := pairwise_append.1 ih.apart
      have hflat : init.flatten ++ last = held := by
        rw [← ih.flat, flatten_append, flatten_singleton]
      have hne : last ≠ [] := by
        rintro rfl
        obtain ⟨x, hx, -⟩ := (hcov.days a).2 ⟨le_refl a, hcov.le⟩
        cases hx
      -- the last moment so far is of the last day
      have hday : (last.getLast hne).day = b := by
        obtain ⟨x, hx, hxb⟩ := (hcov.days b).2 ⟨hcov.le, le_refl b⟩
        have hup := (hcov.days _).1 ⟨_, getLast_mem hne, rfl⟩
        have hpair : last.Pairwise fun x y => x.day ≤ y.day := by
          rw [← hflat] at hheld
          exact (pairwise_append.1 hheld).2.1
        rw [← dropLast_append_getLast hne] at hpair hx
        rcases mem_append.1 hx with hx | hx
        · have := (pairwise_append.1 hpair).2.2 x hx _ mem_cons_self
          omega
        · rw [← hxb, mem_singleton.1 hx]
      have hbm : b ≤ m.day := by
        rw [← hday]
        refine hle _ ?_
        rw [← hflat]
        exact mem_append_right _ (getLast_mem hne)
      rw [List.getLast?_concat, Option.bind_some, List.getLast?_eq_getLast_of_ne_nil hne]
      dsimp only
      split
      · next hnear =>
        rw [hday] at hnear
        rw [dropLast_concat, Option.getD_some]
        refine ⟨?_, fun run hrun => ?_, pairwise_append.2 ⟨hinit, pairwise_singleton _ _, ?_⟩⟩
        · rw [flatten_append, flatten_singleton, ← append_assoc, hflat]
        · rcases mem_append.1 hrun with hrun | hrun
          · exact ih.covers run (mem_append_left _ hrun)
          · rw [mem_singleton.1 hrun]
            exact ⟨a, m.day, hcov.concat hbm hnear⟩
        · intro run hrun run' hrun' x hx y hy
          rw [mem_singleton.1 hrun'] at hy
          rcases mem_append.1 hy with hy | hy
          · exact hapart run hrun last mem_cons_self x hx y hy
          · have := hapart run hrun last mem_cons_self x hx _ (getLast_mem hne)
            rw [mem_singleton.1 hy]
            omega
      · next hfar =>
        refine ⟨?_, fun run hrun => ?_, pairwise_append.2 ⟨ih.apart, pairwise_singleton _ _, ?_⟩⟩
        · rw [flatten_append, ih.flat, flatten_singleton]
        · rcases mem_append.1 hrun with hrun | hrun
          · exact ih.covers run hrun
          · rw [mem_singleton.1 hrun]
            exact ⟨_, _, covers_singleton m⟩
        · intro run hrun run' hrun' x hx y hy
          rw [mem_singleton.1 hrun'] at hy
          rw [mem_singleton.1 hy]
          rcases mem_append.1 hrun with hrun | hrun
          · have := hapart run hrun last mem_cons_self x hx _ (getLast_mem hne)
            omega
          · rw [mem_singleton.1 hrun] at hx
            have := (hcov.days x.day).1 ⟨x, hx, rfl⟩
            omega

/-! ## Spans -/

def onDays (held : List Moment) (t : Int × Int) : List Moment := held.filter fun m => t.1 ≤ m.day && m.day ≤ t.2

variable {t : Int × Int}

theorem mem_onDays {m : Moment} : m ∈ onDays held t ↔ m ∈ held ∧ t.1 ≤ m.day ∧ m.day ≤ t.2 := by
  rw [onDays, mem_filter, Bool.and_eq_true, decide_eq_true_eq, decide_eq_true_eq]

theorem days_of_covers (h : Covers run a b) : sortBy id (run.map Moment.day).dedup = daysBetween a b := by
  have hmem : ∀ d, d ∈ sortBy id (run.map Moment.day).dedup ↔ d ∈ daysBetween a b := by
    intro d
    rw [mem_sortBy, mem_dedup, mem_map, mem_daysBetween]
    exact h.days d
  have hnodup : (sortBy id (run.map Moment.day).dedup).Nodup :=
    (sortBy_perm id _).nodup_iff.2 (nodup_dedup _)
  have hperm := (perm_ext_iff_of_nodup hnodup ((daysBetween_sorted a b).imp ne_of_lt)).2 hmem
  refine List.Perm.eq_of_pairwise ?_ (sortBy_pairwise id _) ((daysBetween_sorted a b).imp le_of_lt) hperm
  intro x y _ _ hxy hyx
  exact le_antisymm hxy hyx

theorem run_tiles (h : Covers run a b) :
    ∃ ts, (cutDays (sortBy id (run.map Moment.day).dedup)).map (fun cut => run.filter fun m => m.day ∈ cut) =
        ts.map (onDays run) ∧
      Tiles a b ts ∧ ∀ t ∈ ts, t.2 + 1 - t.1 ≤ mostDays + 1 ∧ (a < b → leastDays ≤ t.2 + 1 - t.1) := by
  obtain ⟨ts, hcut, htiles, hsizes⟩ := tiled_cutDays h.le
  refine ⟨ts, ?_, htiles, hsizes⟩
  rw [days_of_covers h, hcut, map_map]
  refine map_congr_left fun t _ => filter_congr fun m _ => ?_
  rw [Bool.eq_iff_iff, decide_eq_true_eq, Bool.and_eq_true, decide_eq_true_eq, decide_eq_true_eq]
  exact mem_daysBetween

theorem spans_tiles {out : List (List Moment)} (h : Runs held out) :
    ∃ ts : List (Int × Int), spans out = ts.map (onDays held) ∧ ts.Pairwise (fun t u => t.2 < u.1) ∧
      (∀ t ∈ ts, t.1 ≤ t.2 ∧ t.2 + 1 - t.1 ≤ mostDays + 1 ∧ ∀ d, t.1 ≤ d → d ≤ t.2 → ∃ m ∈ held, m.day = d) ∧
      ∀ run ∈ out, ∀ a b, Covers run a b → a < b → ∃ l, Tiles a b l ∧ ∀ t ∈ l, t ∈ ts ∧ leastDays ≤ t.2 + 1 - t.1 := by
  induction out generalizing held with
  | nil => exact ⟨[], rfl, List.Pairwise.nil, fun t ht => absurd ht not_mem_nil,
      fun run hrun => absurd hrun not_mem_nil⟩
  | cons run out ih =>
    obtain ⟨hfirst, hapart⟩ := pairwise_cons.1 h.apart
    have hflat : run ++ out.flatten = held := h.flat
    obtain ⟨a, b, hcov⟩ := h.covers run mem_cons_self
    obtain ⟨ts, hts, htiles, hsizes⟩ := run_tiles hcov
    obtain ⟨us, hus, hpair, hin, hcover⟩ := ih ⟨rfl, fun r hr => h.covers r (mem_cons_of_mem _ hr), hapart⟩
    -- the later runs are of later days
    have hlate : ∀ m ∈ out.flatten, b + 1 < m.day := by
      intro m hm
      obtain ⟨run', hrun', hm⟩ := mem_flatten.1 hm
      obtain ⟨x, hx, rfl⟩ := (hcov.days b).2 ⟨hcov.le, le_refl b⟩
      exact hfirst run' hrun' x hx m hm
    have hbefore : ∀ t ∈ ts, onDays held t = onDays run t := by
      intro t ht
      have hbound := htiles.bounds.2 t ht
      have hnone : out.flatten.filter (fun m => t.1 ≤ m.day && m.day ≤ t.2) = [] := by
        refine filter_eq_nil_iff.2 fun m hm => ?_
        have := hlate m hm
        rw [Bool.and_eq_true, decide_eq_true_eq, decide_eq_true_eq]
        omega
      rw [← hflat, onDays, filter_append, hnone, append_nil]
      rfl
    have hstart : ∀ u ∈ us, b + 1 < u.1 := by
      intro u hu
      obtain ⟨hle, -, hdays⟩ := hin u hu
      obtain ⟨m, hm, hday⟩ := hdays u.1 (le_refl _) hle
      rw [← hday]
      exact hlate m hm
    have hafter : ∀ u ∈ us, onDays held u = onDays out.flatten u := by
      intro u hu
      have := hstart u hu
      have hnone : run.filter (fun m => u.1 ≤ m.day && m.day ≤ u.2) = [] := by
        refine filter_eq_nil_iff.2 fun m hm => ?_
        have := (hcov.days m.day).1 ⟨m, hm, rfl⟩
        rw [Bool.and_eq_true, decide_eq_true_eq, decide_eq_true_eq]
        omega
      rw [← hflat, onDays, filter_append, hnone, nil_append]
      rfl
    refine ⟨ts ++ us, ?_, pairwise_append.2 ⟨htiles.pairwise, hpair, ?_⟩, ?_, ?_⟩
    · have hcons : spans (run :: out) =
          (cutDays (sortBy id (run.map Moment.day).dedup)).map (fun cut => run.filter fun m => m.day ∈ cut) ++
            spans out := rfl
      rw [hcons, hts, hus, map_append, map_congr_left hbefore, map_congr_left hafter]
    · intro t ht u hu
      have hbound := htiles.bounds.2 t ht
      have := hstart u hu
      omega
    · intro t ht
      rcases mem_append.1 ht with ht | ht
      · obtain ⟨ha, hle, hb⟩ := htiles.bounds.2 t ht
        refine ⟨hle, (hsizes t ht).1, fun d hd hd' => ?_⟩
        obtain ⟨m, hm, hday⟩ := (hcov.days d).2 ⟨by omega, by omega⟩
        exact ⟨m, hflat ▸ mem_append_left _ hm, hday⟩
      · obtain ⟨hle, hsize, hdays⟩ := hin t ht
        refine ⟨hle, hsize, fun d hd hd' => ?_⟩
        obtain ⟨m, hm, hday⟩ := hdays d hd hd'
        exact ⟨m, hflat ▸ mem_append_right _ hm, hday⟩
    · intro run' hrun' a' b' hcov' hlt
      rcases mem_cons.1 hrun' with rfl | hrun'
      · have heq : a' = a ∧ b' = b := by
          have ha := (hcov.days a').1 ((hcov'.days a').2 ⟨le_refl _, hcov'.le⟩)
          have hb := (hcov.days b').1 ((hcov'.days b').2 ⟨hcov'.le, le_refl _⟩)
          have ha' := (hcov'.days a).1 ((hcov.days a).2 ⟨le_refl _, hcov.le⟩)
          have hb' := (hcov'.days b).1 ((hcov.days b).2 ⟨hcov.le, le_refl _⟩)
          omega
        obtain ⟨rfl, rfl⟩ := heq
        exact ⟨ts, htiles, fun t ht => ⟨mem_append_left _ ht, (hsizes t ht).2 hlt⟩⟩
      · obtain ⟨l, hl, hmem⟩ := hcover run' hrun' a' b' hcov' hlt
        exact ⟨l, hl, fun t ht => ⟨mem_append_right _ (hmem t ht).1, (hmem t ht).2⟩⟩

/-! ## Routes -/

variable {span : List Moment}

theorem length_days (h : Covers span t.1 t.2) : ((span.map Moment.day).dedup.length : Int) = t.2 + 1 - t.1 := by
  have hlen := congrArg List.length (days_of_covers h)
  rw [(sortBy_perm id _).length_eq, length_daysBetween] at hlen
  have := h.le
  omega

theorem route?_of_covers (tour : String) (h : Covers span t.1 t.2) :
    route? tour span =
      if t.2 + 1 - t.1 < leastDays ∨ (span.map Moment.place).eraseDups.length < leastPlaces then none
      else some { tourId := tour, firstDay := t.1, lastDay := t.2, segmentIds := span.map Moment.segmentId
                  places := (span.map Moment.place).eraseDups } := by
  have hmem : ∀ d, d ∈ (span.map Moment.day).dedup ↔ t.1 ≤ d ∧ d ≤ t.2 := by
    intro d
    rw [mem_dedup, mem_map]
    exact h.days d
  have hle := h.le
  have hmin : (span.map Moment.day).dedup.min? = some t.1 :=
    List.min?_eq_some_iff.2 ⟨(hmem _).2 ⟨le_refl _, hle⟩, fun d hd => ((hmem d).1 hd).1⟩
  have hmax : (span.map Moment.day).dedup.max? = some t.2 :=
    List.max?_eq_some_iff.2 ⟨(hmem _).2 ⟨hle, le_refl _⟩, fun d hd => ((hmem d).1 hd).2⟩
  have hlen := length_days h
  have hiff : (span.map Moment.day).dedup.length < leastDays ↔ t.2 + 1 - t.1 < leastDays := by
    rw [← hlen]
    exact Nat.cast_lt.symm
  unfold route?
  dsimp only
  rw [hmin, hmax]
  by_cases hshort : t.2 + 1 - t.1 < leastDays ∨ (span.map Moment.place).eraseDups.length < leastPlaces
  · rw [if_pos hshort, if_pos]
    rw [Bool.or_eq_true, decide_eq_true_eq, decide_eq_true_eq, hiff]
    exact hshort
  · rw [if_neg hshort, if_neg]
    rw [Bool.or_eq_true, decide_eq_true_eq, decide_eq_true_eq, hiff]
    exact hshort

theorem one_place (h : (span.map Moment.place).eraseDups.length < leastPlaces) : ∃ p, ∀ m ∈ span, m.place = p := by
  have hmem : ∀ m ∈ span, m.place ∈ (span.map Moment.place).eraseDups := fun m hm =>
    mem_eraseDups.2 (mem_map_of_mem hm)
  rcases hp : (span.map Moment.place).eraseDups with _ | ⟨p, _ | ⟨q, ps⟩⟩
  · refine ⟨"", fun m hm => ?_⟩
    have := hmem m hm
    rw [hp] at this
    cases this
  · refine ⟨p, fun m hm => ?_⟩
    have := hmem m hm
    rw [hp] at this
    exact mem_singleton.1 this
  · rw [hp] at h
    unfold leastPlaces at h
    simp at h

theorem two_places {l : List String} (h : leastPlaces ≤ l.eraseDups.length) :
    ∃ p ∈ l.eraseDups, ∃ q ∈ l.eraseDups, p ≠ q := by
  unfold leastPlaces at h
  cases l with
  | nil => simp at h
  | cons p l =>
    rw [eraseDups_cons] at h ⊢
    rcases hrest : (l.filter fun b => !b == p).eraseDups with _ | ⟨q, qs⟩
    · rw [hrest] at h
      simp at h
    · refine ⟨p, mem_cons_self, q, mem_cons_of_mem _ mem_cons_self, ?_⟩
      have hq : q ∈ (l.filter fun b => !b == p).eraseDups := by
        rw [hrest]
        exact mem_cons_self
      have hne := (mem_filter.1 (mem_eraseDups.1 hq)).2
      rintro rfl
      simp at hne

def Ranked (moments : List Moment) (tour : String) (d : Int) : Prop := ∃ m ∈ moments, m.tourId = tour ∧ m.day = d

def within (moments : List Moment) (tour : String) (t : Int × Int) : List Moment :=
  moments.filter fun m => m.tourId = tour && (t.1 ≤ m.day && m.day ≤ t.2)

structure MaximalRun (moments : List Moment) (tour : String) (a b : Int) : Prop where
  le : a ≤ b
  days : ∀ d, a ≤ d → d ≤ b → Ranked moments tour d
  before : ¬Ranked moments tour (a - 1)
  after : ¬Ranked moments tour (b + 1)

/-- A Route is what its tour holds on a few consecutive days, at more than one place. -/
structure Journey (moments : List Moment) (r : Route) : Prop where
  days : ∀ d, r.firstDay ≤ d → d ≤ r.lastDay → Ranked moments r.tourId d
  least : leastDays ≤ r.lastDay + 1 - r.firstDay
  most : r.lastDay + 1 - r.firstDay ≤ mostDays + 1
  segments : r.segmentIds =
    (sortBy Moment.order (within moments r.tourId (r.firstDay, r.lastDay))).map Moment.segmentId
  mem_places : ∀ p, p ∈ r.places ↔ ∃ m ∈ within moments r.tourId (r.firstDay, r.lastDay), m.place = p
  places : ∃ p ∈ r.places, ∃ q ∈ r.places, p ≠ q

section tour

variable {moments : List Moment} {tour : String}

theorem mem_heldBy {m : Moment} : m ∈ heldBy moments tour ↔ m ∈ moments ∧ m.tourId = tour := by
  rw [heldBy, mem_sortBy, mem_filter, decide_eq_true_eq]

theorem ranked_iff {d : Int} : Ranked moments tour d ↔ ∃ m ∈ heldBy moments tour, m.day = d := by
  constructor
  · rintro ⟨m, hm, ht, hd⟩
    exact ⟨m, mem_heldBy.2 ⟨hm, ht⟩, hd⟩
  · rintro ⟨m, hm, hd⟩
    obtain ⟨hm, ht⟩ := mem_heldBy.1 hm
    exact ⟨m, hm, ht, hd⟩

theorem heldBy_days (moments : List Moment) (tour : String) : (heldBy moments tour).Pairwise fun x y => x.day ≤ y.day := by
  refine (sortBy_pairwise Moment.order _).imp ?_
  intro x y hxy
  rcases Prod.Lex.le_iff.1 hxy with hlt | ⟨heq, -⟩
  · exact le_of_lt hlt
  · exact le_of_eq heq

theorem mem_within {t : Int × Int} {m : Moment} : m ∈ within moments tour t ↔ m ∈ onDays (heldBy moments tour) t := by
  rw [within, mem_filter, mem_onDays, mem_heldBy]
  simp only [Bool.and_eq_true, decide_eq_true_eq, and_assoc]

theorem onDays_perm (moments : List Moment) (tour : String) (t : Int × Int) :
    (onDays (heldBy moments tour) t).Perm (within moments tour t) := by
  have hfilter : within moments tour t = onDays (moments.filter fun m => m.tourId = tour) t := by
    rw [within, onDays, filter_filter]
    refine filter_congr fun m _ => ?_
    rw [Bool.and_comm]
  rw [hfilter]
  exact (sortBy_perm Moment.order _).filter _

theorem segments_onDays (moments : List Moment) (tour : String) (t : Int × Int) :
    (onDays (heldBy moments tour) t).map Moment.segmentId =
      (sortBy Moment.order (within moments tour t)).map Moment.segmentId := by
  have hkeys : (onDays (heldBy moments tour) t).map Moment.order =
      (sortBy Moment.order (within moments tour t)).map Moment.order := by
    refine List.Perm.eq_of_pairwise ?_ ?_ (pairwise_map.2 (sortBy_pairwise Moment.order _))
      (((onDays_perm moments tour t).trans (sortBy_perm Moment.order _).symm).map _)
    · intro x y _ _ hxy hyx
      exact le_antisymm hxy hyx
    · exact pairwise_map.2 ((sortBy_pairwise Moment.order _).filter _)
  have hsegment := congrArg (List.map fun k : Int ×ₗ String => (ofLex k).2) hkeys
  rw [map_map, map_map] at hsegment
  exact hsegment

theorem tour_tiles (moments : List Moment) (tour : String) :
    ∃ ts : List (Int × Int), tourRoutes moments tour = ts.filterMap (fun t => route? tour (onDays (heldBy moments tour) t)) ∧
      ts.Pairwise (fun t u => t.2 < u.1) ∧
      (∀ t ∈ ts, Covers (onDays (heldBy moments tour) t) t.1 t.2 ∧ t.2 + 1 - t.1 ≤ mostDays + 1) ∧
      ∀ a b, MaximalRun moments tour a b → a < b → ∃ l, Tiles a b l ∧ ∀ t ∈ l, t ∈ ts ∧ leastDays ≤ t.2 + 1 - t.1 := by
  have hruns := runs_spec (heldBy_days moments tour)
  obtain ⟨ts, hspans, hpair, hin, hcover⟩ := spans_tiles hruns
  refine ⟨ts, ?_, hpair, fun t ht => ?_, fun a b hmax hlt => ?_⟩
  · rw [tourRoutes, hspans, filterMap_map]
    rfl
  · obtain ⟨hle, hsize, hdays⟩ := hin t ht
    refine ⟨⟨hle, fun d => ?_⟩, hsize⟩
    constructor
    · rintro ⟨m, hm, rfl⟩
      exact (mem_onDays.1 hm).2
    · rintro ⟨ha, hb⟩
      obtain ⟨m, hm, hday⟩ := hdays d ha hb
      exact ⟨m, mem_onDays.2 ⟨hm, by omega⟩, hday⟩
  · -- the run that has the first day
    obtain ⟨m, hm, hma⟩ := ranked_iff.1 (hmax.days a (le_refl a) hmax.le)
    rw [← hruns.flat] at hm
    obtain ⟨run, hrun, hm⟩ := mem_flatten.1 hm
    obtain ⟨x, y, hcov⟩ := hruns.covers run hrun
    have hranked : ∀ d, x ≤ d → d ≤ y → Ranked moments tour d := by
      intro d hd hd'
      obtain ⟨n, hn, hday⟩ := (hcov.days d).2 ⟨hd, hd'⟩
      refine ranked_iff.2 ⟨n, ?_, hday⟩
      rw [← hruns.flat]
      exact mem_flatten.2 ⟨run, hrun, hn⟩
    -- around it nothing is ranked
    have hborder : ∀ d, Ranked moments tour d → x - 1 ≤ d → d ≤ y + 1 → x ≤ d ∧ d ≤ y := by
      intro d hd hxd hdy
      obtain ⟨n, hn, rfl⟩ := ranked_iff.1 hd
      rw [← hruns.flat] at hn
      obtain ⟨run', hrun', hn⟩ := mem_flatten.1 hn
      by_cases heq : run' = run
      · subst heq
        exact (hcov.days n.day).1 ⟨n, hn, rfl⟩
      · exfalso
        obtain ⟨mx, hmx, hmxd⟩ := (hcov.days x).2 ⟨le_refl x, hcov.le⟩
        obtain ⟨my, hmy, hmyd⟩ := (hcov.days y).2 ⟨hcov.le, le_refl y⟩
        rcases related_or hruns.apart hrun' hrun heq with hlate | hlate
        · have := hlate n hn mx hmx
          omega
        · have := hlate my hmy n hn
          omega
    have hax := (hcov.days a).1 ⟨m, hm, hma⟩
    have hxa : x = a := by
      by_contra hne
      exact hmax.before (hranked (a - 1) (by omega) (by omega))
    have hyb : y = b := by
      by_contra hne
      rcases lt_or_gt_of_ne hne with hlt' | hlt'
      · have := hborder (y + 1) (hmax.days (y + 1) (by omega) (by omega)) (by omega) (le_refl _)
        omega
      · exact hmax.after (hranked (b + 1) (by have := hmax.le; omega) (by omega))
    subst hxa hyb
    exact hcover run hrun x y hcov hlt

end tour

/-! ## The rules of `derive_routes` -/

section rules

variable {moments : List Moment} {tour : String}

variable {r : Route}

theorem tourId_of_mem (h : r ∈ tourRoutes moments tour) : r.tourId = tour := by
  obtain ⟨span, -, hroute⟩ := mem_filterMap.1 h
  unfold route? at hroute
  dsimp only at hroute
  split at hroute
  · cases hroute
  · split at hroute
    · rw [← Option.some.inj hroute]
    · cases hroute

theorem mem_deriveRoutes : r ∈ deriveRoutes moments ↔ r ∈ tourRoutes moments r.tourId := by
  unfold deriveRoutes
  rw [mem_sortBy, mem_flatMap]
  constructor
  · rintro ⟨tour, -, hr⟩
    rw [tourId_of_mem hr]
    exact hr
  · intro hr
    refine ⟨r.tourId, ?_, hr⟩
    rw [mem_sortBy, mem_dedup, mem_map]
    -- a tour with a Route has moments
    obtain ⟨ts, hroutes, -, hts, -⟩ := tour_tiles moments r.tourId
    rw [hroutes] at hr
    obtain ⟨t, ht, -⟩ := mem_filterMap.1 hr
    obtain ⟨hcov, -⟩ := hts t ht
    obtain ⟨m, hm, -⟩ := (hcov.days t.1).2 ⟨le_refl _, hcov.le⟩
    exact ⟨m, mem_heldBy.1 (mem_onDays.1 hm).1⟩

theorem routes_of_tour (moments : List Moment) (tour : String) :
    ((deriveRoutes moments).filter fun r => r.tourId = tour).Perm (tourRoutes moments tour) := by
  have hperm : ((deriveRoutes moments).filter fun r => r.tourId = tour).Perm
      (((sortBy id (moments.map Moment.tourId).dedup).flatMap (tourRoutes moments)).filter fun r => r.tourId = tour) :=
    (sortBy_perm Route.routeId _).filter _
  have hnodup : (sortBy id (moments.map Moment.tourId).dedup).Nodup :=
    (sortBy_perm id _).nodup_iff.2 (nodup_dedup _)
  refine hperm.trans (List.Perm.of_eq ?_)
  rw [filter_flatMap]
  have hone : ∀ t, (tourRoutes moments t).filter (fun r => r.tourId = tour) =
      if t = tour then tourRoutes moments t else [] := by
    intro t
    split
    · next heq => exact filter_eq_self.2 fun r hr => decide_eq_true ((tourId_of_mem hr).trans heq)
    · next hne =>
      refine filter_eq_nil_iff.2 fun r hr => ?_
      rw [decide_eq_true_eq, tourId_of_mem hr]
      exact hne
  simp only [hone]
  by_cases hin : tour ∈ sortBy id (moments.map Moment.tourId).dedup
  · obtain ⟨l, l', hl⟩ := append_of_mem hin
    rw [hl] at hnodup ⊢
    have hother : ∀ t ∈ l ++ l', t ≠ tour := by
      rintro t ht rfl
      rw [nodup_append, nodup_cons] at hnodup
      rcases mem_append.1 ht with ht | ht
      · exact hnodup.2.2 t ht t mem_cons_self rfl
      · exact hnodup.2.1.1 ht
    rw [flatMap_append, flatMap_cons, if_pos rfl, flatMap_eq_nil_iff.2, flatMap_eq_nil_iff.2]
    · rw [append_nil, nil_append]
    · intro t ht
      rw [if_neg (hother t (mem_append_right _ ht))]
    · intro t ht
      rw [if_neg (hother t (mem_append_left _ ht))]
  · -- a tour without moments
    have hempty : tourRoutes moments tour = [] := by
      refine eq_nil_iff_forall_not_mem.2 fun r hr => hin ?_
      have hmem : r ∈ deriveRoutes moments := mem_deriveRoutes.2 (by rw [tourId_of_mem hr]; exact hr)
      unfold deriveRoutes at hmem
      rw [mem_sortBy, mem_flatMap] at hmem
      obtain ⟨t, ht, hrt⟩ := hmem
      rw [← tourId_of_mem hr, tourId_of_mem hrt]
      exact ht
    rw [hempty]
    refine flatMap_eq_nil_iff.2 fun t ht => ?_
    rw [if_neg]
    rintro rfl
    exact hin ht

theorem routeId_toList (r : Route) :
    r.routeId.toList = r.tourId.toList ++ ':' :: (intText r.firstDay ++ '-' :: intText r.lastDay) := by
  unfold Route.routeId intText
  simp

theorem days_of_routeId {s : Route} (htour : r.tourId = s.tourId) (h : r.routeId = s.routeId) :
    r.firstDay = s.firstDay ∧ r.lastDay = s.lastDay := by
  have hlist := congrArg String.toList h
  rw [routeId_toList, routeId_toList, htour] at hlist
  obtain ⟨hfirst, hlast⟩ := intText_dash_inj (List.cons.inj (append_cancel_left hlist)).2
  exact ⟨hfirst, intText_inj hlast⟩

theorem journey_of_mem (h : r ∈ deriveRoutes moments) : Journey moments r := by
  obtain ⟨ts, hroutes, -, hts, -⟩ := tour_tiles moments r.tourId
  have hmem := mem_deriveRoutes.1 h
  rw [hroutes] at hmem
  obtain ⟨t, ht, hroute⟩ := mem_filterMap.1 hmem
  obtain ⟨hcov, hsize⟩ := hts t ht
  rw [route?_of_covers _ hcov] at hroute
  split at hroute
  · cases hroute
  · next hlong =>
    rw [not_or, not_lt, not_lt] at hlong
    have heq := Option.some.inj hroute
    have hfirst : r.firstDay = t.1 := by rw [← heq]
    have hlast : r.lastDay = t.2 := by rw [← heq]
    have hplaces : ∀ p, p ∈ r.places ↔ ∃ m ∈ within moments r.tourId (r.firstDay, r.lastDay), m.place = p := by
      intro p
      rw [hfirst, hlast, ← heq]
      rw [mem_eraseDups, mem_map]
      simp only [mem_within]
    refine ⟨fun d hd hd' => ?_, ?_, ?_, ?_, hplaces, ?_⟩
    · obtain ⟨m, hm, hday⟩ := (hcov.days d).2 ⟨by omega, by omega⟩
      exact ranked_iff.2 ⟨m, (mem_onDays.1 hm).1, hday⟩
    · rw [hfirst, hlast]
      exact hlong.1
    · rw [hfirst, hlast]
      exact hsize
    · rw [hfirst, hlast, ← segments_onDays, ← heq]
    · rw [← heq]
      exact two_places hlong.2

theorem routes_apart (moments : List Moment) (tour : String) :
    ((deriveRoutes moments).filter fun r => r.tourId = tour).Pairwise fun r s =>
      (r.lastDay < s.firstDay ∨ s.lastDay < r.firstDay) ∧ r.routeId ≠ s.routeId := by
  -- the relation is symmetric, so the order of the Routes does not matter
  refine (List.Perm.pairwise_iff ?_ (routes_of_tour moments tour)).2 ?_
  · rintro r s ⟨hdays, hid⟩
    exact ⟨hdays.symm, hid.symm⟩
  · obtain ⟨ts, hroutes, hpair, hts, -⟩ := tour_tiles moments tour
    rw [hroutes]
    refine List.Pairwise.filterMap _ ?_ (hpair.imp_of_mem (S := fun t u => t ∈ ts ∧ u ∈ ts ∧ t.2 < u.1) ?_)
    · rintro t u ⟨ht, hu, hlt⟩ r hr s hs
      obtain ⟨hcov, -⟩ := hts t ht
      obtain ⟨hcov', -⟩ := hts u hu
      rw [route?_of_covers _ hcov] at hr
      rw [route?_of_covers _ hcov'] at hs
      split at hr
      · cases hr
      · split at hs
        · cases hs
        · have hle := hcov.le
          have hr := Option.some.inj hr
          have hs := Option.some.inj hs
          rw [← hr, ← hs]
          refine ⟨Or.inl hlt, fun hid => ?_⟩
          obtain ⟨hfirst, -⟩ := days_of_routeId (by rfl) hid
          dsimp only at hfirst
          omega
    · intro t u ht hu hlt
      exact ⟨ht, hu, hlt⟩

theorem eq_of_days {s : Route} (hr : r ∈ deriveRoutes moments) (hs : s ∈ deriveRoutes moments) (htour : r.tourId = s.tourId)
    (hfirst : r.firstDay = s.firstDay) (hlast : r.lastDay = s.lastDay) : r = s := by
  by_contra hne
  have hmem : ∀ {x : Route}, x ∈ deriveRoutes moments → x.tourId = s.tourId →
      x ∈ (deriveRoutes moments).filter fun r => r.tourId = s.tourId := fun hx ht =>
    mem_filter.2 ⟨hx, decide_eq_true ht⟩
  have hleast := (journey_of_mem hr).least
  unfold leastDays at hleast
  rcases related_or (routes_apart moments s.tourId) (hmem hr htour) (hmem hs rfl) hne with ⟨hdays, -⟩ | ⟨hdays, -⟩
  · omega
  · omega

/-- Whatever the moments: the Routes of a tour are on disjoint days under distinct ids; each is a `Journey`; and a run of
two days or more is cut into spans of two to six days, of which only those at one place are no Routes. -/
theorem deriveRoutes_cuts (moments : List Moment) :
    (∀ tour, ((deriveRoutes moments).filter fun r => r.tourId = tour).Pairwise fun r s =>
        (r.lastDay < s.firstDay ∨ s.lastDay < r.firstDay) ∧ r.routeId ≠ s.routeId) ∧
      (∀ r ∈ deriveRoutes moments, Journey moments r) ∧
      ∀ tour a b, MaximalRun moments tour a b → a < b → ∃ ts, Tiles a b ts ∧
        ∀ t ∈ ts, leastDays ≤ t.2 + 1 - t.1 ∧ t.2 + 1 - t.1 ≤ mostDays + 1 ∧
          ((∃ r ∈ deriveRoutes moments, r.tourId = tour ∧ r.firstDay = t.1 ∧ r.lastDay = t.2) ∨
            ∃ p, ∀ m ∈ within moments tour t, m.place = p) := by
  refine ⟨fun tour => ?_, fun r hr => journey_of_mem hr, fun tour a b hmax hlt => ?_⟩
  · exact routes_apart moments tour
  · obtain ⟨ts, hroutes, -, hts, hcover⟩ := tour_tiles moments tour
    obtain ⟨l, hl, hmem⟩ := hcover a b hmax hlt
    refine ⟨l, hl, fun t ht => ?_⟩
    obtain ⟨htts, hleast⟩ := hmem t ht
    obtain ⟨hcov, hsize⟩ := hts t htts
    refine ⟨hleast, hsize, ?_⟩
    by_cases hplaces : ((onDays (heldBy moments tour) t).map Moment.place).eraseDups.length < leastPlaces
    · obtain ⟨p, hp⟩ := one_place hplaces
      exact Or.inr ⟨p, fun m hm => hp m (mem_within.1 hm)⟩
    · left
      have hroute := route?_of_covers tour hcov
      rw [if_neg (not_or.2 ⟨not_lt.2 hleast, hplaces⟩)] at hroute
      have hin : _ ∈ tourRoutes moments tour := hroutes ▸ List.mem_filterMap.2 ⟨t, htts, hroute⟩
      exact ⟨_, mem_deriveRoutes.2 hin, rfl, rfl, rfl⟩

end rules

end CisApp.Routes
