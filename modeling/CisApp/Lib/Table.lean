import Mathlib

/-!
# Keyed tables with guarded updates

A `Table κ ρ` is a finite list of rows with distinct keys.  The key stands
beside the row, so no update can change it and the distinctness is kept by
construction.  `update p f` is one `UPDATE … SET f WHERE p` statement: it
rewrites every row that matches `p`, all at once.  `insert` is an `INSERT` that
does nothing when the key is taken.  `matching p` is what `RETURNING id` gives.

Every operation is described by what `get?` reads afterwards (`get?_update`,
`get?_insert`), so an invariant of the rows (`All`) is proved row by row.
-/

namespace CisApp

open List

/-- Pairs of texts, the keys of many tables. -/
instance lawfulBEq_texts : LawfulBEq (String × String) := inferInstance

structure Table (κ ρ : Type) where
  rows : List (κ × ρ)
  nodup : (rows.map Prod.fst).Nodup

namespace Table

variable {κ ρ : Type} [DecidableEq κ]

omit [DecidableEq κ] in
def empty : Table κ ρ := ⟨[], List.nodup_nil⟩

/-- The row stored under `k`. -/
def get? (t : Table κ ρ) (k : κ) : Option ρ := t.rows.lookup k

omit [DecidableEq κ] in
/-- One statement `UPDATE … SET f WHERE p`. -/
def update (t : Table κ ρ) (p : κ → ρ → Bool) (f : κ → ρ → ρ) : Table κ ρ :=
  ⟨t.rows.map fun x => (x.1, if p x.1 x.2 then f x.1 x.2 else x.2), by
    rw [List.map_map]
    exact t.nodup⟩

/-- One `INSERT`, nothing when the key is taken. -/
def insert (t : Table κ ρ) (k : κ) (r : ρ) : Table κ ρ :=
  if h : k ∈ t.rows.map Prod.fst then t
  else ⟨t.rows ++ [(k, r)], by
    rw [List.map_append, List.nodup_append]
    refine ⟨t.nodup, by simp, fun a ha b hb => ?_⟩
    simp only [List.map_cons, List.map_nil, List.mem_singleton] at hb
    rintro rfl
    exact h (hb ▸ ha)⟩

/-- `INSERT … ON CONFLICT DO UPDATE`, or the assignment of a dict: the row of `k` is
replaced where it stands, a new key comes last. -/
def upsert (t : Table κ ρ) (k : κ) (r : ρ) : Table κ ρ :=
  (t.update (fun k' _ => k' = k) fun _ _ => r).insert k r

omit [DecidableEq κ] in
/-- The rows that match `p` are deleted. -/
def delete (t : Table κ ρ) (p : κ → ρ → Bool) : Table κ ρ :=
  ⟨t.rows.filter fun x => !p x.1 x.2, t.nodup.sublist (List.filter_sublist.map _)⟩

omit [DecidableEq κ] in

omit [DecidableEq κ] in
/-- The keys of the rows that match `p`. -/
def matching (t : Table κ ρ) (p : κ → ρ → Bool) : List κ :=
  (t.rows.filter fun x => p x.1 x.2).map Prod.fst

omit [DecidableEq κ] in
/-- The number of rows that match `p`. -/
def count (t : Table κ ρ) (p : κ → ρ → Bool) : Nat := t.rows.countP fun x => p x.1 x.2

/-- The first of the entries under `le` (the head of a stable sort). -/
def firstBy {α : Type} (le : α → α → Bool) : List α → Option α
  | [] => none
  | a :: l =>
    match firstBy le l with
    | none => some a
    | some b => if le a b then some a else some b

omit [DecidableEq κ] in
/-- The row of `SELECT … WHERE p ORDER BY le LIMIT 1`. -/
def first? (t : Table κ ρ) (le : ρ → ρ → Bool) (p : κ → ρ → Bool) : Option (κ × ρ) :=
  firstBy (fun x y => le x.2 y.2) (t.rows.filter fun x => p x.1 x.2)

/-! ## Reading back -/

theorem lookup_eq_some_iff {l : List (κ × ρ)} (h : (l.map Prod.fst).Nodup) {k : κ} {r : ρ} :
    l.lookup k = some r ↔ (k, r) ∈ l := by
  induction l with
  | nil => simp
  | cons x l ih =>
    obtain ⟨k', r'⟩ := x
    simp only [map_cons, nodup_cons] at h
    rw [lookup_cons, mem_cons]
    by_cases hk : k = k'
    · subst hk
      have hnot : (k, r) ∉ l := fun hm => h.1 (List.mem_map.2 ⟨_, hm, rfl⟩)
      simp [hnot, eq_comm]
    · simp only [beq_eq_false_iff_ne.2 hk, ih h.2, Prod.mk.injEq, hk, false_and, false_or]

theorem get?_eq_some_iff (t : Table κ ρ) (k : κ) (r : ρ) : t.get? k = some r ↔ (k, r) ∈ t.rows := lookup_eq_some_iff t.nodup

theorem get?_eq_none_iff (t : Table κ ρ) (k : κ) : t.get? k = none ↔ k ∉ t.rows.map Prod.fst := by
  rw [← not_iff_not, not_not, ← ne_eq, Option.ne_none_iff_exists', mem_map]
  constructor
  · rintro ⟨r, hr⟩
    exact ⟨(k, r), (get?_eq_some_iff t k r).1 hr, rfl⟩
  · rintro ⟨⟨k', r⟩, hm, rfl⟩
    exact ⟨r, (get?_eq_some_iff t k' r).2 hm⟩

@[simp] theorem get?_update (t : Table κ ρ) (p : κ → ρ → Bool) (f : κ → ρ → ρ) (k : κ) :
    (t.update p f).get? k = (t.get? k).map fun r => if p k r then f k r else r := by
  apply Option.ext
  intro r
  rw [get?_eq_some_iff, Option.map_eq_some_iff]
  simp only [update, mem_map, Prod.mk.injEq]
  constructor
  · rintro ⟨⟨k', r'⟩, hm, rfl, rfl⟩
    exact ⟨r', (get?_eq_some_iff t k' r').2 hm, rfl⟩
  · rintro ⟨r', hr, rfl⟩
    exact ⟨(k, r'), (get?_eq_some_iff t k r').1 hr, rfl, rfl⟩

theorem get?_insert (t : Table κ ρ) (k k' : κ) (r : ρ) : (t.insert k r).get? k' =
      if k' = k ∧ t.get? k = none then some r else t.get? k' := by
  unfold insert
  by_cases h : k ∈ t.rows.map Prod.fst
  · rw [dif_pos h, if_neg]
    rintro ⟨-, hn⟩
    exact (get?_eq_none_iff t k).1 hn h
  · have hn := (get?_eq_none_iff t k).2 h
    rw [dif_neg h]
    apply Option.ext
    intro r'
    rw [get?_eq_some_iff, mem_append, mem_singleton, Prod.mk.injEq]
    by_cases hk : k' = k
    · subst hk
      rw [← get?_eq_some_iff, hn, if_pos ⟨rfl, rfl⟩]
      simp [eq_comm]
    · rw [if_neg (fun h => hk h.1), ← get?_eq_some_iff]
      simp [hk]

@[simp] theorem get?_upsert (t : Table κ ρ) (k k' : κ) (r : ρ) :
    (t.upsert k r).get? k' = if k' = k then some r else t.get? k' := by
  unfold upsert
  rw [get?_insert, get?_update, get?_update]
  by_cases hk : k' = k
  · subst hk
    cases t.get? k' <;> simp
  · cases t.get? k' <;> simp [hk]

variable {t : Table κ ρ}

theorem upsert_of_get? {k : κ} {r : ρ} (h : t.get? k = some r) : t.upsert k r = t := by
  have hmem := (get?_eq_some_iff t k r).1 h
  have hupdate : t.update (fun k' _ => k' = k) (fun _ _ => r) = t := by
    unfold update
    congr 1
    conv_rhs => rw [← map_id t.rows]
    refine map_congr_left fun x hx => ?_
    by_cases hk : x.1 = k
    · have hx' : (k, x.2) ∈ t.rows := by rw [← hk]; exact hx
      have : x.2 = r := by
        have := (get?_eq_some_iff t k x.2).2 hx'
        rw [h] at this
        exact (Option.some.inj this).symm
      rw [if_pos (by simpa using hk), ← this]
      rfl
    · rw [if_neg (by simpa using hk)]
      rfl
  unfold upsert
  rw [hupdate]
  unfold insert
  rw [dif_pos (mem_map_of_mem hmem)]

@[simp] theorem get?_delete (t : Table κ ρ) (p : κ → ρ → Bool) (k : κ) :
    (t.delete p).get? k = (t.get? k).filter fun r => !p k r := by
  apply Option.ext
  intro r
  rw [get?_eq_some_iff, Option.filter_eq_some_iff, get?_eq_some_iff]
  simp only [delete, mem_filter]

theorem mem_matching (t : Table κ ρ) (p : κ → ρ → Bool) (k : κ) :
    k ∈ t.matching p ↔ ∃ r, t.get? k = some r ∧ p k r = true := by
  unfold matching
  simp only [mem_map, mem_filter]
  constructor
  · rintro ⟨⟨k', r⟩, ⟨hm, hp⟩, rfl⟩
    exact ⟨r, (get?_eq_some_iff t k' r).2 hm, hp⟩
  · rintro ⟨r, hr, hp⟩
    exact ⟨(k, r), ⟨(get?_eq_some_iff t k r).1 hr, hp⟩, rfl⟩

omit [DecidableEq κ] in
theorem matching_nodup (t : Table κ ρ) (p : κ → ρ → Bool) : (t.matching p).Nodup :=
  t.nodup.sublist (List.filter_sublist.map _)

/-! ## Counting -/

omit [DecidableEq κ] in
theorem count_eq_length (t : Table κ ρ) (p : κ → ρ → Bool) : t.count p = (t.matching p).length := by
  simp [count, matching, countP_eq_length_filter]

variable {p : κ → ρ → Bool}

theorem count_le_succ {t' : Table κ ρ} (k₀ : κ) (h : ∀ k r', t'.get? k = some r' → p k r' = true →
      k = k₀ ∨ ∃ r, t.get? k = some r ∧ p k r = true) : t'.count p ≤ t.count p + 1 := by
  have hsub : t'.matching p ⊆ k₀ :: t.matching p := by
    intro k hk
    obtain ⟨r', hr', hp⟩ := (mem_matching t' p k).1 hk
    rcases h k r' hr' hp with rfl | hr
    · exact mem_cons_self
    · exact mem_cons_of_mem _ ((mem_matching t p k).2 hr)
  have := ((matching_nodup t' p).subperm hsub).length_le
  simpa [count_eq_length] using this

theorem count_le {t' : Table κ ρ}
    (h : ∀ k r', t'.get? k = some r' → p k r' = true → ∃ r, t.get? k = some r ∧ p k r = true) : t'.count p ≤ t.count p := by
  have hsub : t'.matching p ⊆ t.matching p := by
    intro k hk
    obtain ⟨r', hr', hp⟩ := (mem_matching t' p k).1 hk
    exact (mem_matching t p k).2 (h k r' hr' hp)
  have := ((matching_nodup t' p).subperm hsub).length_le
  simpa [count_eq_length] using this

/-- 1 when the row under `k` matches. -/
def hit (t : Table κ ρ) (p : κ → ρ → Bool) (k : κ) : Nat := if (t.get? k).any (p k) then 1 else 0

omit [DecidableEq κ] in
theorem countP_setAt [DecidableEq κ] {l : List (κ × ρ)} (hl : (l.map Prod.fst).Nodup)
    (p : κ → ρ → Bool) (k : κ) (old new : ρ) (hmem : (k, old) ∈ l) :
    (l.map fun x => (x.1, if (decide (x.1 = k)) = true then new else x.2)).countP (fun x => p x.1 x.2) +
      (if p k old then 1 else 0) = l.countP (fun x => p x.1 x.2) + if p k new then 1 else 0 := by
  induction l with
  | nil => cases hmem
  | cons x l ih =>
    obtain ⟨k', r'⟩ := x
    rw [map_cons, nodup_cons] at hl
    rw [map_cons, countP_cons, countP_cons]
    by_cases hk : k' = k
    · subst hk
      have hold : old = r' := by
        rcases List.mem_cons.1 hmem with heq | hin
        · exact (Prod.mk.inj heq).2
        · exact absurd (List.mem_map.2 ⟨_, hin, rfl⟩) hl.1
      have hrest : (l.map fun x => (x.1, if (decide (x.1 = k')) = true then new else x.2)) = l := by
        conv_rhs => rw [← map_id l]
        refine map_congr_left fun y hy => ?_
        have hne : y.1 ≠ k' := fun h => hl.1 (List.mem_map.2 ⟨y, hy, h⟩)
        simp [hne]
      rw [hrest, hold]
      simp only [decide_true, if_true]
      omega
    · have hin : (k, old) ∈ l := by
        rcases List.mem_cons.1 hmem with heq | hin
        · exact absurd (Prod.mk.inj heq).1.symm hk
        · exact hin
      have := ih hl.2 hin
      simp only [hk, decide_false, Bool.false_eq_true, if_false]
      omega

theorem count_upsert (t : Table κ ρ) (p : κ → ρ → Bool) (k : κ) (r : ρ) :
    (t.upsert k r).count p + t.hit p k = t.count p + if p k r then 1 else 0 := by
  unfold hit
  cases hk : t.get? k with
  | some old =>
    have hmem := (get?_eq_some_iff t k old).1 hk
    have hkey : k ∈ (t.update (fun k' _ => k' = k) fun _ _ => r).rows.map Prod.fst := by
      unfold update
      rw [map_map]
      exact List.mem_map.2 ⟨(k, old), hmem, rfl⟩
    unfold upsert insert
    rw [dif_pos hkey, Option.any_some]
    exact countP_setAt t.nodup p k old r hmem
  | none =>
    have hnot := (get?_eq_none_iff t k).1 hk
    have hsame : (t.update (fun k' _ => k' = k) fun _ _ => r).rows = t.rows := by
      conv_rhs => rw [← map_id t.rows]
      refine map_congr_left fun x hx => ?_
      have hne : x.1 ≠ k := fun h => hnot (List.mem_map.2 ⟨x, hx, h⟩)
      simp [hne]
    have hnot' : k ∉ (t.update (fun k' _ => k' = k) fun _ _ => r).rows.map Prod.fst := by
      rw [hsame]
      exact hnot
    unfold upsert insert
    rw [dif_neg hnot']
    simp only [count, hsame, countP_append, countP_singleton, Option.any_none,
      Bool.false_eq_true, if_false, Nat.add_zero]

theorem count_upsert_le {k : κ} {r : ρ}
    (h : p k r = true → (t.get? k).any (p k) = true) : (t.upsert k r).count p ≤ t.count p := by
  have hcount := count_upsert t p k r
  unfold hit at hcount
  by_cases hp : p k r = true
  · rw [if_pos hp, if_pos (h hp)] at hcount
    omega
  · rw [if_neg hp] at hcount
    omega

/-! ## Selecting one row -/

theorem firstBy_eq_none {α : Type} (le : α → α → Bool) (l : List α) : firstBy le l = none ↔ l = [] := by
  cases l with
  | nil => simp [firstBy]
  | cons a l =>
    simp only [firstBy, reduceCtorEq, iff_false]
    cases firstBy le l with
    | none => simp
    | some b => dsimp only; split <;> simp

theorem mem_of_firstBy {α : Type} {le : α → α → Bool} {l : List α} {a : α} (h : firstBy le l = some a) : a ∈ l := by
  induction l generalizing a with
  | nil => cases h
  | cons x l ih =>
    unfold firstBy at h
    cases hrest : firstBy le l with
    | none =>
      rw [hrest] at h
      cases h
      exact mem_cons_self
    | some b =>
      rw [hrest] at h
      dsimp only at h
      split at h
      · cases h
        exact mem_cons_self
      · cases h
        exact mem_cons_of_mem _ (ih hrest)

theorem firstBy_spec {α : Type} (le : α → α → Bool) (htot : ∀ a b, le a b = true ∨ le b a = true)
    (htrans : ∀ a b c, le a b = true → le b c = true → le a c = true) (l : List α) (a : α)
    (h : firstBy le l = some a) : a ∈ l ∧ ∀ b ∈ l, le a b = true := by
  have hrefl : ∀ a, le a a = true := fun a => (htot a a).elim id id
  induction l generalizing a with
  | nil => cases h
  | cons x l ih =>
    simp only [firstBy] at h
    cases hl : firstBy le l with
    | none =>
      rw [hl] at h
      cases h
      rw [(firstBy_eq_none le l).1 hl]
      exact ⟨List.mem_singleton.2 rfl, fun b hb => by rw [List.mem_singleton.1 hb]; exact hrefl _⟩
    | some y =>
      rw [hl] at h
      obtain ⟨hmem, hmin⟩ := ih y hl
      dsimp only at h
      split at h
      · next hxy =>
        cases h
        refine ⟨mem_cons_self, fun b hb => ?_⟩
        rcases List.mem_cons.1 hb with rfl | hb
        · exact hrefl _
        · exact htrans _ _ _ hxy (hmin b hb)
      · next hxy =>
        cases h
        refine ⟨mem_cons_of_mem _ hmem, fun b hb => ?_⟩
        rcases List.mem_cons.1 hb with rfl | hb
        · exact (htot _ _).resolve_left hxy
        · exact hmin b hb

theorem first?_spec (t : Table κ ρ) (le : ρ → ρ → Bool) (p : κ → ρ → Bool)
    (htot : ∀ a b, le a b = true ∨ le b a = true)
    (htrans : ∀ a b c, le a b = true → le b c = true → le a c = true) (k : κ) (r : ρ)
    (h : t.first? le p = some (k, r)) : t.get? k = some r ∧ p k r = true ∧
      ∀ k' r', t.get? k' = some r' → p k' r' = true → le r r' = true := by
  obtain ⟨hm, hmin⟩ := firstBy_spec _ (fun a b => htot a.2 b.2)
    (fun a b c => htrans a.2 b.2 c.2) _ _ h
  rw [mem_filter] at hm
  refine ⟨(get?_eq_some_iff t k r).2 hm.1, hm.2, fun k' r' hr' hp' => ?_⟩
  exact hmin (k', r') (List.mem_filter.2 ⟨(get?_eq_some_iff t k' r').1 hr', hp'⟩)

theorem first?_eq_none_iff (t : Table κ ρ) (le : ρ → ρ → Bool) (p : κ → ρ → Bool) :
    t.first? le p = none ↔ ∀ k r, t.get? k = some r → p k r = false := by
  unfold first?
  rw [firstBy_eq_none, filter_eq_nil_iff]
  constructor
  · intro h k r hr
    have := h (k, r) ((get?_eq_some_iff t k r).1 hr)
    simpa using this
  · intro h x hx
    have := h x.1 x.2 ((get?_eq_some_iff t x.1 x.2).2 hx)
    simpa using this

/-! ## Invariants of the rows -/

/-- Every row satisfies `P`. -/
def All (P : κ → ρ → Prop) (t : Table κ ρ) : Prop := ∀ k r, t.get? k = some r → P k r

theorem all_iff_mem {P : κ → ρ → Prop} : t.All P ↔ ∀ x ∈ t.rows, P x.1 x.2 := by
  constructor
  · intro h x hx
    exact h x.1 x.2 ((get?_eq_some_iff t x.1 x.2).2 hx)
  · intro h k r hr
    exact h (k, r) ((get?_eq_some_iff t k r).1 hr)

instance All.decidable (P : κ → ρ → Prop) [∀ k r, Decidable (P k r)] (t : Table κ ρ) :
    Decidable (t.All P) := decidable_of_iff _ all_iff_mem.symm

theorem All.empty {P : κ → ρ → Prop} : (Table.empty : Table κ ρ).All P := by
  intro k r hr
  cases hr

end Table

end CisApp
