import CisApp.Lib.Sorted
import CisApp.Lib.Table

/-!
# Grouping in a dictionary of lists

`groups key l` is `for a in l: d.setdefault(key(a), []).append(a)`: the keys in
the order they first come, each with its elements in the order of the list.

* `lookup_groups`: under `k` stand the elements with key `k`.
* `sortedGroups_perm`: with each group sorted by distinct keys, the groups of a
  permuted list are the same ones, in some order, also when the grouping keys
  are other ones that tell the same elements apart.
-/

namespace CisApp.Lib

open List

variable {α κ : Type} [DecidableEq κ]

/-- `d.setdefault(key(a), []).append(a)`. -/
def put (key : α → κ) : List (κ × List α) → α → List (κ × List α)
  | [], a => [(key a, [a])]
  | (k, g) :: d, a => if k = key a then (k, g ++ [a]) :: d else (k, g) :: put key d a

def groups (key : α → κ) (l : List α) : List (κ × List α) := l.foldl (put key) []

variable (key : α → κ)

theorem lookup_put (d : List (κ × List α)) (a : α) (k : κ) : (put key d a).lookup k =
      if k = key a then some ((d.lookup k).getD [] ++ [a]) else d.lookup k := by
  induction d with
  | nil =>
    by_cases hk : k = key a
    · simp [put, hk]
    · simp [put, hk, lookup_cons, beq_eq_false_iff_ne.2 hk]
  | cons e d ih =>
    obtain ⟨k', g⟩ := e
    unfold put
    by_cases hk' : k' = key a
    · rw [if_pos hk']
      by_cases hk : k = key a
      · simp [hk, hk']
      · have hne : k ≠ k' := fun h => hk (h.trans hk')
        simp [hk, lookup_cons, beq_eq_false_iff_ne.2 hne]
    · rw [if_neg hk']
      by_cases hkk : k = k'
      · simp [hkk, hk']
      · simp only [lookup_cons, beq_eq_false_iff_ne.2 hkk]
        exact ih

theorem put_keys (d : List (κ × List α)) (a : α) : (put key d a).map Prod.fst =
      if key a ∈ d.map Prod.fst then d.map Prod.fst else d.map Prod.fst ++ [key a] := by
  induction d with
  | nil => simp [put]
  | cons e d ih =>
    obtain ⟨k', g⟩ := e
    unfold put
    by_cases hk' : k' = key a
    · simp [hk']
    · rw [if_neg hk', map_cons, ih]
      have : key a ≠ k' := Ne.symm hk'
      by_cases hm : key a ∈ d.map Prod.fst
      · simp [hm]
      · simp [hm, this]

theorem groups_append (l : List α) (a : α) : groups key (l ++ [a]) = put key (groups key l) a := by
  simp [groups]

theorem groups_keys_nodup (l : List α) : ((groups key l).map Prod.fst).Nodup := by
  induction l using List.reverseRecOn with
  | nil => exact nodup_nil
  | append_singleton l a ih =>
    rw [groups_append, put_keys]
    by_cases hm : key a ∈ (groups key l).map Prod.fst
    · rw [if_pos hm]
      exact ih
    · rw [if_neg hm, nodup_append]
      refine ⟨ih, by simp, ?_⟩
      intro x hx y hy
      rw [mem_singleton.1 hy]
      exact fun h => hm (h ▸ hx)

theorem lookup_groups (l : List α) (k : κ) : (groups key l).lookup k =
      if ∃ a ∈ l, key a = k then some (l.filter fun a => key a = k) else none := by
  induction l using List.reverseRecOn with
  | nil => simp [groups]
  | append_singleton l a ih =>
    rw [groups_append, lookup_put, ih]
    by_cases hk : k = key a
    · have hex : ∃ b ∈ l ++ [a], key b = k := ⟨a, by simp, hk.symm⟩
      rw [if_pos hk, if_pos hex, filter_append]
      by_cases hl : ∃ b ∈ l, key b = k
      · rw [if_pos hl]
        simp [hk]
      · have hnil : l.filter (fun b => key b = k) = [] := by
          rw [filter_eq_nil_iff]
          intro b hb
          simpa using fun h => hl ⟨b, hb, h⟩
        rw [if_neg hl, hnil]
        simp [hk]
    · rw [if_neg hk, filter_append]
      have : ¬ key a = k := fun h => hk h.symm
      simp [this]

theorem mem_groups (l : List α) (e : κ × List α) :
    e ∈ groups key l ↔ (∃ a ∈ l, key a = e.1) ∧ e.2 = l.filter fun a => key a = e.1 := by
  have h := lookup_groups key l e.1
  constructor
  · intro he
    have hl := (Table.lookup_eq_some_iff (groups_keys_nodup key l)).2 he
    rw [h] at hl
    by_cases hex : ∃ a ∈ l, key a = e.1
    · rw [if_pos hex] at hl
      exact ⟨hex, (Option.some.inj hl).symm⟩
    · rw [if_neg hex] at hl
      cases hl
  · rintro ⟨hex, he⟩
    rw [if_pos hex, ← he] at h
    exact (Table.lookup_eq_some_iff (groups_keys_nodup key l)).1 h

theorem groups_flatten_perm (l : List α) : ((groups key l).flatMap Prod.snd).Perm l := by
  have hput : ∀ (d : List (κ × List α)) (a : α),
      ((put key d a).flatMap Prod.snd).Perm (d.flatMap Prod.snd ++ [a]) := by
    intro d a
    induction d with
    | nil => simp [put]
    | cons e d ih =>
      obtain ⟨k, g⟩ := e
      unfold put
      split
      · rw [flatMap_cons, flatMap_cons, append_assoc, append_assoc]
        exact perm_append_comm.append_left g
      · rw [flatMap_cons, flatMap_cons, append_assoc]
        exact ih.append_left g
  induction l using List.reverseRecOn with
  | nil => exact List.Perm.nil
  | append_singleton l a ih =>
    rw [groups_append]
    exact (hput _ a).trans (ih.append_right [a])

theorem groups_map {γ : Type} (f : γ → α) (key : α → κ) (l : List γ) :
    groups key (l.map f) = (groups (fun c => key (f c)) l).map fun e => (e.1, e.2.map f) := by
  have hput : ∀ (d : List (κ × List γ)) (c : γ),
      put key (d.map fun e => (e.1, e.2.map f)) (f c) =
        (put (fun c => key (f c)) d c).map fun e => (e.1, e.2.map f) := by
    intro d c
    induction d with
    | nil => rfl
    | cons e d ih =>
      obtain ⟨k, g⟩ := e
      simp only [map_cons, put]
      by_cases hk : k = key (f c)
      · simp [hk]
      · simp [hk, ih]
  induction l using List.reverseRecOn with
  | nil => rfl
  | append_singleton l c ih =>
    rw [map_append, map_singleton, groups_append, groups_append, ih, hput]

theorem groups_filter (p : α → Bool) {l : List α} (hp : ∀ a ∈ l, ∀ b ∈ l, key a = key b → p a = p b) :
    groups key (l.filter p) = (groups key l).filter fun e => e.2.all p := by
  induction l using List.reverseRecOn with
  | nil => rfl
  | append_singleton l a ih =>
    have hput : ∀ d : List (κ × List α), (∀ e ∈ d, e.2 ≠ [] ∧ ∀ b ∈ e.2, key b = e.1 ∧ b ∈ l) →
        (put key d a).filter (fun e => e.2.all p) =
          if p a then put key (d.filter fun e => e.2.all p) a else d.filter fun e => e.2.all p := by
      intro d hd
      induction d with
      | nil =>
        by_cases hpa : p a = true <;> simp [put, hpa]
      | cons e d ih =>
        obtain ⟨k, g⟩ := e
        have hrest := ih fun e he => hd e (mem_cons_of_mem _ he)
        obtain ⟨hne, hg⟩ := hd (k, g) mem_cons_self
        by_cases hk : k = key a
        · -- the group of the element is all of its kind
          have hall : g.all p = p a := by
            have hsame : ∀ b ∈ g, p b = p a := fun b hb =>
              hp b (mem_append_left _ (hg b hb).2) a (by simp) ((hg b hb).1.trans hk)
            cases hpa : p a with
            | true => exact List.all_eq_true.2 fun b hb => (hsame b hb).trans hpa
            | false =>
              obtain ⟨b, hb⟩ := exists_mem_of_ne_nil g hne
              refine all_eq_false.2 ⟨b, hb, ?_⟩
              rw [hsame b hb, hpa]
              exact Bool.false_ne_true
          rw [put, if_pos hk, filter_cons, filter_cons]
          simp only [all_append, all_cons, all_nil, Bool.and_true, hall, Bool.and_self]
          cases hpa : p a with
          | true => simp [put, hk]
          | false => simp
        · rw [put, if_neg hk, filter_cons, filter_cons, hrest]
          cases hpa : p a with
          | true =>
            cases hga : g.all p with
            | true => simp [put, hk]
            | false => simp
          | false => simp
    have hgroups : ∀ e ∈ groups key l, e.2 ≠ [] ∧ ∀ b ∈ e.2, key b = e.1 ∧ b ∈ l := by
      intro e he
      obtain ⟨⟨b, hb, hkey⟩, hg⟩ := (mem_groups key l e).1 he
      rw [hg]
      refine ⟨ne_nil_of_mem (mem_filter.2 ⟨hb, decide_eq_true hkey⟩), fun b' hb' => ?_⟩
      obtain ⟨hin, hkey'⟩ := mem_filter.1 hb'
      exact ⟨of_decide_eq_true hkey', hin⟩
    have ih := ih fun b hb b' hb' => hp b (mem_append_left _ hb) b' (mem_append_left _ hb')
    rw [groups_append, hput _ hgroups, filter_append, ← ih]
    by_cases hpa : p a = true
    · rw [if_pos hpa, filter_cons_of_pos hpa, filter_nil, groups_append]
    · rw [if_neg hpa, filter_cons_of_neg hpa, filter_nil, append_nil]

/-! ## Groups of a permuted list -/

variable {β : Type} [LinearOrder β]

/-- The groups, each sorted by `ord`. -/
def sortedGroups (key : α → κ) (ord : α → β) (l : List α) : List (List α) :=
  (groups key l).map fun e => sortBy ord e.2

theorem mem_sortedGroups (ord : α → β) (l : List α) (g : List α) : g ∈ sortedGroups key ord l ↔
      ∃ a ∈ l, g = sortBy ord (l.filter fun b => key b = key a) := by
  unfold sortedGroups
  rw [mem_map]
  constructor
  · rintro ⟨e, he, rfl⟩
    obtain ⟨⟨a, ha, hk⟩, hg⟩ := (mem_groups key l e).1 he
    refine ⟨a, ha, ?_⟩
    rw [hg, hk]
  · rintro ⟨a, ha, rfl⟩
    exact ⟨(key a, _), (mem_groups key l _).2 ⟨⟨a, ha, rfl⟩, rfl⟩, rfl⟩

theorem sortedGroups_unique (ord : α → β) {l g g' : List α} {a : α}
    (hg : g ∈ sortedGroups key ord l) (hg' : g' ∈ sortedGroups key ord l) (ha : a ∈ g) (ha' : a ∈ g') : g = g' := by
  obtain ⟨b, -, rfl⟩ := (mem_sortedGroups key ord l g).1 hg
  obtain ⟨b', -, rfl⟩ := (mem_sortedGroups key ord l g').1 hg'
  rw [mem_sortBy, mem_filter, decide_eq_true_eq] at ha ha'
  rw [← ha.2, ← ha'.2]

theorem sortedGroups_nodup (ord : α → β) (l : List α) : (sortedGroups key ord l).Nodup := by
  refine List.Nodup.map_on ?_ (List.Nodup.of_map Prod.fst (groups_keys_nodup key l))
  intro e he e' he' hs
  obtain ⟨⟨a, ha, hk⟩, hg⟩ := (mem_groups key l e).1 he
  obtain ⟨-, hg'⟩ := (mem_groups key l e').1 he'
  -- an element of the first group is one of the second, so the keys agree
  have hmem : a ∈ e.2 := by
    rw [hg]
    simp [ha, hk]
  have hmem' : a ∈ e'.2 := by
    rw [← mem_sortBy ord, ← hs, mem_sortBy]
    exact hmem
  rw [hg'] at hmem'
  have hkey : e.1 = e'.1 := by
    have := (mem_filter.1 hmem').2
    simp only [decide_eq_true_eq] at this
    rw [← hk, this]
  refine Prod.ext hkey ?_
  rw [hg, hg', hkey]

theorem sortedGroups_perm {κ' : Type} [DecidableEq κ'] (key' : α → κ') (ord : α → β)
    {l l' : List α} (h : l.Perm l') (hord : (l.map ord).Nodup)
    (hkey : ∀ a ∈ l, ∀ b ∈ l, key a = key b ↔ key' a = key' b) :
    (sortedGroups key ord l).Perm (sortedGroups key' ord l') := by
  rw [perm_ext_iff_of_nodup (sortedGroups_nodup key ord l) (sortedGroups_nodup key' ord l')]
  have hgroup : ∀ a ∈ l, sortBy ord (l.filter fun b => key b = key a) =
      sortBy ord (l'.filter fun b => key' b = key' a) := by
    intro a ha
    have hfilter : (l.filter fun b => decide (key b = key a)) =
        l.filter fun b => decide (key' b = key' a) := by
      refine filter_congr fun b hb => ?_
      simp only [hkey b hb a ha]
    rw [hfilter]
    refine sortBy_congr ord (h.filter _) ?_
    exact hord.sublist (filter_sublist.map ord)
  intro g
  rw [mem_sortedGroups, mem_sortedGroups]
  constructor
  · rintro ⟨a, ha, rfl⟩
    exact ⟨a, h.mem_iff.1 ha, hgroup a ha⟩
  · rintro ⟨a, ha, rfl⟩
    have ha' := h.mem_iff.2 ha
    exact ⟨a, ha', (hgroup a ha').symm⟩

end CisApp.Lib
