import CisApp.Lib.Table

/-! Dicts made of lists: `Table.dictBy key l` is `{key(a): a for a in l}`, the last one of a key counts. -/

namespace CisApp.Table

open List

variable {κ ρ : Type} [DecidableEq κ]

/-- `{key(a): a for a in l}`. -/
def dictBy (key : ρ → κ) (l : List ρ) : Table κ ρ := l.foldl (fun d a => d.upsert (key a) a) empty

theorem get?_dictBy (key : ρ → κ) (l : List ρ) (k : κ) : (dictBy key l).get? k = l.reverse.find? fun a => key a = k := by
  unfold dictBy
  induction l using List.reverseRecOn with
  | nil => rfl
  | append_singleton l a ih =>
    rw [foldl_concat, get?_upsert, ih, reverse_append, reverse_singleton, singleton_append, List.find?_cons]
    by_cases hk : k = key a
    · rw [if_pos hk, decide_eq_true hk.symm]
    · rw [if_neg hk, decide_eq_false (Ne.symm hk)]

theorem mem_of_dictBy {key : ρ → κ} {l : List ρ} {k : κ} {a : ρ} (h : (dictBy key l).get? k = some a) :
    a ∈ l ∧ key a = k := by
  rw [get?_dictBy] at h
  have hkey := List.find?_some h
  rw [decide_eq_true_eq] at hkey
  exact ⟨mem_reverse.1 (List.mem_of_find?_eq_some h), hkey⟩

theorem exists_of_dictBy (key : ρ → κ) {l : List ρ} {a : ρ} (h : a ∈ l) : ∃ b, (dictBy key l).get? (key a) = some b := by
  rw [← Option.isSome_iff_exists, get?_dictBy, List.find?_isSome]
  exact ⟨a, mem_reverse.2 h, decide_eq_true rfl⟩

theorem get?_dictBy_of_unique {key : ρ → κ} {l : List ρ} {a : ρ} (h : a ∈ l) (hl : ∀ b ∈ l, key b = key a → b = a) :
    (dictBy key l).get? (key a) = some a := by
  obtain ⟨b, hb⟩ := exists_of_dictBy key h
  obtain ⟨hbl, hkey⟩ := mem_of_dictBy hb
  rw [hb, hl b hbl hkey]

theorem rows_perm {t u : Table κ ρ} (h : ∀ k, t.get? k = u.get? k) : t.rows.Perm u.rows := by
  refine (perm_ext_iff_of_nodup (List.Nodup.of_map _ t.nodup) (List.Nodup.of_map _ u.nodup)).2 fun e => ?_
  rw [← get?_eq_some_iff, ← get?_eq_some_iff, h]

end CisApp.Table
