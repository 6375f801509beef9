import Mathlib.Data.List.Basic
import Mathlib.Data.List.Pairwise

/-! Ranges that cover a text.

Ranges stand in order between two ends, none is empty, every position of a kind (`must`) is in one of them and no position of
another kind (`never`) is. -/

namespace CisApp.Lib

open List

/-- The ranges cover what must be covered between the two ends, and nothing that must not. -/
def Tiles (must never : Nat → Prop) : Nat → List (Nat × Nat) → Nat → Prop
  | lo, [], hi => lo ≤ hi ∧ ∀ i, lo ≤ i → i < hi → ¬must i
  | lo, r :: rs, hi =>
    lo ≤ r.1 ∧ (∀ i, lo ≤ i → i < r.1 → ¬must i) ∧ r.1 < r.2 ∧ (∀ i, r.1 ≤ i → i < r.2 → ¬never i) ∧ Tiles must never r.2 rs hi

/-- `i` is in the range. -/
def inRange (i : Nat) (r : Nat × Nat) : Bool := decide (r.1 ≤ i ∧ i < r.2)

variable {must never : Nat → Prop} {lo hi : Nat} {rs : List (Nat × Nat)}

theorem Tiles.le (h : Tiles must never lo rs hi) : lo ≤ hi := by
  induction rs generalizing lo with
  | nil => exact h.1
  | cons r rs ih =>
    obtain ⟨hlo, -, hlt, -, hrest⟩ := h
    have := ih hrest
    omega

theorem Tiles.gap {mid : Nat} (hle : lo ≤ mid) (hgap : ∀ i, lo ≤ i → i < mid → ¬must i) (h : Tiles must never mid rs hi) :
    Tiles must never lo rs hi := by
  have hboth : ∀ {k : Nat}, (∀ i, mid ≤ i → i < k → ¬must i) → ∀ i, lo ≤ i → i < k → ¬must i := by
    intro k hk i hi hik
    by_cases him : i < mid
    · exact hgap i hi him
    · exact hk i (by omega) hik
  cases rs with
  | nil => exact ⟨Nat.le_trans hle h.1, hboth h.2⟩
  | cons r rs =>
    obtain ⟨hlo, hno, hrest⟩ := h
    exact ⟨Nat.le_trans hle hlo, hboth hno, hrest⟩

theorem Tiles.mono {must' : Nat → Prop} (hmust : ∀ i, must' i → must i) (h : Tiles must never lo rs hi) :
    Tiles must' never lo rs hi := by
  induction rs generalizing lo with
  | nil => exact ⟨h.1, fun i hi hi' hm => h.2 i hi hi' (hmust i hm)⟩
  | cons r rs ih =>
    obtain ⟨hlo, hgap, hlt, hnever, hrest⟩ := h
    exact ⟨hlo, fun i hi hi' hm => hgap i hi hi' (hmust i hm), hlt, hnever, ih hrest⟩

theorem Tiles.append {mid : Nat} {ts : List (Nat × Nat)} (h : Tiles must never lo rs mid) (h' : Tiles must never mid ts hi) :
    Tiles must never lo (rs ++ ts) hi := by
  induction rs generalizing lo with
  | nil => exact Tiles.gap h.1 h.2 h'
  | cons r rs ih =>
    obtain ⟨hlo, hgap, hlt, hnever, hrest⟩ := h
    exact ⟨hlo, hgap, hlt, hnever, ih hrest⟩

theorem Tiles.shift {must' never' : Nat → Prop} {n : Nat} (hmust : ∀ i, i < hi → must' (n + i) → must i)
    (hnever : ∀ i, i < hi → never' (n + i) → never i) (h : Tiles must never lo rs hi) :
    Tiles must' never' (n + lo) (rs.map fun r => (n + r.1, n + r.2)) (n + hi) := by
  have hback : ∀ {k l : Nat}, l ≤ hi → (∀ i, k ≤ i → i < l → ¬must i) → ∀ i, n + k ≤ i → i < n + l → ¬must' i := by
    intro k l hl hno i hki hil hmusti
    obtain ⟨j, rfl⟩ := Nat.exists_eq_add_of_le (Nat.le_of_add_right_le hki)
    exact hno j (by omega) (by omega) (hmust j (by omega) hmusti)
  induction rs generalizing lo with
  | nil => exact ⟨Nat.add_le_add_left h.1 n, hback (Nat.le_refl hi) h.2⟩
  | cons r rs ih =>
    obtain ⟨hlo, hgap, hlt, hno, hrest⟩ := h
    have hle := hrest.le
    refine ⟨Nat.add_le_add_left hlo n, hback (by omega) hgap, Nat.add_lt_add_left hlt n, ?_, ih hrest⟩
    intro i hi hir hneveri
    obtain ⟨j, rfl⟩ := Nat.exists_eq_add_of_le (Nat.le_of_add_right_le hi)
    exact hno j (Nat.le_of_add_le_add_left hi) (Nat.lt_of_add_lt_add_left hir)
      (hnever j (by have := Nat.lt_of_add_lt_add_left hir; omega) hneveri)

theorem Tiles.mem {r : Nat × Nat} (h : Tiles must never lo rs hi) (hr : r ∈ rs) :
    lo ≤ r.1 ∧ r.1 < r.2 ∧ r.2 ≤ hi ∧ ∀ i, r.1 ≤ i → i < r.2 → ¬never i := by
  induction rs generalizing lo with
  | nil => cases hr
  | cons t rs ih =>
    obtain ⟨hlo, -, hlt, hnever, hrest⟩ := h
    rcases mem_cons.1 hr with rfl | hr
    · exact ⟨hlo, hlt, hrest.le, hnever⟩
    · obtain ⟨hlo', hrest'⟩ := ih hrest hr
      exact ⟨by omega, hrest'⟩

theorem Tiles.pairwise (h : Tiles must never lo rs hi) : rs.Pairwise fun r t => r.2 ≤ t.1 := by
  induction rs generalizing lo with
  | nil => exact List.Pairwise.nil
  | cons r rs ih =>
    obtain ⟨-, -, -, -, hrest⟩ := h
    exact List.Pairwise.cons (fun t ht => (hrest.mem ht).1) (ih hrest)

theorem Tiles.count_never {i : Nat} (h : Tiles must never lo rs hi) (hnever : never i) : rs.countP (inRange i) = 0 := by
  rw [countP_eq_zero]
  intro r hr hin
  obtain ⟨-, -, -, hno⟩ := h.mem hr
  obtain ⟨hle, hlt⟩ := of_decide_eq_true hin
  exact hno i hle hlt hnever

theorem Tiles.count_must {i : Nat} (h : Tiles must never lo rs hi) (hlo : lo ≤ i) (hhi : i < hi) (hmust : must i) :
    rs.countP (inRange i) = 1 := by
  induction rs generalizing lo with
  | nil => exact absurd hmust (h.2 i hlo hhi)
  | cons r rs ih =>
    obtain ⟨-, hgap, hlt, -, hrest⟩ := h
    have hstart : r.1 ≤ i := by
      by_contra hlt'
      exact hgap i hlo (by omega) hmust
    rw [countP_cons]
    by_cases hstop : i < r.2
    · -- the later ranges start after the position
      have hlater : rs.countP (inRange i) = 0 := by
        rw [countP_eq_zero]
        intro t ht hin
        have := (hrest.mem ht).1
        have := (of_decide_eq_true hin).1
        omega
      have hin : inRange i r = true := decide_eq_true ⟨hstart, hstop⟩
      rw [hlater, if_pos hin]
    · rw [ih hrest (by omega), if_neg]
      intro hin
      exact hstop (of_decide_eq_true hin).2

end CisApp.Lib
