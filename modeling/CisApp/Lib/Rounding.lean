import Mathlib

/-!
# Rounding to an integer, the two ways money is rounded

`roundHalfEven` is what Python's `round` does with an exact tie, `roundHalfAway`
what a `NUMERIC` column does when a value with more digits is stored.  Both are
monotone and fix the integers; on non-negative values they differ only at a tie
below an odd number, where the second is larger (`roundHalfEven_le_roundHalfAway`).
-/

namespace CisApp

/-- Nearest integer, a tie goes to the even one. -/
def roundHalfEven (q : ℚ) : ℤ :=
  let n := ⌊q⌋
  if q - n < 1 / 2 then n
  else if 1 / 2 < q - n then n + 1
  else if n % 2 = 0 then n else n + 1

def roundHalfAway (q : ℚ) : ℤ := if 0 ≤ q then ⌊q + 1 / 2⌋ else -⌊-q + 1 / 2⌋

theorem floor_le_roundHalfEven (q : ℚ) : ⌊q⌋ ≤ roundHalfEven q := by
  unfold roundHalfEven
  dsimp only
  split
  · exact le_refl _
  · split
    · omega
    · split <;> omega

theorem roundHalfEven_le_floor_succ (q : ℚ) : roundHalfEven q ≤ ⌊q⌋ + 1 := by
  unfold roundHalfEven
  dsimp only
  split
  · omega
  · split
    · omega
    · split <;> omega

theorem roundHalfEven_mono {p q : ℚ} (h : p ≤ q) : roundHalfEven p ≤ roundHalfEven q := by
  rcases lt_or_eq_of_le (Int.floor_le_floor h) with hlt | heq
  · -- different integer parts: the lower value rounds to at most the upper's floor
    have h1 := roundHalfEven_le_floor_succ p
    have h2 := floor_le_roundHalfEven q
    omega
  · unfold roundHalfEven
    dsimp only
    rw [← heq]
    split
    · split
      · exact le_refl _
      · split
        · omega
        · split <;> omega
    · next hp =>
      have hq : ¬ q - (⌊p⌋ : ℚ) < 1 / 2 := by
        intro hlt
        exact hp (by linarith)
      rw [if_neg hq]
      split
      · next hp2 => rw [if_pos (by linarith)]
      · split
        · next he =>
          split
          · omega
          · exact le_refl _
        · next he =>
          split
          · exact le_refl _
          · exact le_refl _

@[simp] theorem roundHalfEven_intCast (n : ℤ) : roundHalfEven (n : ℚ) = n := by
  unfold roundHalfEven
  simp

theorem roundHalfEven_nonneg {q : ℚ} (h : 0 ≤ q) : 0 ≤ roundHalfEven q :=
  le_trans (Int.floor_nonneg.2 h) (floor_le_roundHalfEven q)

@[simp] theorem roundHalfAway_intCast (n : ℤ) : roundHalfAway (n : ℚ) = n := by
  have key : ∀ m : ℤ, ⌊(m : ℚ) + 1 / 2⌋ = m := by
    intro m
    rw [Int.floor_eq_iff]
    constructor <;> linarith
  unfold roundHalfAway
  split
  · exact key n
  · have := key (-n)
    push_cast at this
    rw [this]
    omega

theorem roundHalfEven_le_roundHalfAway {q : ℚ} (h : 0 ≤ q) : roundHalfEven q ≤ roundHalfAway q := by
  unfold roundHalfEven roundHalfAway
  rw [if_pos h]
  dsimp only
  have h1 : ⌊q⌋ ≤ ⌊q + 1 / 2⌋ := Int.floor_le_floor (by linarith)
  split
  · exact h1
  · next hf =>
    have h2 : ⌊q⌋ + 1 ≤ ⌊q + 1 / 2⌋ := by
      rw [Int.le_floor]
      push_cast
      linarith
    split
    · exact h2
    · split
      · exact h1
      · exact h2

end CisApp
