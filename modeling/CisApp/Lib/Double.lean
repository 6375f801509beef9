import CisApp.Lib.Rounding

/-!
# Doubles

What `float(v)` makes of an exact number: the nearest double, a tie to the even one, `inf` from
`2 ^ 1024` on.  A double of magnitude `2 ^ n` and more is a multiple of `2 ^ (n - 52)`, and every
double is a multiple of `2 ^ (-1074)`.

Rounding keeps a number on its side of a power of two (`magnitude_le_pow`, `pow_le_magnitude`); the
two comparisons with a constant that follow are the ones exact arithmetic gets wrong:
a number is read as `0.0` up to half the smallest double, and as at least `20.0` from half a step
below 20 on.
-/

namespace CisApp

/-! ## Rounding next to an even integer -/

theorem roundHalfEven_lt_even {n : ℤ} (hn : n % 2 = 0) (x : ℚ) : roundHalfEven x < n ↔ x < n - 1 / 2 := by
  constructor
  · intro h
    by_contra hge
    rw [not_lt] at hge
    have hmono := roundHalfEven_mono hge
    have htie : roundHalfEven ((n : ℚ) - 1 / 2) = n := by
      have hfloor : ⌊(n : ℚ) - 1 / 2⌋ = n - 1 := by
        rw [Int.floor_eq_iff]
        push_cast
        constructor <;> linarith
      unfold roundHalfEven
      rw [hfloor]
      push_cast
      rw [if_neg (by linarith), if_neg (by linarith), if_neg (by omega)]
      omega
    omega
  · intro h
    have hup := roundHalfEven_le_floor_succ x
    have hle : ⌊x⌋ < n := by
      rw [Int.floor_lt]
      linarith
    by_contra hge
    have heq : roundHalfEven x = ⌊x⌋ + 1 := by omega
    have hnf : (n : ℚ) = ⌊x⌋ + 1 := by
      have : n = ⌊x⌋ + 1 := by omega
      rw [this]
      push_cast
      ring
    unfold roundHalfEven at heq
    rw [if_pos (by linarith)] at heq
    omega

theorem roundHalfEven_le_even {n : ℤ} (hn : n % 2 = 0) (x : ℚ) : roundHalfEven x ≤ n ↔ x ≤ n + 1 / 2 := by
  constructor
  · intro h
    by_contra hgt
    have hfloor : n ≤ ⌊x⌋ := by
      rw [Int.le_floor]
      linarith
    have hlow := floor_le_roundHalfEven x
    have hnf : (⌊x⌋ : ℚ) = n := by
      have : ⌊x⌋ = n := by omega
      rw [this]
    unfold roundHalfEven at h
    rw [if_neg (by linarith), if_pos (by linarith)] at h
    omega
  · intro h
    have hmono := roundHalfEven_mono h
    have htie : roundHalfEven ((n : ℚ) + 1 / 2) = n := by
      have hfloor : ⌊(n : ℚ) + 1 / 2⌋ = n := by
        rw [Int.floor_eq_iff]
        constructor <;> linarith
      unfold roundHalfEven
      rw [hfloor, if_neg (by linarith), if_neg (by linarith), if_pos hn]
    omega

/-! ## The nearest double -/

inductive Double where
  | finite (q : ℚ)
  | inf (neg : Bool)
deriving Repr, DecidableEq

namespace Double

/-- The exponent of the last bit of a number of this magnitude. -/
def exponent (a : ℚ) : ℤ := max (Int.log 2 a - 52) (-1074)

def magnitude (a : ℚ) : ℚ := roundHalfEven (a / 2 ^ exponent a) * 2 ^ exponent a

def ofRat (q : ℚ) : Double :=
  let m := magnitude |q|
  if 2 ^ 1024 ≤ m then .inf (q < 0) else .finite (if q < 0 then -m else m)

def isZero : Double → Bool
  | .finite q => q = 0
  | .inf _ => false

def isInf : Double → Bool
  | .finite _ => false
  | .inf _ => true

def lt : Double → ℚ → Bool
  | .finite q, n => q < n
  | .inf neg, _ => neg

theorem two_pow_pos (n : ℤ) : (0 : ℚ) < 2 ^ n := zpow_pos (by norm_num) n

theorem pow_div_exponent {n e : ℤ} (h : e ≤ n) : (2 : ℚ) ^ n / 2 ^ e = (((2 : ℤ) ^ (n - e).toNat : ℤ) : ℚ) := by
  push_cast
  rw [← zpow_sub₀ (by norm_num), ← zpow_natCast, Int.toNat_of_nonneg (by omega)]

variable {a : ℚ}

theorem magnitude_le_pow {n : ℤ} (hn : -1074 ≤ n) (ha : 0 ≤ a) (h : a ≤ 2 ^ n) : magnitude a ≤ 2 ^ n := by
  have hpos := two_pow_pos (exponent a)
  rcases eq_or_lt_of_le ha with rfl | hpos'
  · have hzero : magnitude 0 = 0 := by simp [magnitude, roundHalfEven]
    rw [hzero]
    exact (two_pow_pos n).le
  by_cases he : exponent a ≤ n
  · have hx : a / 2 ^ exponent a ≤ (((2 : ℤ) ^ (n - exponent a).toNat : ℤ) : ℚ) := by
      rw [← pow_div_exponent he]
      exact div_le_div_of_nonneg_right h hpos.le
    have hk := roundHalfEven_mono hx
    rw [roundHalfEven_intCast] at hk
    have hk' : (roundHalfEven (a / 2 ^ exponent a) : ℚ) ≤ 2 ^ n / 2 ^ exponent a := by
      rw [pow_div_exponent he]
      exact_mod_cast hk
    rwa [le_div_iff₀ hpos] at hk'
  · -- then `a` is at least `2 ^ (exponent a + 52)`
    exfalso
    have hlog : Int.log 2 a = exponent a + 52 := by
      unfold exponent at he ⊢
      omega
    have hself := Int.zpow_log_le_self (b := 2) (by norm_num) hpos'
    rw [hlog] at hself
    have hlt : (2 : ℚ) ^ n < 2 ^ (exponent a + 52) :=
      zpow_lt_zpow_right₀ (by norm_num) (by omega)
    push_cast at hself
    linarith

theorem pow_le_magnitude {n : ℤ} (hn : -1074 ≤ n) (h : 2 ^ n ≤ a) : 2 ^ n ≤ magnitude a := by
  have ha : 0 < a := lt_of_lt_of_le (two_pow_pos n) h
  have hpos := two_pow_pos (exponent a)
  have he : exponent a ≤ n ∨ exponent a + 52 = Int.log 2 a := by
    unfold exponent
    omega
  -- a power of two below `a` that is a whole number of steps
  obtain ⟨m, hm, hnm, hma⟩ : ∃ m, exponent a ≤ m ∧ n ≤ m ∧ (2 : ℚ) ^ m ≤ a := by
    rcases le_or_gt (exponent a) n with hle | hgt
    · exact ⟨n, hle, le_refl n, h⟩
    · refine ⟨exponent a + 52, by omega, by omega, ?_⟩
      have hlog : exponent a + 52 = Int.log 2 a := by
        rcases he with he | he
        · omega
        · exact he
      rw [hlog]
      exact_mod_cast Int.zpow_log_le_self (b := 2) (by norm_num) ha
  have hx : (((2 : ℤ) ^ (m - exponent a).toNat : ℤ) : ℚ) ≤ a / 2 ^ exponent a := by
    rw [← pow_div_exponent hm]
    exact div_le_div_of_nonneg_right hma hpos.le
  have hk := roundHalfEven_mono hx
  rw [roundHalfEven_intCast] at hk
  have hk' : (2 : ℚ) ^ m / 2 ^ exponent a ≤ roundHalfEven (a / 2 ^ exponent a) := by
    rw [pow_div_exponent hm]
    exact_mod_cast hk
  rw [div_le_iff₀ hpos] at hk'
  calc (2 : ℚ) ^ n ≤ 2 ^ m := zpow_le_zpow_right₀ (by norm_num) hnm
    _ ≤ magnitude a := hk'

theorem magnitude_nonneg (ha : 0 ≤ a) : 0 ≤ magnitude a := by
  have hpos := two_pow_pos (exponent a)
  have hk := roundHalfEven_nonneg (div_nonneg ha hpos.le)
  have hk' : (0 : ℚ) ≤ roundHalfEven (a / 2 ^ exponent a) := by exact_mod_cast hk
  exact mul_nonneg hk' hpos.le

/-! ## The two comparisons -/

theorem magnitude_eq_zero_iff (ha : 0 ≤ a) : magnitude a = 0 ↔ a ≤ 2 ^ (-1075 : ℤ) := by
  have hpos := two_pow_pos (exponent a)
  have hzero : magnitude a = 0 ↔ a / 2 ^ exponent a ≤ 1 / 2 := by
    have hnn := roundHalfEven_nonneg (div_nonneg ha hpos.le)
    have heven := roundHalfEven_le_even (n := 0) (by norm_num) (a / 2 ^ exponent a)
    unfold magnitude
    rw [mul_eq_zero, or_iff_left hpos.ne', Int.cast_eq_zero]
    push_cast at heven
    rw [show (1 : ℚ) / 2 = 0 + 1 / 2 by norm_num, ← heven]
    omega
  rw [hzero]
  by_cases he : exponent a = -1074
  · rw [he, div_le_iff₀ (two_pow_pos _), show (-1075 : ℤ) = -1 + -1074 by norm_num, zpow_add₀ (by norm_num)]
    norm_num
  · have hlog : exponent a = Int.log 2 a - 52 ∧ -1074 < exponent a := by
      unfold exponent at he ⊢
      omega
    rcases eq_or_lt_of_le ha with rfl | hpos'
    · simp
    · have hself : (2 : ℚ) ^ Int.log 2 a ≤ a :=
        by exact_mod_cast Int.zpow_log_le_self (b := 2) (by norm_num) hpos'
      have hbig : (2 : ℚ) ^ (-1075 : ℤ) < 2 ^ Int.log 2 a :=
        zpow_lt_zpow_right₀ (by norm_num) (by omega)
      have hone : (2 : ℚ) ^ exponent a < 2 ^ Int.log 2 a :=
        zpow_lt_zpow_right₀ (by norm_num) (by omega)
      constructor
      · intro h
        rw [div_le_iff₀ hpos] at h
        linarith
      · intro h
        linarith

theorem isZero_ofRat (q : ℚ) : (ofRat q).isZero = true ↔ |q| ≤ 2 ^ (-1075 : ℤ) := by
  rw [← magnitude_eq_zero_iff (abs_nonneg q)]
  unfold ofRat
  dsimp only
  split
  · next h =>
    constructor
    · intro hz
      cases hz
    · intro hz
      rw [hz] at h
      exact absurd h (not_le.2 (by positivity))
  · unfold isZero
    rw [decide_eq_true_eq]
    split
    · exact neg_eq_zero
    · exact Iff.rfl

theorem magnitude_lt_steps {l n : ℤ} (hl : -1022 ≤ l) (hn : n % 2 = 0) (hlow : 2 ^ l ≤ a) (hup : a < 2 ^ (l + 1)) :
    magnitude a < n * 2 ^ (l - 52) ↔ a < n * 2 ^ (l - 52) - 2 ^ (l - 53) := by
  have hpos : 0 < a := lt_of_lt_of_le (two_pow_pos l) hlow
  have hlog : Int.log 2 a = l := by
    have h1 := (Int.zpow_le_iff_le_log (b := 2) (by norm_num) (x := l) hpos).1 (by exact_mod_cast hlow)
    have h2 := (Int.lt_zpow_iff_log_lt (b := 2) (by norm_num) (x := l + 1) hpos).1 (by exact_mod_cast hup)
    omega
  have hexp : exponent a = l - 52 := by
    unfold exponent
    omega
  have hhalf : (2 : ℚ) ^ (l - 53) = 1 / 2 * 2 ^ (l - 52) := by
    rw [show l - 53 = -1 + (l - 52) by ring, zpow_add₀ (by norm_num)]
    norm_num
  unfold magnitude
  rw [hexp, mul_lt_mul_iff_left₀ (two_pow_pos _), Int.cast_lt, roundHalfEven_lt_even hn,
    div_lt_iff₀ (two_pow_pos _), hhalf, sub_mul]

theorem magnitude_lt_twenty (ha : 0 ≤ a) : magnitude a < 20 ↔ a < 20 - 2 ^ (-49 : ℤ) := by
  have hsmall : (2 : ℚ) ^ (-49 : ℤ) ≤ 1 := by norm_num
  rcases lt_or_ge a 16 with hlt | hge
  · have hle := magnitude_le_pow (n := 4) (by norm_num) ha (by norm_num; exact hlt.le)
    constructor
    · intro _
      linarith
    · intro _
      linarith
  · rcases lt_or_ge a 32 with hlt | hge32
    · have h := magnitude_lt_steps (a := a) (l := 4) (n := 20 * 2 ^ 48) (by norm_num) (by norm_num)
        (by norm_num; exact hge) (by norm_num; exact hlt)
      norm_num at h ⊢
      exact h
    · have hle := pow_le_magnitude (n := 5) (by norm_num) (by norm_num; exact hge32)
      constructor
      · intro h
        linarith
      · intro h
        linarith [two_pow_pos (-49)]

theorem pow_le_magnitude_iff {l : ℤ} (hl : -1022 ≤ l) (ha : 0 ≤ a) :
    2 ^ (l + 1) ≤ magnitude a ↔ 2 ^ (l + 1) - 2 ^ (l - 53) ≤ a := by
  have hstep := two_pow_pos (l - 53)
  have hhalf : (2 : ℚ) ^ (l - 53) ≤ 2 ^ l := zpow_le_zpow_right₀ (by norm_num) (by omega)
  have hdouble : (2 : ℚ) ^ (l + 1) = 2 * 2 ^ l := by
    rw [zpow_add_one₀ (by norm_num), mul_comm]
  rcases lt_or_ge a (2 ^ l) with hlt | hge
  · have hle := magnitude_le_pow (by omega) ha hlt.le
    constructor
    · intro h
      linarith
    · intro h
      linarith
  · rcases lt_or_ge a (2 ^ (l + 1)) with hlt | hge'
    · have h := magnitude_lt_steps (n := 2 ^ 53) hl (by norm_num) hge hlt
      have hsteps : ((2 ^ 53 : ℤ) : ℚ) * 2 ^ (l - 52) = 2 ^ (l + 1) := by
        rw [show ((2 ^ 53 : ℤ) : ℚ) = 2 ^ (53 : ℤ) by norm_num, ← zpow_add₀ (by norm_num)]
        congr 1
        ring
      rw [hsteps] at h
      rw [← not_lt, ← not_lt, not_iff_not]
      exact h
    · have hle := pow_le_magnitude (by omega) hge'
      exact ⟨fun _ => by linarith, fun _ => hle⟩

theorem isInf_ofRat (q : ℚ) : (ofRat q).isInf = true ↔ 2 ^ (1024 : ℤ) - 2 ^ (970 : ℤ) ≤ |q| := by
  have h := pow_le_magnitude_iff (l := 1023) (by norm_num) (abs_nonneg q)
  rw [show (1023 : ℤ) + 1 = 1024 from rfl, show (1023 : ℤ) - 53 = 970 from rfl] at h
  rw [← h, show (2 : ℚ) ^ (1024 : ℤ) = 2 ^ 1024 from zpow_natCast 2 1024]
  unfold ofRat
  dsimp only
  split
  · next hle => exact ⟨fun _ => hle, fun _ => rfl⟩
  · next hlt =>
    constructor
    · intro hf
      cases hf
    · intro hle
      exact absurd hle hlt

theorem lt_twenty_ofRat (q : ℚ) : (ofRat q).lt 20 = true ↔ q < 20 - 2 ^ (-49 : ℤ) := by
  have hsmall : (2 : ℚ) ^ (-49 : ℤ) ≤ 1 := by norm_num
  unfold ofRat
  rcases lt_or_ge q 0 with hneg | hnn
  · have hm := magnitude_nonneg (abs_nonneg q)
    simp only [hneg, decide_true, if_true]
    split
    · exact ⟨fun _ => by linarith, fun _ => rfl⟩
    · unfold lt
      rw [decide_eq_true_eq]
      constructor
      · intro _
        linarith
      · intro _
        linarith
  · have hm := magnitude_lt_twenty hnn
    rw [abs_of_nonneg hnn]
    simp only [not_lt.2 hnn, decide_false, if_false]
    split
    · next h =>
      rw [← hm]
      constructor
      · intro hf
        cases hf
      · intro hlt
        have hbig : (2 : ℚ) ^ 5 ≤ 2 ^ 1024 := pow_le_pow_right₀ (by norm_num) (by norm_num)
        have hno : (2 : ℚ) ^ 5 < 20 := (hbig.trans h).trans_lt hlt
        norm_num at hno
    · unfold lt
      rw [decide_eq_true_eq]
      exact hm

end Double

end CisApp
