import Mathlib

/-! All matches of a pattern in a text, the way a regular expression is searched.

A pattern is the set of (non-empty) words it matches whole.  `findMatches` walks over the text: at each
place it takes the longest prefix that matches and goes on behind it, or moves on by one letter.

A word that matches is found whenever the letters on both sides of it occur in no match
(`mem_findMatches`): no match can reach over such a letter, so the search arrives at the word's first
letter and stops at its last. -/

namespace CisApp.Lib

open List

variable {α : Type}

/-- The longest matching prefix of at most `n` letters. -/
def longestTo (p : List α → Bool) (s : List α) : Nat → Option Nat
  | 0 => none
  | n + 1 => if p (s.take (n + 1)) then some (n + 1) else longestTo p s n

def longest (p : List α → Bool) (s : List α) : Option Nat := longestTo p s s.length

/-- The loop of the search; every round takes at least one letter. -/
def scan (p : List α → Bool) : Nat → List α → List (List α)
  | 0, _ => []
  | _, [] => []
  | fuel + 1, c :: s =>
    match longest p (c :: s) with
    | some n => (c :: s).take n :: scan p fuel ((c :: s).drop n)
    | none => scan p fuel s

/-- The matches in a text, from left to right, none overlapping another. -/
def findMatches (p : List α → Bool) (s : List α) : List (List α) := scan p s.length s

theorem longestTo_eq_some {p : List α → Bool} {s : List α} {n m : Nat}
    (h : longestTo p s n = some m) : 0 < m ∧ m ≤ n ∧ p (s.take m) = true := by
  induction n with
  | zero => cases h
  | succ n ih =>
    rw [longestTo] at h
    split at h
    · next hp =>
      cases h
      exact ⟨by omega, Nat.le_refl _, hp⟩
    · obtain ⟨h₁, h₂, h₃⟩ := ih h
      exact ⟨h₁, by omega, h₃⟩

theorem longestTo_eq_none {p : List α → Bool} {s : List α} {n : Nat}
    (h : ∀ m, 0 < m → m ≤ n → p (s.take m) = false) : longestTo p s n = none := by
  induction n with
  | zero => rfl
  | succ n ih =>
    rw [longestTo, h (n + 1) (by omega) (Nat.le_refl _), if_neg (by simp)]
    exact ih fun m h₁ h₂ => h m h₁ (by omega)

theorem longestTo_eq {p : List α → Bool} {s : List α} {n k : Nat} (hk : 0 < k) (hkn : k ≤ n)
    (hp : p (s.take k) = true) (hlong : ∀ m, k < m → m ≤ n → p (s.take m) = false) : longestTo p s n = some k := by
  induction n with
  | zero => omega
  | succ n ih =>
    rw [longestTo]
    by_cases hkn' : k = n + 1
    · subst hkn'
      rw [if_pos hp]
    · rw [hlong (n + 1) (by omega) (Nat.le_refl _), if_neg (by simp)]
      exact ih (by omega) fun m h₁ h₂ => hlong m h₁ (by omega)

theorem scan_eq_findMatches (p : List α → Bool) (fuel : Nat) (s : List α) (h : s.length ≤ fuel) :
    scan p fuel s = findMatches p s := by
  induction fuel using Nat.strong_induction_on generalizing s with
  | h fuel ih =>
    cases s with
    | nil => cases fuel <;> rfl
    | cons c s =>
      cases fuel with
      | zero => simp at h
      | succ fuel =>
        rw [length_cons] at h
        unfold findMatches
        rw [length_cons, scan, scan]
        cases hl : longest p (c :: s) with
        | none =>
          rw [ih fuel (by omega) s (by omega)]
          rfl
        | some n =>
          have hpos := (longestTo_eq_some hl).1
          have hlen : ((c :: s).drop n).length ≤ s.length := by simp; omega
          dsimp only
          rw [ih fuel (by omega) _ (by omega), ih s.length (by omega) _ hlen]

section Separated

variable {p : List α → Bool} {ok : α → Bool}

theorem match_le (hp : ∀ w, p w = true → ∀ c ∈ w, ok c = true) {a b : List α} {x : α}
    (hx : ok x = false) {n : Nat} (h : p ((a ++ x :: b).take n) = true) : n ≤ a.length := by
  by_contra hlt
  have hmem : x ∈ (a ++ x :: b).take n := by
    rw [take_append, take_cons (by omega)]
    simp
  have := hp _ h x hmem
  rw [hx] at this
  cases this

theorem findMatches_cons (hp : ∀ w, p w = true → ∀ c ∈ w, ok c = true) {x : α} (hx : ok x = false)
    (s : List α) : findMatches p (x :: s) = findMatches p s := by
  have hnone : longest p (x :: s) = none := by
    refine longestTo_eq_none ?_
    intro m hm _
    by_contra h
    have := match_le hp (a := []) hx (by simpa using h : p (([] ++ x :: s).take m) = true)
    simp at this
    omega
  show scan p (s.length + 1) (x :: s) = _
  rw [scan, hnone]
  rfl

theorem findMatches_append (hp : ∀ w, p w = true → ∀ c ∈ w, ok c = true) {w : List α} (hw : w ≠ [])
    (hpw : p w = true) {y : α} (hy : ok y = false) (b : List α) :
    findMatches p (w ++ y :: b) = w :: findMatches p (y :: b) := by
  have hlen : 0 < w.length := length_pos_iff.2 hw
  have hlong : longest p (w ++ y :: b) = some w.length := by
    refine longestTo_eq hlen (by simp) (by simpa using hpw) ?_
    intro m hm _
    by_contra h
    have := match_le hp hy (by simpa using h)
    omega
  obtain ⟨c, s, rfl⟩ := exists_cons_of_ne_nil hw
  show scan p (s ++ y :: b).length.succ (c :: (s ++ y :: b)) = _
  rw [scan]
  rw [cons_append] at hlong
  rw [hlong]
  dsimp only
  have hdrop : (c :: (s ++ y :: b)).drop (c :: s).length = y :: b := by
    exact drop_left
  have htake : (c :: (s ++ y :: b)).take (c :: s).length = c :: s := by
    exact take_left
  rw [hdrop, htake, scan_eq_findMatches p _ _ (by simp)]

theorem mem_findMatches (hp : ∀ w, p w = true → ∀ c ∈ w, ok c = true) {w : List α} (hw : w ≠ [])
    (hpw : p w = true) {x y : α} (hx : ok x = false) (hy : ok y = false) (a b : List α) :
    w ∈ findMatches p (a ++ x :: (w ++ y :: b)) := by
  induction hn : a.length using Nat.strong_induction_on generalizing a with
  | h n ih =>
    cases a with
    | nil =>
      rw [nil_append, findMatches_cons hp hx, findMatches_append hp hw hpw hy]
      exact mem_cons_self
    | cons c a =>
      show w ∈ scan p (a ++ x :: (w ++ y :: b)).length.succ (c :: (a ++ x :: (w ++ y :: b)))
      rw [scan]
      cases hl : longest p (c :: (a ++ x :: (w ++ y :: b))) with
      | none => exact ih a.length (by rw [← hn]; simp) a rfl
      | some m =>
        -- the match stays in front of `x`: the rest still ends on the word
        obtain ⟨hpos, -, hpm⟩ := longestTo_eq_some hl
        have hm : m ≤ (c :: a).length := match_le hp hx hpm
        have hdrop : (c :: (a ++ x :: (w ++ y :: b))).drop m =
            (c :: a).drop m ++ x :: (w ++ y :: b) := by
          rw [← cons_append, drop_append_of_le_length hm]
        refine mem_cons_of_mem _ ?_
        rw [hdrop, scan_eq_findMatches p _ _ (by simp at hm ⊢; omega)]
        exact ih _ (by rw [← hn]; simp at hm ⊢; omega) _ rfl

end Separated

end CisApp.Lib
