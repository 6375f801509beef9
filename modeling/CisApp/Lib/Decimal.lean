import CisApp.Lib.Text

/-! Decimal numbers with leading zeros, and texts made of parts with separators between them. -/

namespace CisApp.Lib

open List

/-- `f"{n:0{width}d}"`. -/
def zeroPad (width n : Nat) : Text := List.replicate (width - (Nat.toDigits 10 n).length) '0' ++ Nat.toDigits 10 n

theorem ofDigitChars_zeroPad (width n : Nat) : Nat.ofDigitChars 10 (zeroPad width n) 0 = n := by
  unfold zeroPad
  rw [Nat.ofDigitChars_append, Nat.ofDigitChars_replicate_zero, Nat.mul_zero, Nat.ofDigitChars_ten_toDigits]

variable {width n : Nat}

theorem zeroPad_inj {m : Nat} (h : zeroPad width m = zeroPad width n) : m = n := by
  rw [← ofDigitChars_zeroPad width m, h, ofDigitChars_zeroPad]

theorem length_zeroPad (hwidth : 0 < width) (h : n < 10 ^ width) : (zeroPad width n).length = width := by
  have hle := (Nat.length_toDigits_le_iff (b := 10) (n := n) (by decide) hwidth).2 h
  unfold zeroPad
  rw [length_append, length_replicate]
  omega

theorem isDigit_of_mem_zeroPad {c : Char} (hc : c ∈ zeroPad width n) : c.isDigit = true := by
  rcases mem_append.1 hc with hc | hc
  · rw [eq_of_mem_replicate hc]
    decide
  · exact Nat.isDigit_of_mem_toDigits (by decide) (by decide) hc

theorem notMem_zeroPad {c : Char} (hc : c.isDigit = false) : c ∉ zeroPad width n := by
  intro hmem
  rw [isDigit_of_mem_zeroPad hmem] at hc
  cases hc

variable {u v : Text}

theorem cut_first {sep : Char} {u' v' : Text} (hu : sep ∉ u) (hu' : sep ∉ u')
    (h : u ++ sep :: v = u' ++ sep :: v') : u = u' ∧ v = v' := by
  induction u generalizing u' with
  | nil =>
    cases u' with
    | nil => exact ⟨rfl, (List.cons.inj h).2⟩
    | cons c u' =>
      rw [← (List.cons.inj h).1] at hu'
      exact absurd mem_cons_self hu'
  | cons c u ih =>
    cases u' with
    | nil =>
      rw [(List.cons.inj h).1] at hu
      exact absurd mem_cons_self hu
    | cons c' u' =>
      obtain ⟨rfl, htail⟩ := List.cons.inj h
      obtain ⟨rfl, hv⟩ := ih (fun hin => hu (mem_cons_of_mem _ hin))
        (fun hin => hu' (mem_cons_of_mem _ hin)) htail
      exact ⟨rfl, hv⟩

theorem cut_last {sep : Char} {u' v' : Text} (hv : sep ∉ v) (hv' : sep ∉ v')
    (h : u ++ sep :: v = u' ++ sep :: v') : u = u' ∧ v = v' := by
  have hrev : v.reverse ++ sep :: u.reverse = v'.reverse ++ sep :: u'.reverse := by
    simpa using congrArg List.reverse h
  obtain ⟨hvv, huu⟩ := cut_first (by simpa using hv) (by simpa using hv') hrev
  exact ⟨reverse_injective huu, reverse_injective hvv⟩

/-! ## Integers -/

theorem toDigits_inj {m : Nat} (h : Nat.toDigits 10 m = Nat.toDigits 10 n) : m = n := by
  have hread := congrArg (fun cs => Nat.ofDigitChars 10 cs 0) h
  simpa only [Nat.ofDigitChars_ten_toDigits] using hread

theorem dash_notMem_toDigits (n : Nat) : '-' ∉ Nat.toDigits 10 n := by
  intro hmem
  have hdigit := Nat.isDigit_of_mem_toDigits (by decide) (by decide) hmem
  revert hdigit
  decide

theorem toDigits_ne_dash {k : Nat} : Nat.toDigits 10 k ++ '-' :: u ≠ '-' :: v := by
  intro h
  cases hd : Nat.toDigits 10 k with
  | nil => exact Nat.toDigits_ne_nil hd
  | cons c cs =>
    rw [hd] at h
    refine dash_notMem_toDigits k ?_
    rw [hd, (List.cons.inj h).1]
    exact mem_cons_self

/-- `str(n)`. -/
def intText (n : Int) : Text := (toString n).toList

theorem intText_eq (n : Int) :
    intText n = if 0 ≤ n then Nat.toDigits 10 n.toNat else '-' :: Nat.toDigits 10 (-n).toNat := by
  unfold intText
  rw [Int.toString_eq_repr, Int.repr_eq_if]
  split
  · rw [Nat.repr_eq_ofList_toDigits, String.toList_ofList]
  · rw [String.toList_append, Nat.repr_eq_ofList_toDigits, String.toList_ofList, String.toList_ofList]
    rfl

theorem notMem_intText {c : Char} (hc : c.isDigit = false) (hdash : c ≠ '-') (n : Int) : c ∉ intText n := by
  have hdigits : ∀ k, c ∉ Nat.toDigits 10 k := by
    intro k hmem
    rw [Nat.isDigit_of_mem_toDigits (by decide) (by decide) hmem] at hc
    cases hc
  rw [intText_eq]
  split
  · exact hdigits _
  · intro hmem
    rcases mem_cons.1 hmem with heq | hmem
    · exact hdash heq
    · exact hdigits _ hmem

theorem intText_dash_inj {m n : Int} (h : intText m ++ '-' :: u = intText n ++ '-' :: v) : m = n ∧ u = v := by
  rw [intText_eq, intText_eq] at h
  split at h <;> split at h
  · obtain ⟨hdigits, huv⟩ := cut_first (dash_notMem_toDigits _) (dash_notMem_toDigits _) h
    have := toDigits_inj hdigits
    exact ⟨by omega, huv⟩
  · exact absurd h toDigits_ne_dash
  · exact absurd h.symm toDigits_ne_dash
  · obtain ⟨hdigits, huv⟩ := cut_first (dash_notMem_toDigits _) (dash_notMem_toDigits _) (List.cons.inj h).2
    have := toDigits_inj hdigits
    exact ⟨by omega, huv⟩

theorem intText_inj {m n : Int} (h : intText m = intText n) : m = n :=
  (intText_dash_inj (u := []) (v := []) (by rw [h])).1

end CisApp.Lib
