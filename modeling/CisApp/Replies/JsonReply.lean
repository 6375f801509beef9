import CisApp.Lib.Json

/-! The JSON value in a model's reply (`shared/llm_client/json_reply.py`).

`first_json_value` tries the opening brackets of the wanted kinds from left to right.  A bracket that does not decode is
skipped to its close, as `_close_of` counts it, so what is nested inside it is not tried.

* `InsideOpen text p`: some bracket before `p`, outside the JSON strings, is still open at `p`.
* `insideOpen_iff`: this is so exactly when reading the text up to `p` ends inside a bracket (`nest`).
* `starts`: the brackets that the scan can try; it depends on the text and the kinds only.
* `returned_at_top_iff`: the value is never a nested piece exactly when both kinds are wanted, or the brackets before
  the first start that decodes balance.  With one kind wanted the other kind's brackets are not looked at, and an object
  inside a list that is cut off comes back as the answer (`object_of_cut_off_list`).

The decoder is `json.JSONDecoder`; all that is used of it is that a value read at a brace is an object and one read at a
square bracket is a list. -/

namespace CisApp.Replies

open List

/-! ## The scan -/

/-- `dict` and `list`, the two types that `_OPENERS` knows. -/
inductive Kind where
  | dict
  | list
deriving Repr, DecidableEq

/-- `_OPENERS` -/
def Kind.opener : Kind → Char
  | .dict => '\x7b'
  | .list => '['

/-- `isinstance(value, kind)` -/
def Kind.holds : Kind → Json → Bool
  | .dict, .obj _ => true
  | .list, .arr _ => true
  | _, _ => false

/-- `JSONDecoder.raw_decode`: the value that starts at a position and the position after it, or the error's text. -/
structure Decoder where
  rawDecode : List Char → Nat → Except String (Json × Nat)
  kind_of_opener : ∀ {s i v e} (k : Kind), rawDecode s i = .ok (v, e) → s[i]? = some k.opener → k.holds v = true

/-- `s.find(c, start)` -/
def findFrom (s : List Char) (start : Nat) (c : Char) : Option Nat :=
  ((s.drop start).findIdx? (· == c)).map (start + ·)

def nextOpen (s : List Char) (chars : List Char) (start : Nat) : Option Nat :=
  (chars.filterMap (findFrom s start)).min?

def opens (c : Char) : Bool := c == '\x7b' || c == '['

def closes (c : Char) : Bool := c == '\x7d' || c == ']'

/-- The three variables of `_close_of`. -/
structure Cursor where
  depth : Int
  inStr : Bool
  esc : Bool
deriving Repr, DecidableEq

def Cursor.start : Cursor := ⟨0, false, false⟩

/-- What the loop of `_close_of` does with one character, its return apart. -/
def Cursor.next (s : Cursor) (c : Char) : Cursor :=
  if s.inStr then
    if s.esc then { s with esc := false }
    else if c == '\\' then { s with esc := true }
    else if c == '"' then { s with inStr := false }
    else s
  else if c == '"' then { s with inStr := true }
  else if opens c then { s with depth := s.depth + 1 }
  else if closes c then { s with depth := s.depth - 1 }
  else s

def closeLoop : Cursor → Nat → List Char → Option Nat
  | _, _, [] => none
  | s, i, c :: cs =>
    if !s.inStr && closes c && (s.next c).depth == 0 then some (i + 1) else closeLoop (s.next c) (i + 1) cs

def closeOf (s : List Char) (pos : Nat) : Option Nat := closeLoop .start pos (s.drop pos)

def maxStarts : Nat := 50

/-- `JsonReplyError` -/
inductive ReplyError where
  | noObject
  | invalid (firstErr : String)
deriving Repr, DecidableEq

def giveUp : Option String → ReplyError
  | none => .noObject
  | some e => .invalid e

/-- The loop of `first_json_value`; a value is returned with the position it was decoded at. -/
def tryStarts (D : Decoder) (kinds : List Kind) (scan : Bool) (s : List Char) :
    Nat → Option Nat → Option String → Except ReplyError (Nat × Json)
  | 0, _, err => .error (giveUp err)
  | _, none, err => .error (giveUp err)
  | n + 1, some pos, err =>
    match D.rawDecode s pos with
    | .error e =>
      match scan, closeOf s pos with
      | true, some after =>
        tryStarts D kinds scan s n (nextOpen s (kinds.map Kind.opener) after) (err.or (some e))
      | _, _ => .error (giveUp (err.or (some e)))
    | .ok (value, after) =>
      if kinds.any (·.holds value) then .ok (pos, value)
      else if scan then tryStarts D kinds scan s n (nextOpen s (kinds.map Kind.opener) after) err
      else .error (giveUp err)

/-- The text that is searched: `raw or ""`. -/
def replyText (raw : Option String) : List Char := (raw.getD "").toList

def firstJsonAt (D : Decoder) (raw : Option String) (kinds : List Kind) (scan : Bool) :
    Except ReplyError (Nat × Json) :=
  tryStarts D kinds scan (replyText raw) maxStarts (nextOpen (replyText raw) (kinds.map Kind.opener) 0) none

def firstJsonValue (D : Decoder) (raw : Option String) (kinds : List Kind) (scan : Bool) : Except ReplyError Json :=
  (firstJsonAt D raw kinds scan).map Prod.snd

/-! ## Open brackets -/

/-- Outside all brackets quotes and closing brackets are prose; inside, the text is read as `_close_of` reads it. -/
def Cursor.read (s : Cursor) (c : Char) : Cursor := if s.depth == 0 && !opens c then s else s.next c

/-- The state in which the character at `p` is read. -/
def nest (s : List Char) (p : Nat) : Cursor := (s.take p).foldl Cursor.read .start

/-- The bracket at `q` has not been closed before `p`. -/
def StillOpen (s : List Char) (q p : Nat) : Prop := ∀ e, closeOf s q = some e → p < e

/-- A bracket before `p`, not one inside a JSON string, is still open at `p`. -/
def InsideOpen (s : List Char) (p : Nat) : Prop :=
  ∃ q < p, (∃ c, s[q]? = some c ∧ opens c = true) ∧ (nest s q).inStr = false ∧ StillOpen s q p

/-! ## The starts of a scan -/

/-- The first `n` brackets of the wanted kinds from `start` on, those inside a bracket of a wanted kind left out; the
first one that is never closed is the last. -/
def starts (kinds : List Kind) (s : List Char) : Nat → Nat → List Nat
  | 0, _ => []
  | n + 1, start =>
    match nextOpen s (kinds.map Kind.opener) start with
    | none => []
    | some p =>
      p :: match closeOf s p with
        | none => []
        | some e => starts kinds s n e

/-- `p` is the first of the starts at which a value can be decoded. -/
def FirstReadable (D : Decoder) (kinds : List Kind) (s : List Char) (p : Nat) : Prop :=
  (starts kinds s maxStarts 0).find? (fun p => (D.rawDecode s p).isOk) = some p

/-! ## Reading a bracket to its close -/

/-- The same state, `d` brackets further in. -/
def Cursor.raise (d : Int) (s : Cursor) : Cursor := { s with depth := s.depth + d }

@[simp] theorem Cursor.raise_depth (d : Int) (s : Cursor) : (s.raise d).depth = s.depth + d := rfl

@[simp] theorem Cursor.raise_inStr (d : Int) (s : Cursor) : (s.raise d).inStr = s.inStr := rfl

@[simp] theorem Cursor.raise_zero (s : Cursor) : s.raise 0 = s := by
  simp [Cursor.raise]

theorem Cursor.next_raise (d : Int) (s : Cursor) (c : Char) : (s.raise d).next c = (s.next c).raise d := by
  unfold Cursor.next Cursor.raise
  split_ifs <;> simp <;> omega

theorem Cursor.read_raise {d : Int} (hd : 0 ≤ d) {s : Cursor} (hs : 0 < s.depth) (c : Char) :
    (s.raise d).read c = (s.next c).raise d := by
  have hne : s.depth + d ≠ 0 := by omega
  rw [Cursor.read, if_neg (by simp [hne]), Cursor.next_raise]

theorem Cursor.next_of_closes {s : Cursor} {c : Char} (hs : s.inStr = false) (hc : closes c = true) :
    s.next c = { s with depth := s.depth - 1 } := by
  have hc' : c = '\x7d' ∨ c = ']' := by simpa [closes] using hc
  rcases hc' with rfl | rfl <;> simp [Cursor.next, hs, opens, closes]

theorem Cursor.next_of_opens {s : Cursor} {c : Char} (hs : s.inStr = false) (hc : opens c = true) :
    s.next c = { s with depth := s.depth + 1 } := by
  have hc' : c = '\x7b' ∨ c = '[' := by simpa [opens] using hc
  rcases hc' with rfl | rfl <;> simp [Cursor.next, hs, opens]

theorem Cursor.depth_le_next {s : Cursor} {c : Char} (h : (!s.inStr && closes c) = false) : s.depth ≤ (s.next c).depth := by
  unfold Cursor.next
  split_ifs with hs _ _ _ _ _ hc <;> simp_all

def Cursor.EscInStr (s : Cursor) : Prop := s.inStr = false → s.esc = false

theorem Cursor.EscInStr.next {s : Cursor} (h : s.EscInStr) (c : Char) : (s.next c).EscInStr := by
  intro hin
  unfold Cursor.next at hin ⊢
  split_ifs at hin ⊢ <;> simp_all [Cursor.EscInStr]

theorem Cursor.next_pos {s : Cursor} {c : Char} (hs : 0 < s.depth)
    (hgo : ¬(!s.inStr && closes c && (s.next c).depth == 0) = true) : 0 < (s.next c).depth := by
  by_cases hcl : (!s.inStr && closes c) = true
  · have hne : (s.next c).depth ≠ 0 := by
      intro h0
      exact hgo (by rw [hcl, h0]; rfl)
    simp only [Bool.and_eq_true, Bool.not_eq_true'] at hcl
    rw [Cursor.next_of_closes hcl.1 hcl.2] at hne ⊢
    simp only at hne ⊢
    omega
  · have := Cursor.depth_le_next (by simpa using hcl)
    omega

variable {i : Nat}

theorem closeLoop_some {d : Int} (hd : 0 ≤ d) {cs : List Char} {s : Cursor} {e : Nat} (hs : 0 < s.depth)
    (hesc : s.EscInStr) (h : closeLoop s i cs = some e) :
    ∃ n < cs.length, e = i + n + 1 ∧ (∀ k ≤ n, d < ((cs.take k).foldl Cursor.read (s.raise d)).depth) ∧
      (cs.take (n + 1)).foldl Cursor.read (s.raise d) = Cursor.start.raise d := by
  induction cs generalizing s i with
  | nil => cases h
  | cons c cs ih =>
    rw [closeLoop] at h
    split at h
    next hclose =>
      simp only [Bool.and_eq_true, Bool.not_eq_true', beq_iff_eq] at hclose
      obtain ⟨⟨hin, hc⟩, hzero⟩ := hclose
      cases h
      refine ⟨0, by simp, by simp, ?_, ?_⟩
      · intro k hk
        obtain rfl : k = 0 := by omega
        simpa using hs
      · have hs0 : s.next c = Cursor.start := by
          rw [Cursor.next_of_closes hin hc] at hzero ⊢
          simp only at hzero
          simp [Cursor.start, hzero, hin, hesc hin]
        simp [Cursor.read_raise hd hs, hs0]
    next hgo =>
      obtain ⟨n, hn, he, hdeep, hback⟩ := ih (Cursor.next_pos hs hgo) (hesc.next c) h
      refine ⟨n + 1, by simpa using hn, by omega, ?_, ?_⟩
      · intro k hk
        cases k with
        | zero => simpa using hs
        | succ k =>
          rw [take_succ_cons, foldl_cons, Cursor.read_raise hd hs]
          exact hdeep k (by omega)
      · rw [take_succ_cons, foldl_cons, Cursor.read_raise hd hs]
        exact hback

theorem closeLoop_none {d : Int} (hd : 0 ≤ d) {cs : List Char} {s : Cursor} (hs : 0 < s.depth)
    (h : closeLoop s i cs = none) (k : Nat) : d < ((cs.take k).foldl Cursor.read (s.raise d)).depth := by
  induction cs generalizing s i k with
  | nil => simpa using hs
  | cons c cs ih =>
    rw [closeLoop] at h
    split at h
    next => cases h
    next hgo =>
      cases k with
      | zero => simpa using hs
      | succ k =>
        rw [take_succ_cons, foldl_cons, Cursor.read_raise hd hs]
        exact ih (Cursor.next_pos hs hgo) h k

/-! ## The state at a position -/

theorem nest_add (s : List Char) (p k : Nat) : nest s (p + k) = ((s.drop p).take k).foldl Cursor.read (nest s p) := by
  rw [nest, take_add, foldl_append]
  rfl

variable {p : Nat}

theorem nest_succ {s : List Char} {c : Char} (h : s[p]? = some c) : nest s (p + 1) = (nest s p).read c := by
  rw [nest_add, take_one, List.head?_drop, h]
  rfl

/-- What every state of a reading meets: outside the brackets it is the state at the start. -/
structure Cursor.Sound (s : Cursor) : Prop where
  nonneg : 0 ≤ s.depth
  outside : s.depth = 0 → s = .start
  escInStr : s.EscInStr

theorem Cursor.Sound.read {s : Cursor} (h : s.Sound) (c : Char) : (s.read c).Sound := by
  rw [Cursor.read]
  split
  next => exact h
  next hread =>
    have hesc := h.escInStr.next c
    by_cases hcl : (!s.inStr && closes c) = true
    · simp only [Bool.and_eq_true, Bool.not_eq_true'] at hcl
      have hnotopen : opens c = false := by
        have hc : c = '\x7d' ∨ c = ']' := by simpa [closes] using hcl.2
        rcases hc with rfl | rfl <;> rfl
      have hne : s.depth ≠ 0 := by
        intro h0
        exact hread (by simp [h0, hnotopen])
      have hnn := h.nonneg
      refine ⟨?_, ?_, hesc⟩
      · rw [Cursor.next_of_closes hcl.1 hcl.2]
        simp only
        omega
      · rw [Cursor.next_of_closes hcl.1 hcl.2]
        intro h0
        simp only at h0
        simp [Cursor.start, h0, hcl.1, h.escInStr hcl.1]
    · have hle := Cursor.depth_le_next (by simpa using hcl)
      have hnn := h.nonneg
      refine ⟨by omega, ?_, hesc⟩
      intro h0
      have hs : s = .start := h.outside (by omega)
      subst hs
      have hop : opens c = true := by
        by_contra hop
        exact hread (by simp [Cursor.start, hop])
      rw [Cursor.next_of_opens rfl hop] at h0
      simp [Cursor.start] at h0

theorem sound_nest (s : List Char) (p : Nat) : (nest s p).Sound := by
  induction p with
  | zero => exact ⟨by simp [nest, Cursor.start], fun _ => rfl, fun _ => rfl⟩
  | succ p ih =>
    cases hc : s[p]? with
    | none =>
      rw [nest, take_of_length_le (by have := List.getElem?_eq_none_iff.1 hc; omega)]
      rw [nest, take_of_length_le (List.getElem?_eq_none_iff.1 hc)] at ih
      exact ih
    | some c =>
      rw [nest_succ hc]
      exact ih.read c

section Bracket

variable {s : List Char} {q : Nat} {c : Char} (hc : s[q]? = some c) (ho : opens c = true)
include hc ho

theorem closeOf_eq : closeOf s q = closeLoop ⟨1, false, false⟩ (q + 1) (s.drop (q + 1)) := by
  obtain ⟨hlt, hget⟩ := List.getElem?_eq_some_iff.1 hc
  have hnc : closes c = false := by
    have ho' : c = '\x7b' ∨ c = '[' := by simpa [opens] using ho
    rcases ho' with rfl | rfl <;> rfl
  rw [closeOf, drop_eq_getElem_cons hlt, hget, closeLoop, if_neg (by simp [hnc]), Cursor.next_of_opens rfl ho]
  rfl

variable (hin : (nest s q).inStr = false)
include hin

theorem nest_opened : nest s (q + 1) = Cursor.raise (nest s q).depth ⟨1, false, false⟩ := by
  have hesc := (sound_nest s q).escInStr hin
  rw [nest_succ hc, Cursor.read, if_neg (by simp [ho]), Cursor.next_of_opens hin ho]
  simp [Cursor.raise, hin, hesc, add_comm]

theorem nest_of_closed {e : Nat} (h : closeOf s q = some e) :
    q + 1 < e ∧ (∀ p, q < p → p < e → (nest s q).depth < (nest s p).depth) ∧ nest s e = nest s q := by
  have hsound := sound_nest s q
  rw [closeOf_eq hc ho] at h
  obtain ⟨n, -, rfl, hdeep, hback⟩ := closeLoop_some hsound.nonneg (by decide) (fun _ => rfl) h
  rw [← nest_opened hc ho hin] at hback
  refine ⟨by omega, ?_, ?_⟩
  · intro p hqp hpe
    obtain ⟨k, rfl⟩ : ∃ k, p = q + 1 + k := ⟨p - (q + 1), by omega⟩
    rw [nest_add, nest_opened hc ho hin]
    exact hdeep k (by omega)
  · rw [Nat.add_assoc (q + 1) n 1, nest_add, hback]
    have hesc := hsound.escInStr hin
    show (⟨0 + (nest s q).depth, false, false⟩ : Cursor) = nest s q
    cases hn : nest s q
    simp_all

theorem nest_of_unclosed (h : closeOf s q = none) {p : Nat} (hqp : q < p) : (nest s q).depth < (nest s p).depth := by
  rw [closeOf_eq hc ho] at h
  obtain ⟨k, rfl⟩ : ∃ k, p = q + 1 + k := ⟨p - (q + 1), by omega⟩
  rw [nest_add, nest_opened hc ho hin]
  exact closeLoop_none (sound_nest s q).nonneg (by decide) h k

theorem nest_of_stillOpen {p : Nat} (hqp : q < p) (h : StillOpen s q p) : (nest s q).depth < (nest s p).depth := by
  cases hcl : closeOf s q with
  | none => exact nest_of_unclosed hc ho hin hcl hqp
  | some e => exact (nest_of_closed hc ho hin hcl).2.1 p hqp (h e hcl)

end Bracket

theorem exists_outermost {s : List Char} (hp : p ≤ s.length) (h : 0 < (nest s p).depth) :
    ∃ q < p, (∃ c, s[q]? = some c ∧ opens c = true) ∧ nest s q = .start ∧ StillOpen s q p := by
  induction p with
  | zero => simp [nest, Cursor.start] at h
  | succ p ih =>
    have hc : s[p]? = some s[p] := List.getElem?_eq_getElem (by omega)
    by_cases h0 : (nest s p).depth = 0
    · -- the bracket at `p` opens here
      have hstart := (sound_nest s p).outside h0
      have ho : opens s[p] = true := by
        by_contra ho
        rw [nest_succ hc, Cursor.read, if_pos (by simp [h0, ho])] at h
        omega
      refine ⟨p, by omega, ⟨_, hc, ho⟩, hstart, ?_⟩
      intro e he
      exact (nest_of_closed hc ho (by rw [hstart]; rfl) he).1
    · have hpos : 0 < (nest s p).depth := lt_of_le_of_ne (sound_nest s p).nonneg (Ne.symm h0)
      obtain ⟨q, hqp, ⟨c, hq, ho⟩, hstart, hopen⟩ := ih (by omega) hpos
      refine ⟨q, by omega, ⟨c, hq, ho⟩, hstart, ?_⟩
      intro e he
      have hlt := hopen e he
      have hback := (nest_of_closed hq ho (by rw [hstart]; rfl) he).2.2
      have hne : e ≠ p + 1 := by
        rintro rfl
        rw [hback, hstart] at h
        exact absurd h (by decide)
      omega

theorem insideOpen_iff {s : List Char} (hp : p ≤ s.length) : InsideOpen s p ↔ 0 < (nest s p).depth := by
  constructor
  · rintro ⟨q, hqp, ⟨c, hc, ho⟩, hin, hopen⟩
    have := nest_of_stillOpen hc ho hin hqp hopen
    have := (sound_nest s q).nonneg
    omega
  · intro h
    obtain ⟨q, hqp, hopener, hstart, hopen⟩ := exists_outermost hp h
    exact ⟨q, hqp, hopener, by rw [hstart]; rfl, hopen⟩

/-! ## What the scan returns -/

variable {start : Nat}

theorem findFrom_eq_some {s : List Char} {c : Char} (h : findFrom s start c = some i) : start ≤ i ∧ s[i]? = some c := by
  obtain ⟨k, hk, rfl⟩ := Option.map_eq_some_iff.1 h
  obtain ⟨hlt, hget, -⟩ := List.findIdx?_eq_some_iff_getElem.1 hk
  refine ⟨by omega, ?_⟩
  rw [getElem_drop, beq_iff_eq] at hget
  rw [List.getElem?_eq_some_iff]
  exact ⟨by rw [length_drop] at hlt; omega, hget⟩

theorem findFrom_le {s : List Char} {j : Nat} {c : Char} (hj : start ≤ j) (h : s[j]? = some c) :
    ∃ i ≤ j, findFrom s start c = some i := by
  obtain ⟨hlt, hget⟩ := List.getElem?_eq_some_iff.1 h
  cases hfind : (s.drop start).findIdx? (· == c) with
  | none =>
    have hall := List.findIdx?_eq_none_iff.1 hfind c (by
      rw [mem_drop_iff_getElem]
      exact ⟨j - start, by omega, by rw [← hget]; congr 1; omega⟩)
    simp at hall
  | some k =>
    refine ⟨start + k, ?_, by rw [findFrom, hfind]; rfl⟩
    obtain ⟨_, -, hfirst⟩ := List.findIdx?_eq_some_iff_getElem.1 hfind
    by_contra hgt
    have hne := hfirst (j - start) (by omega)
    have hidx : start + (j - start) = j := by omega
    simp [hidx, hget] at hne

theorem nextOpen_eq_some {s chars : List Char} (h : nextOpen s chars start = some i) :
    start ≤ i ∧ (∃ c ∈ chars, s[i]? = some c) ∧ ∀ j, start ≤ j → j < i → ∀ c ∈ chars, s[j]? ≠ some c := by
  obtain ⟨hmem, hmin⟩ := List.min?_eq_some_iff.1 h
  obtain ⟨c, hc, hfind⟩ := mem_filterMap.1 hmem
  obtain ⟨hle, hget⟩ := findFrom_eq_some hfind
  refine ⟨hle, ⟨c, hc, hget⟩, ?_⟩
  intro j hj hji c' hc' hget'
  obtain ⟨i', hi', hfind'⟩ := findFrom_le hj hget'
  have := hmin i' (mem_filterMap.2 ⟨c', hc', hfind'⟩)
  omega

theorem opens_opener (k : Kind) : opens k.opener = true := by
  cases k <;> rfl

variable {kinds : List Kind}

theorem opener_of_mem_starts {s : List Char} {n : Nat} (h : p ∈ starts kinds s n start) :
    ∃ k ∈ kinds, s[p]? = some k.opener := by
  induction n generalizing start with
  | zero => cases h
  | succ n ih =>
    rw [starts] at h
    split at h
    next => cases h
    next q hq =>
      obtain ⟨-, ⟨c, hc, hget⟩, -⟩ := nextOpen_eq_some hq
      obtain ⟨k, hk, rfl⟩ := mem_map.1 hc
      rcases mem_cons.1 h with rfl | h
      · exact ⟨k, hk, hget⟩
      · split at h
        next => cases h
        next => exact ih h

theorem tryStarts_eq_ok_iff (D : Decoder) {s : List Char} {n : Nat} {err : Option String} {v : Json} :
    tryStarts D kinds true s n (nextOpen s (kinds.map Kind.opener) start) err = .ok (p, v) ↔
      (starts kinds s n start).find? (fun p => (D.rawDecode s p).isOk) = some p ∧ ∃ e, D.rawDecode s p = .ok (v, e) := by
  induction n generalizing start err with
  | zero => simp [tryStarts, starts]
  | succ n ih =>
    cases hq : nextOpen s (kinds.map Kind.opener) start with
    | none => simp [tryStarts, starts, hq]
    | some q =>
      obtain ⟨-, ⟨c, hc, hget⟩, -⟩ := nextOpen_eq_some hq
      obtain ⟨k, hk, rfl⟩ := mem_map.1 hc
      rw [tryStarts, starts, hq]
      cases hdec : D.rawDecode s q with
      | error e =>
        have hno : (D.rawDecode s q).isOk = false := by rw [hdec]; rfl
        simp only [List.find?_cons, hno]
        cases hcl : closeOf s q with
        | none => simp
        | some after => exact ih
      | ok r =>
        obtain ⟨v', e⟩ := r
        have hyes : (D.rawDecode s q).isOk = true := by rw [hdec]; rfl
        have hkind : kinds.any (·.holds v') = true :=
          List.any_eq_true.2 ⟨k, hk, D.kind_of_opener k hdec hget⟩
        simp only [hkind, if_true, List.find?_cons, hyes, Except.ok.injEq, Prod.mk.injEq, Option.some.injEq]
        constructor
        · rintro ⟨rfl, rfl⟩
          exact ⟨rfl, e, hdec⟩
        · rintro ⟨rfl, e', he'⟩
          rw [hdec] at he'
          cases he'
          exact ⟨rfl, rfl⟩

theorem nest_of_no_opener {s : List Char} (h0 : nest s start = .start) (hle : start ≤ i)
    (hi : i ≤ s.length) (hno : ∀ j c, start ≤ j → j < i → s[j]? = some c → opens c = false) : nest s i = .start := by
  induction i, hle using Nat.le_induction with
  | base => exact h0
  | succ i hle ih =>
    have hprev := ih (by omega) fun j c hj hji => hno j c hj (by omega)
    have hc : s[i]? = some s[i] := List.getElem?_eq_getElem (by omega)
    have hplain := hno i s[i] hle (by omega) hc
    rw [nest_succ hc, Cursor.read, hprev, if_pos (by simp [Cursor.start, hplain])]

theorem nest_of_mem_starts (hdict : Kind.dict ∈ kinds) (hlist : Kind.list ∈ kinds) {s : List Char}
    {n : Nat} (h0 : nest s start = .start) (h : p ∈ starts kinds s n start) : nest s p = .start := by
  induction n generalizing start with
  | zero => cases h
  | succ n ih =>
    rw [starts] at h
    split at h
    next => cases h
    next q hq =>
      obtain ⟨hle, ⟨c, hc, hget⟩, hfirst⟩ := nextOpen_eq_some hq
      obtain ⟨k, hk, rfl⟩ := mem_map.1 hc
      obtain ⟨hlt, -⟩ := List.getElem?_eq_some_iff.1 hget
      have hstart : nest s q = .start := by
        refine nest_of_no_opener h0 hle (by omega) ?_
        intro j c' hj hjq hc'
        by_contra ho
        have ho' : c' = Kind.dict.opener ∨ c' = Kind.list.opener := by
          simpa [opens, Kind.opener, or_iff_not_imp_left] using ho
        rcases ho' with rfl | rfl
        · exact hfirst j hj hjq _ (mem_map_of_mem hdict) hc'
        · exact hfirst j hj hjq _ (mem_map_of_mem hlist) hc'
      rcases mem_cons.1 h with rfl | h
      · exact hstart
      · split at h
        next => cases h
        next e he =>
          have hback := (nest_of_closed hget (opens_opener k) (by rw [hstart]; rfl) he).2.2
          exact ih (by rw [hback, hstart]) h

theorem firstJsonAt_eq_ok_iff (D : Decoder) {raw : Option String} {v : Json} :
    firstJsonAt D raw kinds true = .ok (p, v) ↔
      FirstReadable D kinds (replyText raw) p ∧ ∃ e, D.rawDecode (replyText raw) p = .ok (v, e) :=
  tryStarts_eq_ok_iff D

theorem FirstReadable.returned {D : Decoder} {raw : Option String}
    (h : FirstReadable D kinds (replyText raw) p) : ∃ v, firstJsonAt D raw kinds true = .ok (p, v) := by
  have hok : (D.rawDecode (replyText raw) p).isOk = true := List.find?_some (p := fun p => (D.rawDecode _ p).isOk) h
  cases hdec : D.rawDecode (replyText raw) p with
  | error e =>
    rw [hdec] at hok
    cases hok
  | ok r => exact ⟨r.1, (firstJsonAt_eq_ok_iff D).2 ⟨h, r.2, hdec⟩⟩

theorem FirstReadable.lt_length {D : Decoder} {s : List Char} (h : FirstReadable D kinds s p) : p < s.length := by
  obtain ⟨k, -, hget⟩ := opener_of_mem_starts (List.mem_of_find?_eq_some h)
  exact (List.getElem?_eq_some_iff.1 hget).1

/-- A scan never returns a piece of something larger exactly when it looks for both kinds of bracket, or the brackets
before the first start that decodes balance. -/
theorem returned_at_top_iff (D : Decoder) (raw : Option String) (kinds : List Kind) :
    (∀ p v, firstJsonAt D raw kinds true = .ok (p, v) → ¬InsideOpen (replyText raw) p) ↔
      (Kind.dict ∈ kinds ∧ Kind.list ∈ kinds) ∨
        ∀ p, FirstReadable D kinds (replyText raw) p → (nest (replyText raw) p).depth = 0 := by
  constructor
  · intro h
    refine Or.inr fun p hp => ?_
    obtain ⟨v, hv⟩ := hp.returned
    have hout := h p v hv
    rw [insideOpen_iff hp.lt_length.le] at hout
    have := (sound_nest (replyText raw) p).nonneg
    omega
  · intro h p v hv
    obtain ⟨hp, -⟩ := (firstJsonAt_eq_ok_iff D).1 hv
    rw [insideOpen_iff hp.lt_length.le]
    rcases h with ⟨hdict, hlist⟩ | hbal
    · rw [nest_of_mem_starts hdict hlist rfl (List.mem_of_find?_eq_some hp)]
      decide
    · rw [hbal p hp]
      decide

/-- A decoder that reads one object only, in the text that `json.dumps` gives it. -/
def oneObject : Decoder where
  rawDecode s i :=
    if "\x7b\"a\": 1\x7d".toList.isPrefixOf (s.drop i) then .ok (.obj [("a", .num 1 0)], i + 8)
    else .error "Expecting value"
  kind_of_opener := by
    intro s i v e k h hget
    split at h
    next hpre =>
      cases h
      obtain ⟨t, ht⟩ := List.isPrefixOf_iff_prefix.1 hpre
      rw [← List.head?_drop, ← ht] at hget
      cases k with
      | dict => rfl
      | list => exact absurd hget (by simp [Kind.opener])
    next => cases h

/-- An object is wanted and the reply is a list of objects, cut off after the first: that object is returned. -/
theorem object_of_cut_off_list : ¬∀ p v,
    firstJsonAt oneObject (some "[\x7b\"a\": 1\x7d, \x7b\"a\":") [.dict] true = .ok (p, v) →
      ¬InsideOpen (replyText (some "[\x7b\"a\": 1\x7d, \x7b\"a\":")) p := by
  intro h
  refine h 1 (.obj [("a", .num 1 0)]) rfl ⟨0, by decide, ⟨'[', rfl, rfl⟩, rfl, ?_⟩
  intro e he
  cases he

end CisApp.Replies
