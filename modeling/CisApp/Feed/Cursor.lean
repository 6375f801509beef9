import CisApp.Lib.Base64

/-! The cursor of the event feeds (`services/tenant_membership/feed.py`).

A cursor is `base64url("v1:<txid>:<seq>")` without padding.  `decodeCursor` checks what it is given; on a
cursor that `encodeCursor` wrote it gives back the numbers (`decodeCursor_encodeCursor`). -/

namespace CisApp.Feed

open Lib List

def maxCursor : Nat := 200
def cursorPrefix : List Char := "v1".toList
def maxTxid : Nat := 2 ^ 64 - 1
def maxSeq : Nat := 2 ^ 63 - 1

/-- `after is not a cursor this API issued`. -/
inductive InvalidRequest where
  | notACursor
  | badLimit
deriving Repr, DecidableEq

def start : Nat × Nat := (0, 0)

/-- `f"{_PREFIX}:{txid}:{seq}"`. -/
def rawCursor (txid seq : Nat) : List Char :=
  List.intercalate [':'] [cursorPrefix, Nat.toDigits 10 txid, Nat.toDigits 10 seq]

def encodeCursor (txid seq : Nat) : String :=
  String.ofList (Base64.strip (Base64.encode ((rawCursor txid seq).map Char.toNat)))

/-- Python's `isdigit` on ASCII text. -/
def isDigits (cs : List Char) : Bool := !cs.isEmpty && cs.all Char.isDigit

def parseInt (cs : List Char) : Nat := Nat.ofDigitChars 10 cs 0

/-- From the split text on. -/
def readParts : List (List Char) → Except InvalidRequest (Nat × Nat)
  | [version, txid, seq] =>
    if version ≠ cursorPrefix || !isDigits txid || !isDigits seq then .error .notACursor
    else if maxTxid < parseInt txid || maxSeq < parseInt seq then .error .notACursor
    else .ok (parseInt txid, parseInt seq)
  | _ => .error .notACursor

def decodeCursor (value : Option String) : Except InvalidRequest (Nat × Nat) :=
  match value with
  | none => .ok start
  | some v =>
    if v = "" then .ok start
    else if maxCursor < v.length || !v.toList.all (fun c => c.toNat < 128) then .error .notACursor
    else
      match Base64.decode (Base64.pad v.toList) with
      | none => .error .notACursor
      | some bytes =>
        if bytes.all (· < 128) then readParts ((bytes.map Char.ofNat).splitOn ':')
        else .error .notACursor

/-! ## Round trip -/

theorem isDigits_toDigits (n : Nat) : isDigits (Nat.toDigits 10 n) = true := by
  unfold isDigits
  rw [Bool.and_eq_true, all_eq_true]
  refine ⟨?_, fun c hc => Nat.isDigit_of_mem_toDigits (by omega) (by omega) hc⟩
  simp

theorem colon_notMem_toDigits (n : Nat) : ':' ∉ Nat.toDigits 10 n := by
  intro hmem
  have := Nat.isDigit_of_mem_toDigits (by omega) (by omega) hmem
  revert this
  decide

theorem isDigit_lt {c : Char} (h : c.isDigit = true) : c.toNat < 128 := by
  unfold Char.isDigit at h
  rw [Bool.and_eq_true, decide_eq_true_eq, decide_eq_true_eq] at h
  have := UInt32.le_iff_toNat_le.1 h.2
  show c.val.toNat < 128
  have h57 : '9'.val.toNat = 57 := rfl
  omega

variable {txid seq : Nat}

theorem mem_rawCursor {c : Char} (h : c ∈ rawCursor txid seq) : c.toNat < 128 := by
  unfold rawCursor at h
  simp only [intercalate_cons_cons, intercalate_singleton, mem_append] at h
  have hdigits : ∀ n, c ∈ Nat.toDigits 10 n → c.toNat < 128 := fun n hc =>
    isDigit_lt (Nat.isDigit_of_mem_toDigits (by omega) (by omega) hc)
  rcases h with (h | h) | (h | h) | h
  · have hall : cursorPrefix.all (fun c => c.toNat < 128) = true := by decide +kernel
    exact of_decide_eq_true (List.all_eq_true.1 hall c h)
  · rw [mem_singleton.1 h]
    decide
  · exact hdigits txid h
  · rw [mem_singleton.1 h]
    decide
  · exact hdigits seq h

theorem length_rawCursor (ht : txid ≤ maxTxid) (hs : seq ≤ maxSeq) :
    3 ≤ (rawCursor txid seq).length ∧ (rawCursor txid seq).length ≤ 43 := by
  have htxid : (Nat.toDigits 10 txid).length ≤ 20 := by
    rw [Nat.length_toDigits_le_iff (by omega) (by omega)]
    unfold maxTxid at ht
    omega
  have hseq : (Nat.toDigits 10 seq).length ≤ 19 := by
    rw [Nat.length_toDigits_le_iff (by omega) (by omega)]
    unfold maxSeq at hs
    omega
  have hlen : (rawCursor txid seq).length =
      2 + 1 + ((Nat.toDigits 10 txid).length + 1 + (Nat.toDigits 10 seq).length) := by
    unfold rawCursor
    simp [intercalate_cons_cons, cursorPrefix]
    omega
  omega

theorem splitOn_rawCursor (txid seq : Nat) :
    (rawCursor txid seq).splitOn ':' = [cursorPrefix, Nat.toDigits 10 txid, Nat.toDigits 10 seq] := by
  refine splitOn_intercalate ':' ?_ (cons_ne_nil _ _)
  intro part hpart
  simp only [mem_cons, not_mem_nil, or_false] at hpart
  rcases hpart with rfl | rfl | rfl
  · decide
  · exact colon_notMem_toDigits txid
  · exact colon_notMem_toDigits seq

theorem toList_encodeCursor (txid seq : Nat) :
    (encodeCursor txid seq).toList = Base64.encodeBare ((rawCursor txid seq).map Char.toNat) := by
  have hlt : ∀ b ∈ (rawCursor txid seq).map Char.toNat, b < 256 := by
    intro b hb
    obtain ⟨c, hc, rfl⟩ := mem_map.1 hb
    exact lt_trans (mem_rawCursor hc) (by omega)
  unfold encodeCursor
  rw [String.toList_ofList, Base64.strip_encode hlt]

theorem length_encodeCursor (txid seq : Nat) :
    (encodeCursor txid seq).length = (4 * (rawCursor txid seq).length + 2) / 3 := by
  rw [← String.length_toList, toList_encodeCursor, Base64.length_encodeBare, length_map]

theorem encodeCursor_ne_empty (ht : txid ≤ maxTxid) (hs : seq ≤ maxSeq) : encodeCursor txid seq ≠ "" := by
  intro heq
  have hlen := length_encodeCursor txid seq
  have hraw := length_rawCursor ht hs
  rw [heq] at hlen
  simp only [String.length_empty] at hlen
  omega

theorem decodeCursor_encodeCursor (ht : txid ≤ maxTxid) (hs : seq ≤ maxSeq) :
    decodeCursor (some (encodeCursor txid seq)) = .ok (txid, seq) := by
  have hbytes : ∀ b ∈ (rawCursor txid seq).map Char.toNat, b < 128 := by
    intro b hb
    obtain ⟨c, hc, rfl⟩ := mem_map.1 hb
    exact mem_rawCursor hc
  have hlt : ∀ b ∈ (rawCursor txid seq).map Char.toNat, b < 256 := fun b hb =>
    lt_trans (hbytes b hb) (by omega)
  have hlist := toList_encodeCursor txid seq
  have hlen := length_encodeCursor txid seq
  have hraw := length_rawCursor ht hs
  have hne := encodeCursor_ne_empty ht hs
  have hascii : (encodeCursor txid seq).toList.all (fun c => c.toNat < 128) = true := by
    rw [hlist, all_eq_true]
    intro c hc
    obtain ⟨v, hv, rfl⟩ := Base64.mem_encodeBare hlt hc
    exact decide_eq_true (Base64.isAscii_char hv)
  have hdecode : Base64.decode (Base64.pad (encodeCursor txid seq).toList) =
      some ((rawCursor txid seq).map Char.toNat) := by
    rw [hlist, Base64.pad_encodeBare, Base64.decode_encode hlt]
  have hback : ((rawCursor txid seq).map Char.toNat).map Char.ofNat = rawCursor txid seq := by
    simp [Function.comp_def]
  have hshort : ¬maxCursor < (encodeCursor txid seq).length := by
    unfold maxCursor
    omega
  unfold decodeCursor
  dsimp only
  rw [if_neg hne, hascii, if_neg (by simpa using hshort), hdecode]
  dsimp only
  rw [if_pos (by rw [all_eq_true]; exact fun b hb => decide_eq_true (hbytes b hb)), hback,
    splitOn_rawCursor, readParts]
  have htxid : parseInt (Nat.toDigits 10 txid) = txid := Nat.ofDigitChars_toDigits (by omega) (by omega)
  have hseq : parseInt (Nat.toDigits 10 seq) = seq := Nat.ofDigitChars_toDigits (by omega) (by omega)
  rw [isDigits_toDigits, isDigits_toDigits, htxid, hseq, if_neg (by simp), if_neg (by simp; omega)]

end CisApp.Feed
