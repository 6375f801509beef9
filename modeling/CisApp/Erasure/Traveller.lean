import CisApp.Lib.JsonText
import CisApp.Lib.Scan
import CisApp.Lib.Text

/-! The traveller scan (`services/erasure/plan.py`).

A traveller's address is known to the erasure only by its hash, so a text column is searched by
hashing every e-mail-shaped token of it (`EMAIL_TOKEN_RE`, all matches, each the longest at its
place) and comparing with the traveller's hash.

A column of JSON documents is searched in its text.  There a token ends at the first character
that is none of its own, and an address between two separators is found (`Lib.mem_findMatches`) as
long as the text in front of it ends on a separator too.  The text writes a control character as a
backslash and letters or digits, and these letters then belong to the token: `\nann@x.org` is
read as `nann@x.org`. -/

namespace CisApp.Erasure

open Lib List

/-- `[A-Za-z0-9._%+-]`. -/
def localChar (c : Char) : Bool :=
  c.isAlphanum || c == '.' || c == '_' || c == '%' || c == '+' || c == '-'

/-- `[A-Za-z0-9.-]`. -/
def domainChar (c : Char) : Bool := c.isAlphanum || c == '.' || c == '-'

/-- `[A-Za-z0-9.-]+\.[A-Za-z]{2,}`, with the last dot at `i`. -/
def domainAt (d : Text) (i : Nat) : Bool :=
  0 < i && (d.take i).all domainChar && d[i]? == some '.' && (d.drop (i + 1)).all Char.isAlpha &&
    2 ≤ (d.drop (i + 1)).length

/-- A full match of `EMAIL_TOKEN_RE`. -/
def emailToken (w : Text) : Bool :=
  let name := w.takeWhile (· != '@')
  match w.dropWhile (· != '@') with
  | '@' :: d => !name.isEmpty && name.all localChar && (List.range d.length).any (domainAt d)
  | _ => false

/-- `lower` on the letters a token can have. -/
def lower (s : Text) : Text := s.map Char.toLower

def subjectHash (hash : Text → Text) (address : Text) : Text := hash (lower (strip address))

/-- `traveller_where` of a text scan; `none` is a column that is NULL. -/
def travellerWhere (hash : Text → Text) (subject : Text) : Option Text → Bool
  | none => false
  | some column =>
    column.contains '@' && (findMatches emailToken column).any fun tok => hash (lower tok) == subject

/-- The rows a scan counts (`count_traveller`). -/
def countTraveller (hash : Text → Text) (subject : Text) (column : List (Option Text)) : Nat :=
  column.countP (travellerWhere hash subject)

/-- The text of a `jsonb` column. -/
def jsonText (doc : Json) : Option Text := some doc.render.toList

/-! ## Tokens -/

def tokenChar (c : Char) : Bool := localChar c || c == '@'

variable {c : Char}

theorem ascii_cases (P : Char → Prop) [DecidablePred P] (h : ∀ n : Fin 128, P (Char.ofNat n.val))
    (hc : c.toNat < 128) : P c := by
  have := h ⟨c.toNat, hc⟩
  rwa [Char.ofNat_toNat] at this

theorem tokenChar_of_domain (h : domainChar c = true) : tokenChar c = true := by
  unfold domainChar at h
  unfold tokenChar localChar
  simp only [Bool.or_eq_true] at h ⊢
  tauto

theorem tokenChar_of_alpha (h : c.isAlpha = true) : tokenChar c = true := by
  unfold tokenChar localChar Char.isAlphanum
  simp [h]

theorem alpha_lt (h : c.isAlphanum = true) : c.toNat < 128 := by
  simp only [Char.isAlphanum, Char.isAlpha, Char.isUpper, Char.isLower, Char.isDigit,
    Bool.or_eq_true, Bool.and_eq_true, decide_eq_true_eq, UInt32.le_iff_toNat_le, ge_iff_le] at h
  change ((65 ≤ c.toNat ∧ c.toNat ≤ 90) ∨ (97 ≤ c.toNat ∧ c.toNat ≤ 122)) ∨
    (48 ≤ c.toNat ∧ c.toNat ≤ 57) at h
  omega

theorem tokenChar_lt (h : tokenChar c = true) : c.toNat < 128 := by
  unfold tokenChar localChar at h
  simp only [Bool.or_eq_true, beq_iff_eq] at h
  rcases h with (((((h | rfl) | rfl) | rfl) | rfl) | rfl) | rfl
  · exact alpha_lt h
  all_goals decide

variable {w : Text}

theorem emailToken_chars (h : emailToken w = true) : ∀ c ∈ w, tokenChar c = true := by
  intro c hc
  rw [← takeWhile_append_dropWhile (p := (· != '@')) (l := w), mem_append] at hc
  unfold emailToken at h
  split at h
  · next d hd =>
    simp only [Bool.and_eq_true, any_eq_true, all_eq_true] at h
    obtain ⟨⟨-, hname⟩, i, -, hi⟩ := h
    rcases hc with hc | hc
    · unfold tokenChar
      rw [hname c hc, Bool.true_or]
    · rw [hd, mem_cons] at hc
      rcases hc with rfl | hc
      · rfl
      · -- in the domain: in front of the last dot, the dot, or behind it
        unfold domainAt at hi
        simp only [Bool.and_eq_true, all_eq_true, beq_iff_eq] at hi
        obtain ⟨⟨⟨⟨-, h₁⟩, h₂⟩, h₃⟩, -⟩ := hi
        obtain ⟨n, hn⟩ := mem_iff_getElem?.1 hc
        rcases Nat.lt_trichotomy n i with hlt | rfl | hgt
        · exact tokenChar_of_domain (h₁ c (mem_iff_getElem?.2 ⟨n, by rw [List.getElem?_take_of_lt hlt, hn]⟩))
        · rw [h₂, Option.some.injEq] at hn
          rw [← hn]
          rfl
        · refine tokenChar_of_alpha (h₃ c (mem_iff_getElem?.2 ⟨n - (i + 1), ?_⟩))
          rw [List.getElem?_drop, ← hn]
          congr 1
          omega
  · cases h

theorem emailToken_ne_nil (h : emailToken w = true) : w ≠ [] := by
  rintro rfl
  cases h

theorem at_mem_of_emailToken (h : emailToken w = true) : '@' ∈ w := by
  unfold emailToken at h
  split at h
  · next d hd =>
    refine (dropWhile_sublist (· != '@')).subset ?_
    rw [hd]
    exact mem_cons_self
  · cases h

theorem emailToken_append {u : Text} (hu : ∀ c ∈ u, localChar c = true)
    (h : emailToken w = true) : emailToken (u ++ w) = true := by
  have hat : ∀ c ∈ u, (c != '@') = true := by
    intro c hc
    have := hu c hc
    by_contra hne
    obtain rfl : c = '@' := by simpa using hne
    cases this
  unfold emailToken at h ⊢
  rw [takeWhile_append_of_pos hat, dropWhile_append_of_pos hat]
  split at h
  · simp only [Bool.and_eq_true, all_eq_true] at h ⊢
    obtain ⟨⟨h₁, h₂⟩, h₃⟩ := h
    refine ⟨⟨?_, ?_⟩, h₃⟩
    · cases u <;> simp_all
    · intro c hc
      rcases mem_append.1 hc with hc | hc
      · exact hu c hc
      · exact h₂ c hc
  · cases h

/-! ## Letter case -/

theorem toLower_of_le (h : 128 ≤ c.toNat) : c.toLower = c := by
  unfold Char.toLower
  rw [dif_neg]
  rintro ⟨-, h₂⟩
  change c.toNat ≤ 90 at h₂
  omega

theorem classes_toLower (c : Char) : localChar c.toLower = localChar c ∧ domainChar c.toLower = domainChar c ∧
      c.toLower.isAlpha = c.isAlpha ∧ (c.toLower == '@') = (c == '@') ∧ (c.toLower == '.') = (c == '.') := by
  by_cases hc : c.toNat < 128
  · exact ascii_cases (fun c => localChar c.toLower = localChar c ∧
      domainChar c.toLower = domainChar c ∧ c.toLower.isAlpha = c.isAlpha ∧
      (c.toLower == '@') = (c == '@') ∧ (c.toLower == '.') = (c == '.')) (by decide) hc
  · rw [toLower_of_le (by omega)]
    exact ⟨rfl, rfl, rfl, rfl, rfl⟩

theorem domainAt_lower (d : Text) (i : Nat) : domainAt (lower d) i = domainAt d i := by
  have hget : ((lower d)[i]? == some '.') = (d[i]? == some '.') := by
    unfold lower
    rw [List.getElem?_map]
    cases d[i]? with
    | none => rfl
    | some c => exact (classes_toLower c).2.2.2.2
  unfold domainAt
  unfold lower
  rw [← map_take, ← map_drop, all_map, all_map, length_map]
  congr 2
  · congr 1
    refine congrArg _ ?_
    exact all_congr rfl fun c => (classes_toLower c).2.1
  · exact all_congr rfl fun c => (classes_toLower c).2.2.1

theorem emailToken_lower (w : Text) : emailToken (lower w) = emailToken w := by
  have hat : ((· != '@') : Char → Bool) ∘ Char.toLower = (· != '@') := by
    funext c
    show (!(c.toLower == '@')) = !(c == '@')
    rw [(classes_toLower c).2.2.2.1]
  unfold emailToken
  unfold lower
  rw [takeWhile_map, dropWhile_map, hat]
  cases w.dropWhile (· != '@') with
  | nil => rfl
  | cons c d =>
    by_cases hc : c = '@'
    · subst hc
      have hdom : (List.range (d.map Char.toLower).length).any (domainAt (d.map Char.toLower)) =
          (List.range d.length).any (domainAt d) := by
        rw [length_map]
        exact any_congr rfl fun i => domainAt_lower d i
      show (!_ && _ && _) = _
      rw [hdom, isEmpty_map, all_map]
      congr 2
      exact all_congr rfl fun c => (classes_toLower c).1
    · have hc' : c.toLower ≠ '@' := by
        intro h
        have := (classes_toLower c).2.2.2.1
        rw [h] at this
        exact hc (by simpa using this.symm)
      split
      · next h => exact absurd (List.cons.inj h).1 hc'
      · split
        · next h => exact absurd (List.cons.inj h).1 hc
        · rfl

/-! ## Escapes -/

/-- A blank, a quotation mark, a bracket, a comma, a colon or a semicolon. -/
def delimiter (c : Char) : Bool :=
  isSpace c || "\"'`“”‘’«»()[]\x7b\x7d<>,:;".toList.contains c

theorem not_tokenChar_of_delimiter (h : delimiter c = true) : tokenChar c = false := by
  by_cases hc : c.toNat < 128
  · exact ascii_cases (fun c => delimiter c = true → tokenChar c = false) (by decide +kernel) hc h
  · by_contra ht
    exact hc (tokenChar_lt (by simpa using ht))

theorem escapeChar_plain (h : 32 ≤ c.toNat) : (escapeChar c).toList = [c] ∨ (escapeChar c).toList = ['\\', c] := by
  unfold escapeChar
  split
  · right
    simp
  · left
    rw [if_neg (by omega), if_neg (by omega), if_neg (by omega), if_neg (by omega),
      if_neg (by omega), if_neg (by omega)]
    simp

theorem escapeChar_control (h : c.toNat < 32) :
    ∃ u, (escapeChar c).toList = '\\' :: u ∧ u ≠ [] ∧ ∀ c ∈ u, localChar c = true := by
  have hall : ∀ n : Fin 32, ((escapeChar (Char.ofNat n.val)).toList.head? = some '\\' ∧
      (escapeChar (Char.ofNat n.val)).toList.tail ≠ [] ∧
      (escapeChar (Char.ofNat n.val)).toList.tail.all localChar = true) := by decide +kernel
  obtain ⟨h₁, h₂, h₃⟩ := hall ⟨c.toNat, h⟩
  rw [Char.ofNat_toNat] at h₁ h₂ h₃
  obtain ⟨u, hu⟩ := List.head?_eq_some_iff.1 h₁
  rw [hu] at h₂ h₃
  exact ⟨u, hu, h₂, List.all_eq_true.1 h₃⟩

theorem escaped_token (h : ∀ c ∈ w, tokenChar c = true) : escaped w = w := by
  have hone : ∀ c ∈ w, (escapeChar c).toList = [c] := by
    intro c hc
    refine ascii_cases (fun c => tokenChar c = true → (escapeChar c).toList = [c])
      (by decide +kernel) (tokenChar_lt (h c hc)) (h c hc)
  unfold escaped
  rw [flatMap_congr hone]
  exact flatMap_singleton' w

theorem escaped_before {before : Text} (h : ∀ c, before.getLast? = some c → delimiter c = true ∧ 32 ≤ c.toNat) :
    ∃ a x, '"' :: escaped before = a ++ [x] ∧ tokenChar x = false := by
  rcases eq_nil_or_concat before with rfl | ⟨l, d, rfl⟩
  · exact ⟨[], '"', rfl, by decide⟩
  · obtain ⟨hd, hc⟩ := h d (by simp)
    rw [concat_eq_append, escaped_append]
    have hlast : escaped [d] = (escapeChar d).toList := by simp [escaped]
    rw [hlast]
    rcases escapeChar_plain hc with heq | heq
    · exact ⟨'"' :: escaped l, d, by rw [heq]; rfl, not_tokenChar_of_delimiter hd⟩
    · exact ⟨'"' :: escaped l ++ ['\\'], d, by rw [heq]; simp, not_tokenChar_of_delimiter hd⟩

theorem escaped_after {after : Text} (h : ∀ c, after.head? = some c → delimiter c = true) :
    ∃ y b, escaped after ++ ['"'] = y :: b ∧ tokenChar y = false := by
  cases after with
  | nil => exact ⟨'"', [], rfl, by decide⟩
  | cons d l =>
    have hd := h d rfl
    have hcons : escaped (d :: l) = (escapeChar d).toList ++ escaped l := by simp [escaped]
    rw [hcons]
    by_cases hc : d.toNat < 32
    · obtain ⟨u, hu, -, -⟩ := escapeChar_control hc
      exact ⟨'\\', u ++ escaped l ++ ['"'], by rw [hu]; simp, by decide⟩
    · rcases escapeChar_plain (Nat.le_of_not_lt hc) with heq | heq
      · exact ⟨d, escaped l ++ ['"'], by rw [heq]; rfl, not_tokenChar_of_delimiter hd⟩
      · exact ⟨'\\', d :: (escaped l ++ ['"']), by rw [heq]; rfl, by decide⟩

/-! ## What the scan finds -/

/-- The address, in any letter case, in a string value of the document, with `front` (nothing at
the start of the value) right before it and a delimiter or the value's end behind it. -/
def Occurs (address : Text) (front : Option Char) (doc : Json) : Prop :=
  ∃ before found after : Text, doc.Holds (String.ofList (before ++ (found ++ after))) ∧
    lower found = lower address ∧ before.getLast? = front ∧
    ∀ c, after.head? = some c → delimiter c = true

theorem strip_token (h : emailToken w = true) : strip w = w := by
  have hno : ∀ c ∈ w, isSpace c = false := by
    intro c hc
    by_contra hs
    have hd : delimiter c = true := by
      unfold delimiter
      rw [show isSpace c = true by simpa using hs, Bool.true_or]
    have := not_tokenChar_of_delimiter hd
    rw [emailToken_chars h c hc] at this
    cases this
  have hdrop : ∀ l : Text, (∀ c ∈ l, isSpace c = false) → l.dropWhile isSpace = l := by
    intro l hl
    cases l with
    | nil => rfl
    | cons c l => rw [dropWhile_cons, hl c (by simp), if_neg (by simp)]
  unfold strip stripOf rstripOf
  rw [hdrop w hno, hdrop w.reverse (by simpa using hno), reverse_reverse]

variable {address : Text}

theorem Occurs.selected (haddr : emailToken address = true)
    {front : Option Char} (hfront : ∀ c, front = some c → delimiter c = true ∧ 32 ≤ c.toNat)
    {doc : Json} (h : Occurs address front doc) (hash : Text → Text) :
    travellerWhere hash (subjectHash hash address) (jsonText doc) = true := by
  obtain ⟨before, found, after, hdoc, hlower, rfl, hafter⟩ := h
  have htok : emailToken found = true := by
    rw [← emailToken_lower, hlower, emailToken_lower]
    exact haddr
  obtain ⟨a, x, ha, hx⟩ := escaped_before hfront
  obtain ⟨y, b, hb, hy⟩ := escaped_after hafter
  obtain ⟨s, t, hst⟩ := hdoc.quote_infix
  have htext : doc.render.toList = (s ++ a) ++ x :: (found ++ y :: (b ++ t)) := by
    rw [← hst, quote_toList, String.toList_ofList, escaped_append, escaped_append,
      escaped_token (emailToken_chars htok)]
    have : '"' :: (escaped before ++ (found ++ escaped after) ++ ['"']) =
        ('"' :: escaped before) ++ (found ++ (escaped after ++ ['"'])) := by simp
    rw [this, ha, hb]
    simp
  have hmem : found ∈ findMatches emailToken doc.render.toList := by
    rw [htext]
    exact mem_findMatches (fun w hw => emailToken_chars hw) (emailToken_ne_nil htok) htok hx hy _ _
  have hat : '@' ∈ doc.render.toList := by
    rw [htext]
    simp [at_mem_of_emailToken htok]
  unfold travellerWhere subjectHash jsonText
  rw [strip_token haddr, Bool.and_eq_true, any_eq_true]
  exact ⟨contains_iff_mem.2 hat, found, hmem, by rw [hlower]; exact beq_self_eq_true _⟩

theorem tokens_behind_control (haddr : emailToken address = true) (hc : c.toNat < 32) :
    ∃ u, u ≠ [] ∧ findMatches emailToken (Json.str (String.ofList (c :: address))).render.toList = [u ++ address] := by
  obtain ⟨u, hu, hne, hlocal⟩ := escapeChar_control hc
  have hchars : ∀ w, emailToken w = true → ∀ c ∈ w, tokenChar c = true := fun _ hw =>
    emailToken_chars hw
  have htext : (Json.str (String.ofList (c :: address))).render.toList =
      '"' :: '\\' :: ((u ++ address) ++ '"' :: []) := by
    rw [Json.render, quote_toList, String.toList_ofList, show c :: address = [c] ++ address from rfl,
      escaped_append, escaped_token (emailToken_chars haddr)]
    have : escaped [c] = (escapeChar c).toList := by simp [escaped]
    rw [this, hu]
    simp
  refine ⟨u, hne, ?_⟩
  rw [htext, findMatches_cons hchars (by decide), findMatches_cons hchars (by decide),
    findMatches_append hchars (by simp [hne]) (emailToken_append hlocal haddr) (by decide),
    findMatches_cons hchars (by decide)]
  rfl

theorem occurs_behind (c : Char) : Occurs address (some c) (.str (String.ofList (c :: address))) := by
  refine ⟨[c], address, [], ?_, rfl, rfl, nofun⟩
  rw [append_nil]
  exact .here

/-- The scan proves absence: it selects every document with such an occurrence, and a count of
nothing means there is none. -/
structure ScanProvesAbsence (address : Text) (front : Option Char) : Prop where
  selects : ∀ hash doc, Occurs address front doc →
    travellerWhere hash (subjectHash hash address) (jsonText doc) = true
  absent : ∀ hash (docs : List Json), countTraveller hash (subjectHash hash address) (docs.map jsonText) = 0 →
    ∀ doc ∈ docs, ¬ Occurs address front doc

/-- What stands in front of an occurrence decides: the scan proves absence exactly when it is the
start of the value or a character that JSON text does not write as a letter or digit. -/
theorem scan_proves_absence_iff (address : Text) (haddr : emailToken address = true)
    (front : Option Char) (hfront : ∀ c, front = some c → delimiter c = true) :
    ScanProvesAbsence address front ↔ ∀ c, front = some c → 32 ≤ c.toNat := by
  constructor
  · intro h c hc
    by_contra hlt
    subst hc
    obtain ⟨u, hne, htokens⟩ := tokens_behind_control haddr (c := c) (by omega)
    have hsel := h.selects id _ (occurs_behind c)
    unfold travellerWhere subjectHash jsonText at hsel
    dsimp only at hsel
    rw [htokens, strip_token haddr] at hsel
    simp only [id, any_cons, any_nil, Bool.or_false, Bool.and_eq_true, beq_iff_eq] at hsel
    have hlen := congrArg List.length hsel.2
    simp only [lower, length_map, length_append] at hlen
    exact hne (eq_nil_of_length_eq_zero (by omega))
  · intro h
    have hboth : ∀ c, front = some c → delimiter c = true ∧ 32 ≤ c.toNat :=
      fun c hc => ⟨hfront c hc, h c hc⟩
    refine ⟨fun hash doc hocc => hocc.selected haddr hboth hash, ?_⟩
    intro hash docs hcount doc hdoc hocc
    rw [countTraveller, countP_eq_zero] at hcount
    exact hcount _ (mem_map_of_mem hdoc) (hocc.selected haddr hboth hash)

theorem scan_proves_absence_comma : ScanProvesAbsence "ann@x.org".toList (some ',') ∧
    ¬ ScanProvesAbsence "ann@x.org".toList (some '\n') := by
  constructor
  · refine (scan_proves_absence_iff _ (by decide) _ ?_).2 ?_
    · rintro c ⟨⟩
      decide
    · rintro c ⟨⟩
      decide
  · intro h
    have hnl := (scan_proves_absence_iff _ (by decide) _ ?_).1 h '\n' rfl
    · revert hnl
      decide
    · rintro c ⟨⟩
      decide

/-- A job's payload whose note holds the address on its second line: no row is counted. -/
theorem second_line_missed : Occurs "ann@x.org".toList (some '\n') (.obj [("note", .str "Call\nAnn@x.org")]) ∧
    countTraveller id (subjectHash id "ann@x.org".toList) [jsonText (.obj [("note", .str "Call\nAnn@x.org")])] = 0 := by
  refine ⟨⟨"Call\n".toList, "Ann@x.org".toList, [], ?_, by decide, by decide, nofun⟩, by decide +kernel⟩
  exact .inObj (List.mem_singleton.2 rfl) .here

end CisApp.Erasure
