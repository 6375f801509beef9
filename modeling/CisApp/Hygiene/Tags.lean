import CisApp.Lib.Lines
import CisApp.Repair.Text

/-! How the citation tags of a text are stripped part by part.

A tag is local to what stands between two breaks (a space, the end mark of a sentence or a closing quote), unless it is open
before the break and closed after it: `strip_append_break`. -/

namespace CisApp.Hygiene

open CisApp.Lib CisApp.Repair List

/-- `strip_tags`. -/
def stripTags (u : CharClasses) (s : Text) : Text := stripCitationTags u [] s

/-- `_SENTENCE_END_CHARS`. -/
def endMark (c : Char) : Bool := c == '.' || c == '!' || c == '?' || c == '…'

/-- `_CLOSERS`. -/
def closer (c : Char) : Bool := c == '"' || c == '\'' || c == '”' || c == '’' || c == ')' || c == '*'

def breaks (c : Char) : Bool := isSpace c || endMark c || closer c

/-- What follows the `[R:` or `[F:` at the front. -/
def tagBody? : Text → Option Text
  | '[' :: k :: ':' :: s => if k == 'R' || k == 'F' then some s else none
  | _ => none

def opens (s : Text) : Bool := s.tails.any fun t => (tagBody? t).any fun b => b.all plainTagChar

def closes (s : Text) : Bool := (s.dropWhile plainTagChar).head? == some ']'

/-- `_TAG_AT_RE.match(s)`: how long the tag at the front is. -/
def tagLength? (s : Text) : Option Nat :=
  match tagBody? s with
  | none => none
  | some b =>
    let ids := b.takeWhile plainTagChar
    if !ids.isEmpty && (b.drop ids.length).head? == some ']' then some (ids.length + 4) else none

/-- `(?:\s?TAG)*`. -/
inductive TagRun : Text → Prop
  | nil : TagRun []
  | tag {w t y : Text} (hw : w = [] ∨ ∃ c, isSpace c = true ∧ w = [c]) (ht : tagLength? t = some t.length)
      (hy : TagRun y) : TagRun (w ++ t ++ y)

/-! ## Characters -/

theorem toNat_of_isAlphanum {c : Char} (h : c.isAlphanum = true) :
    (48 ≤ c.toNat ∧ c.toNat ≤ 57) ∨ (65 ≤ c.toNat ∧ c.toNat ≤ 90) ∨ (97 ≤ c.toNat ∧ c.toNat ≤ 122) := by
  unfold Char.isAlphanum Char.isAlpha Char.isUpper Char.isLower Char.isDigit at h
  simp only [Bool.or_eq_true, Bool.and_eq_true, decide_eq_true_eq, UInt32.le_iff_toNat_le, ge_iff_le] at h
  change ((65 ≤ c.toNat ∧ c.toNat ≤ 90) ∨ (97 ≤ c.toNat ∧ c.toNat ≤ 122)) ∨ (48 ≤ c.toNat ∧ c.toNat ≤ 57) at h
  omega

theorem not_alphanum_of_breaks {c : Char} (h : breaks c = true) : c.isAlphanum = false := by
  rw [Bool.eq_false_iff]
  intro halnum
  have hnum := toNat_of_isAlphanum halnum
  unfold breaks at h
  rw [Bool.or_eq_true, Bool.or_eq_true] at h
  rcases h with (h | h) | h
  · unfold isSpace at h
    simp only [Bool.or_eq_true, Bool.and_eq_true, decide_eq_true_eq, beq_iff_eq] at h
    omega
  · unfold endMark at h
    simp only [Bool.or_eq_true, beq_iff_eq] at h
    rcases h with ((rfl | rfl) | rfl) | rfl <;> revert halnum <;> decide
  · unfold closer at h
    simp only [Bool.or_eq_true, beq_iff_eq] at h
    rcases h with ((((rfl | rfl) | rfl) | rfl) | rfl) | rfl <;> revert halnum <;> decide

/-! ## One tag -/

variable {u : CharClasses}

theorem tagBody?_eq_some {s b : Text} (h : tagBody? s = some b) :
    ∃ k, (k = 'R' ∨ k = 'F') ∧ s = '[' :: k :: ':' :: b := by
  unfold tagBody? at h
  split at h
  · next k s' =>
    split at h
    · next hk =>
      rw [Bool.or_eq_true, beq_iff_eq, beq_iff_eq] at hk
      rw [Option.some.inj h]
      exact ⟨k, hk, rfl⟩
    · cases h
  · cases h

theorem tagBody?_eq_none {s : Text} (h : ∀ k b, (k = 'R' ∨ k = 'F') → s ≠ '[' :: k :: ':' :: b) : tagBody? s = none := by
  by_contra hsome
  obtain ⟨b, hb⟩ := Option.ne_none_iff_exists'.1 hsome
  obtain ⟨k, hk, heq⟩ := tagBody?_eq_some hb
  exact h k b hk heq

theorem afterTag_cons (c : Char) (s : Text) : afterTag u (c :: s) =
    match tagBody? (c :: s) with
    | some b => some (afterTagBody u b)
    | none => if isSpace c then (tagBody? s).map (afterTagBody u) else none := by
  cases hb : tagBody? (c :: s) with
  | some b =>
    obtain ⟨k, hk, heq⟩ := tagBody?_eq_some hb
    rw [heq]
    rcases hk with rfl | rfl <;> rfl
  | none =>
    dsimp only
    cases hb' : tagBody? s with
    | some b =>
      obtain ⟨k, hk, rfl⟩ := tagBody?_eq_some hb'
      by_cases hc : c = '['
      · subst hc
        rcases hk with rfl | rfl <;> rfl
      · unfold afterTag
        split
        · next heq => exact absurd (List.cons.inj heq).1 hc
        · next heq =>
          obtain ⟨rfl, rfl, rfl⟩ := heq
          rcases hk with rfl | rfl <;> cases isSpace c <;> rfl
        · next hne => exact absurd rfl (hne c k b)
    | none =>
      have hnone : afterTag u (c :: s) = none := by
        unfold afterTag
        split
        · next k s' heq =>
          split
          · next hk =>
            rw [Bool.or_eq_true, beq_iff_eq, beq_iff_eq] at hk
            rw [heq] at hb
            rcases hk with rfl | rfl <;> cases hb
          · rfl
        · next c' k s' hne heq =>
          split
          · next hk =>
            obtain ⟨-, hk⟩ := Bool.and_eq_true_iff.1 hk
            rw [Bool.or_eq_true, beq_iff_eq, beq_iff_eq] at hk
            rw [(List.cons.inj heq).2] at hb'
            rcases hk with rfl | rfl <;> cases hb'
          · rfl
        · rfl
      rw [hnone]
      split <;> rfl

theorem afterTagBody_suffix (s : Text) : afterTagBody u s <:+ s := by
  unfold afterTagBody
  split
  · next rest heq => exact (suffix_cons ']' rest).trans (heq ▸ dropWhile_suffix _)
  · exact dropWhile_suffix _

theorem tagBody?_suffix {s b : Text} (h : tagBody? s = some b) : b <:+ s ∧ b.length < s.length := by
  obtain ⟨k, -, rfl⟩ := tagBody?_eq_some h
  refine ⟨⟨['[', k, ':'], rfl⟩, ?_⟩
  simp only [length_cons]
  omega

theorem afterTag_suffix {c : Char} {s rest : Text} (h : afterTag u (c :: s) = some rest) :
    rest <:+ c :: s ∧ rest.length < (c :: s).length := by
  have hbody : ∀ {t b : Text}, tagBody? t = some b → afterTagBody u b <:+ t ∧ (afterTagBody u b).length < t.length := by
    intro t b hb
    obtain ⟨hsuffix, hlt⟩ := tagBody?_suffix hb
    have hle := (afterTagBody_suffix (u := u) b).length_le
    exact ⟨(afterTagBody_suffix b).trans hsuffix, by omega⟩
  rw [afterTag_cons] at h
  cases hb : tagBody? (c :: s) with
  | some b =>
    rw [hb] at h
    obtain rfl := Option.some.inj h
    exact hbody hb
  | none =>
    rw [hb] at h
    dsimp only at h
    split at h
    · obtain ⟨b, hb', rfl⟩ := Option.map_eq_some_iff.1 h
      obtain ⟨hsuffix, hlt⟩ := hbody hb'
      refine ⟨hsuffix.trans (suffix_cons c s), ?_⟩
      rw [length_cons]
      omega
    · cases h

/-! ## Stripping -/

theorem stripTagsFrom_length {fuel : Nat} {s : Text} (h : s.length ≤ fuel) : stripTagsFrom u [] fuel s = stripTags u s := by
  have hfuel : ∀ n (s : Text), s.length ≤ n → ∀ fuel, s.length ≤ fuel →
      stripTagsFrom u [] fuel s = stripTagsFrom u [] s.length s := by
    intro n
    induction n with
    | zero =>
      intro s hs fuel _
      obtain rfl := List.length_eq_zero_iff.1 (Nat.le_zero.1 hs)
      cases fuel <;> rfl
    | succ n ih =>
      intro s hs fuel hfuel
      cases s with
      | nil => cases fuel <;> rfl
      | cons c s =>
        rw [length_cons] at hs hfuel
        obtain ⟨fuel, rfl⟩ : ∃ k, fuel = k + 1 := ⟨fuel - 1, by omega⟩
        rw [length_cons]
        unfold stripTagsFrom
        cases htag : afterTag u (c :: s) with
        | none =>
          rw [ih s (by omega) fuel (by omega)]
        | some rest =>
          have hlt := (afterTag_suffix htag).2
          rw [length_cons] at hlt
          dsimp only
          rw [ih rest (by omega) fuel (by omega), ih rest (by omega) s.length (by omega)]
  exact hfuel s.length s le_rfl fuel h

theorem stripTags_cons (c : Char) (s : Text) : stripTags u (c :: s) =
    match afterTag u (c :: s) with
    | some rest => stripTags u rest
    | none => c :: stripTags u s := by
  conv_lhs => unfold stripTags stripCitationTags
  rw [length_cons]
  unfold stripTagsFrom
  cases htag : afterTag u (c :: s) with
  | none =>
    rw [stripTagsFrom_length le_rfl]
  | some rest =>
    have hlt := (afterTag_suffix htag).2
    rw [length_cons] at hlt
    dsimp only
    rw [stripTagsFrom_length (by omega), nil_append]

/-! ## Breaks -/

/-- The tables of `re` that stripping reads know a break. -/
def KnowsBreaks (u : CharClasses) : Prop := ∀ c, breaks c = true → u.word c = false

theorem breaks_ne {c d : Char} (h : breaks c = true) (hd : breaks d = false) : c ≠ d := by
  rintro rfl
  rw [h] at hd
  cases hd

theorem tagBody?_append {c : Char} (hc : breaks c = true) (A Z : Text) :
    tagBody? (A ++ c :: Z) = (tagBody? A).map (· ++ c :: Z) := by
  have hbracket : c ≠ '[' := breaks_ne hc (by decide)
  have hcolon : c ≠ ':' := breaks_ne hc (by decide)
  have hR : c ≠ 'R' := breaks_ne hc (by decide)
  have hF : c ≠ 'F' := breaks_ne hc (by decide)
  cases hA : tagBody? A with
  | some b =>
    obtain ⟨k, hk, rfl⟩ := tagBody?_eq_some hA
    rcases hk with rfl | rfl <;> rfl
  | none =>
    refine tagBody?_eq_none fun k b hk heq => ?_
    cases A with
    | nil => exact hbracket (List.cons.inj heq).1
    | cons a A =>
      obtain ⟨ha, heq⟩ := List.cons.inj heq
      cases A with
      | nil =>
        rw [(List.cons.inj heq).1] at hR hF
        exact hk.elim hR hF
      | cons a' A =>
        obtain ⟨ha', heq⟩ := List.cons.inj heq
        cases A with
        | nil => exact hcolon (List.cons.inj heq).1
        | cons a'' A =>
          rw [ha, ha', (List.cons.inj heq).1] at hA
          rcases hk with rfl | rfl <;> cases hA

theorem dropWhile_append_break {p : Char → Bool} {c : Char} (hc : p c = false) (s Z : Text) :
    (s ++ c :: Z).dropWhile p = s.dropWhile p ++ c :: Z := by
  induction s with
  | nil => rw [nil_append, dropWhile_cons_of_neg (by rw [hc]; simp)]; rfl
  | cons a s ih =>
    rw [cons_append, dropWhile_cons, dropWhile_cons]
    split
    · exact ih
    · rfl

theorem afterTagBody_append (hu : KnowsBreaks u) {c : Char} (hc : breaks c = true) (s Z : Text)
    (h : ¬(s.all plainTagChar = true ∧ closes (c :: Z) = true)) :
    afterTagBody u (s ++ c :: Z) = afterTagBody u s ++ c :: Z := by
  have hid : (u.word c || c == '-') = false := by
    rw [hu c hc, Bool.false_or, beq_eq_false_iff_ne]
    exact breaks_ne hc (by decide)
  have hdangling := dropWhile_append_break (p := fun c => u.word c || c == '-') hid s Z
  unfold afterTagBody
  cases hdrop : s.dropWhile plainTagChar with
  | nil =>
    have hall : s.all plainTagChar = true := List.all_eq_true.2 (List.dropWhile_eq_nil_iff.1 hdrop)
    have hnot : (c :: Z).dropWhile plainTagChar ≠ ']' :: ((c :: Z).dropWhile plainTagChar).tail := by
      intro heq
      refine h ⟨hall, ?_⟩
      unfold closes
      rw [heq]
      rfl
    have hboth : (s ++ c :: Z).dropWhile plainTagChar = (c :: Z).dropWhile plainTagChar := by
      rw [dropWhile_append, hdrop]
      rfl
    rw [hboth]
    split
    · next rest heq => exact absurd (by rw [heq]; rfl) hnot
    · exact hdangling
  | cons d rest =>
    rw [dropWhile_append, hdrop, isEmpty_cons, if_neg Bool.false_ne_true, cons_append]
    by_cases hd : d = ']'
    · subst hd
      rfl
    · split
      · next rest' heq => exact absurd (List.cons.inj heq).1 hd
      · split
        · next heq => exact absurd (List.cons.inj heq).1 hd
        · exact hdangling

theorem afterTag_append (hu : KnowsBreaks u) {c : Char} (hc : breaks c = true) (a : Char) (A Z : Text)
    (h : ¬(opens (a :: A) = true ∧ closes (c :: Z) = true)) :
    afterTag u (a :: A ++ c :: Z) = (afterTag u (a :: A)).map (· ++ c :: Z) := by
  have hopen : ∀ {t b : Text}, t <:+ a :: A → tagBody? t = some b →
      ¬(b.all plainTagChar = true ∧ closes (c :: Z) = true) := by
    rintro t b ht hb ⟨hall, hcloses⟩
    refine h ⟨?_, hcloses⟩
    unfold opens
    rw [any_eq_true]
    exact ⟨t, (mem_tails _ _).2 ht, by rw [hb]; exact hall⟩
  rw [cons_append, afterTag_cons, afterTag_cons, ← cons_append, tagBody?_append hc, tagBody?_append hc]
  cases hb : tagBody? (a :: A) with
  | some b =>
    rw [Option.map_some]
    dsimp only
    rw [afterTagBody_append hu hc b Z (hopen suffix_rfl hb)]
    rfl
  | none =>
    rw [Option.map_none]
    dsimp only
    split
    · cases hb' : tagBody? A with
      | none => rfl
      | some b =>
        rw [Option.map_some, Option.map_some, Option.map_some, Option.map_some,
          afterTagBody_append hu hc b Z (hopen (suffix_cons a A) hb')]
    · rfl

theorem opens_of_suffix {s t : Text} (ht : t <:+ s) (h : opens t = true) : opens s = true := by
  unfold opens at h ⊢
  rw [any_eq_true] at h ⊢
  obtain ⟨r, hr, hopen⟩ := h
  exact ⟨r, (mem_tails _ _).2 (((mem_tails _ _).1 hr).trans ht), hopen⟩

theorem strip_append_break (hu : KnowsBreaks u) {c : Char} (hc : breaks c = true) (A Z : Text)
    (h : ¬(opens A = true ∧ closes (c :: Z) = true)) :
    stripTags u (A ++ c :: Z) = stripTags u A ++ stripTags u (c :: Z) := by
  induction hn : A.length using Nat.strong_induction_on generalizing A with
  | _ n ih =>
    cases A with
    | nil => rfl
    | cons a A =>
      rw [cons_append, stripTags_cons, stripTags_cons, ← cons_append, afterTag_append hu hc a A Z h]
      cases htag : afterTag u (a :: A) with
      | none =>
        dsimp only [Option.map_none]
        rw [cons_append, ih A.length (by rw [← hn]; simp) A
          (fun hA => h ⟨opens_of_suffix (suffix_cons a A) hA.1, hA.2⟩) rfl]
      | some rest =>
        obtain ⟨hsuffix, hlt⟩ := afterTag_suffix htag
        exact ih rest.length (hn ▸ hlt) rest (fun hA => h ⟨opens_of_suffix hsuffix hA.1, hA.2⟩) rfl

theorem strip_cons_break {c : Char} (hc : breaks c = true) {Z : Text} (h : isSpace c = true → tagBody? Z = none) :
    stripTags u (c :: Z) = c :: stripTags u Z := by
  have hnone : tagBody? (c :: Z) = none :=
    tagBody?_eq_none fun k b _ heq => breaks_ne hc (by decide) (List.cons.inj heq).1
  have htag : afterTag u (c :: Z) = none := by
    rw [afterTag_cons, hnone]
    dsimp only
    split
    · next hspace => rw [h hspace]; rfl
    · rfl
  rw [stripTags_cons, htag]

theorem strip_tag {w t : Text} (hw : w = [] ∨ ∃ c, isSpace c = true ∧ w = [c]) (ht : tagLength? t = some t.length)
    (Z : Text) : stripTags u (w ++ t ++ Z) = stripTags u Z := by
  obtain ⟨b, hb, hbody⟩ : ∃ b, tagBody? t = some b ∧ ∃ ids, b = ids ++ [']'] ∧ ids.all plainTagChar = true := by
    unfold tagLength? at ht
    cases hb : tagBody? t with
    | none => rw [hb] at ht; cases ht
    | some b =>
      rw [hb] at ht
      dsimp only at ht
      split at ht
      · next hcond =>
        obtain ⟨-, hclosed⟩ := Bool.and_eq_true_iff.1 hcond
        obtain ⟨k, -, rfl⟩ := tagBody?_eq_some hb
        have hlen := Option.some.inj ht
        simp only [length_cons] at hlen
        have hsplit := take_append_drop (b.takeWhile plainTagChar).length b
        have htake : b.take (b.takeWhile plainTagChar).length = b.takeWhile plainTagChar :=
          (List.prefix_iff_eq_take.1 ( takeWhile_prefix _)).symm
        rw [beq_iff_eq, List.head?_eq_some_iff] at hclosed
        obtain ⟨r, hr⟩ := hclosed
        have hrnil : r = [] := by
          have := congrArg List.length hsplit
          rw [hr, length_append, length_take, length_cons] at this
          exact List.length_eq_zero_iff.1 (by omega)
        rw [htake, hr, hrnil] at hsplit
        exact ⟨b, rfl, _, hsplit.symm, all_takeWhile⟩
      · cases ht
  obtain ⟨ids, rfl, hids⟩ := hbody
  obtain ⟨k, hk, rfl⟩ := tagBody?_eq_some hb
  have hafter : afterTagBody u (ids ++ ']' :: Z) = Z := by
    unfold afterTagBody
    have hdrop : (ids ++ ']' :: Z).dropWhile plainTagChar = ']' :: Z := by
      rw [dropWhile_append_of_pos (List.all_eq_true.1 hids)]
      rfl
    rw [hdrop]
    rfl
  have hbody : tagBody? ('[' :: k :: ':' :: (ids ++ ']' :: Z)) = some (ids ++ ']' :: Z) := by
    rcases hk with rfl | rfl <;> rfl
  rcases hw with rfl | ⟨c, hc, rfl⟩
  · show stripTags u ('[' :: k :: ':' :: (ids ++ [']'] ++ Z)) = _
    rw [append_assoc, singleton_append, stripTags_cons, afterTag_cons, hbody]
    dsimp only
    rw [hafter]
  · show stripTags u (c :: '[' :: k :: ':' :: (ids ++ [']'] ++ Z)) = _
    have hnone : tagBody? (c :: '[' :: k :: ':' :: (ids ++ ']' :: Z)) = none := by
      refine tagBody?_eq_none fun k' b _ heq => ?_
      rw [(List.cons.inj heq).1] at hc
      revert hc
      decide
    rw [append_assoc, singleton_append, stripTags_cons, afterTag_cons, hnone, if_pos hc, hbody, Option.map_some]
    rw [hafter]

theorem strip_tagRun {y : Text} (hy : TagRun y) (Z : Text) : stripTags u (y ++ Z) = stripTags u Z := by
  induction hy with
  | nil => rfl
  | tag hw ht _ ih => rw [append_assoc, strip_tag hw ht, ih]

theorem strip_of_no_tag {s : Text} (h : ∀ t, t <:+ s → tagBody? t = none) : stripTags u s = s := by
  induction s with
  | nil => rfl
  | cons c s ih =>
    have htag : afterTag u (c :: s) = none := by
      rw [afterTag_cons, h _ suffix_rfl, h _ (suffix_cons c s)]
      dsimp only
      split <;> rfl
    rw [stripTags_cons, htag]
    rw [ih fun t ht => h t (ht.trans (suffix_cons c s))]

end CisApp.Hygiene
