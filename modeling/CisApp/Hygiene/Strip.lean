import CisApp.Hygiene.Tags

/-! What stripping leaves of a text.

`strip_citation_tags` makes one pass from the left, so the text on both sides of a tag that it removes can come together.  A
bracket that opens no tag is kept; with an `R` or an `F` and a colon behind it, parted from it only by what is removed, it is an
opener in the result.  This is the one way in which the result holds an opener (`strip_opener_iff`). -/

namespace CisApp.Hygiene

open Lib Repair List Option

/-- Neither `[R:` nor `[F:` stands in the text. -/
def NoOpener (s : Text) : Prop := ¬"[R:".toList <:+: s ∧ ¬"[F:".toList <:+: s

/-- `[\w-]`. -/
def idChar (u : CharClasses) (c : Char) : Bool := u.word c || c == '-'

/-- `out` is what is left of the text without whole tags, dangling openers with their id, and the space before each. -/
inductive Kept (u : CharClasses) : Text → Text → Prop
  | nil : Kept u [] []
  | keep {s out : Text} (c : Char) (h : Kept u s out) : Kept u (c :: s) (c :: out)
  | tag {w ids s out : Text} {k : Char} (hw : w = [] ∨ ∃ c, isSpace c = true ∧ w = [c]) (hk : k = 'R' ∨ k = 'F')
      (hids : ids.all plainTagChar = true) (h : Kept u s out) : Kept u (w ++ '[' :: k :: ':' :: (ids ++ ']' :: s)) out
  | dangling {w id s out : Text} {k : Char} (hw : w = [] ∨ ∃ c, isSpace c = true ∧ w = [c]) (hk : k = 'R' ∨ k = 'F')
      (hid : id.all (idChar u) = true) (hmax : s.head?.any (idChar u) = false) (hopen : closes (id ++ s) = false)
      (h : Kept u s out) : Kept u (w ++ '[' :: k :: ':' :: (id ++ s)) out

/-- Only matches of `_STRIP_RE` stand before `t`. -/
inductive TagsThen (u : CharClasses) : Text → Text → Prop
  | refl (t : Text) : TagsThen u t t
  | tag {s rest t : Text} (hs : afterTag u s = some rest) (h : TagsThen u rest t) : TagsThen u s t

/-- A bracket that opens no tag, an `R` or an `F` and a colon, with nothing but matches of `_STRIP_RE` between them. -/
def Joins (u : CharClasses) (s : Text) : Prop :=
  ∃ t k t₁ t₂, '[' :: t <:+ s ∧ tagBody? ('[' :: t) = none ∧ (k = 'R' ∨ k = 'F') ∧
    TagsThen u t (k :: t₁) ∧ TagsThen u t₁ (':' :: t₂)

variable {u : CharClasses}

/-! ## One match -/

variable {s : Text}

theorem afterTag_eq_some {rest : Text} (h : afterTag u s = some rest) :
    ∃ w k b, (w = [] ∨ ∃ c, isSpace c = true ∧ w = [c]) ∧ (k = 'R' ∨ k = 'F') ∧ s = w ++ '[' :: k :: ':' :: b ∧
      rest = afterTagBody u b := by
  cases s with
  | nil => cases h
  | cons c s =>
    rw [afterTag_cons] at h
    cases hb : tagBody? (c :: s) with
    | some b =>
      rw [hb] at h
      obtain ⟨k, hk, heq⟩ := tagBody?_eq_some hb
      exact ⟨[], k, b, Or.inl rfl, hk, heq, (Option.some.inj h).symm⟩
    | none =>
      rw [hb] at h
      dsimp only at h
      split at h
      · next hspace =>
        obtain ⟨b, hb', rfl⟩ := map_eq_some_iff.1 h
        obtain ⟨k, hk, rfl⟩ := tagBody?_eq_some hb'
        exact ⟨[c], k, b, Or.inr ⟨c, hspace, rfl⟩, hk, rfl, rfl⟩
      · cases h

variable {c : Char}

theorem afterTag_plain (hspace : isSpace c = false) (hc : c ≠ '[') (s : Text) : afterTag u (c :: s) = none := by
  have hnone : tagBody? (c :: s) = none := tagBody?_eq_none fun k b _ heq => hc (List.cons.inj heq).1
  rw [afterTag_cons, hnone]
  rw [hspace, if_neg Bool.false_ne_true]

theorem tagBody?_of_afterTag (h : afterTag u s = none) : tagBody? s = none := by
  cases s with
  | nil => rfl
  | cons c s =>
    rw [afterTag_cons] at h
    cases hb : tagBody? (c :: s) with
    | some b => rw [hb] at h; cases h
    | none => rfl

theorem afterTagBody_cases (b : Text) : (∃ ids, ids.all plainTagChar = true ∧ b = ids ++ ']' :: afterTagBody u b) ∨
      ∃ id, id.all (idChar u) = true ∧ (afterTagBody u b).head?.any (idChar u) = false ∧ closes b = false ∧
        b = id ++ afterTagBody u b := by
  unfold afterTagBody
  split
  · next rest heq =>
    left
    refine ⟨b.takeWhile plainTagChar, all_takeWhile, ?_⟩
    rw [← heq, takeWhile_append_dropWhile]
  · next hne =>
    right
    refine ⟨b.takeWhile (idChar u), all_takeWhile, ?_, ?_, (takeWhile_append_dropWhile).symm⟩
    · have := List.head?_dropWhile_not (idChar u) b
      change (b.dropWhile (idChar u)).head?.any (idChar u) = false
      cases hhead : (b.dropWhile (idChar u)).head? with
      | none => rfl
      | some c =>
        rw [hhead] at this
        simpa using this
    · unfold closes
      rw [beq_eq_false_iff_ne]
      intro hhead
      obtain ⟨rest, hrest⟩ := List.head?_eq_some_iff.1 hhead
      exact hne rest hrest

theorem suffix_of_notMem {d r t : Text} (hd : c ∉ d) (h : c :: t <:+ d ++ r) : c :: t <:+ r := by
  induction d with
  | nil => exact h
  | cons a d ih =>
    rw [mem_cons, not_or] at hd
    rcases suffix_cons_iff.1 h with heq | h
    · exact absurd (List.cons.inj heq).1 hd.1
    · exact ih hd.2 h

theorem suffix_afterTag (hu : u.word '[' = false) {s rest t : Text} (h : afterTag u s = some rest) (ht : '[' :: t <:+ s)
    (hnone : tagBody? ('[' :: t) = none) : '[' :: t <:+ rest := by
  obtain ⟨w, k, b, hw, hk, rfl, rfl⟩ := afterTag_eq_some h
  have hwb : '[' ∉ w := by
    rcases hw with rfl | ⟨c, hc, rfl⟩
    · exact not_mem_nil
    · rw [mem_singleton]
      rintro rfl
      revert hc
      decide
  rcases suffix_cons_iff.1 (suffix_of_notMem hwb ht) with heq | ht
  · rw [heq] at hnone
    rcases hk with rfl | rfl <;> cases hnone
  · have hkb : '[' ∉ [k, ':'] := by rcases hk with rfl | rfl <;> decide
    have ht : '[' :: t <:+ b := suffix_of_notMem hkb ht
    rcases afterTagBody_cases (u := u) b with ⟨ids, hids, hb⟩ | ⟨id, hid, -, -, hb⟩
    · rw [hb, append_cons] at ht
      refine suffix_of_notMem (fun hmem => ?_) ht
      rcases mem_append.1 hmem with hmem | hmem
      · exact absurd (List.all_eq_true.1 hids _ hmem) (by decide)
      · exact absurd hmem (by decide)
    · rw [hb] at ht
      refine suffix_of_notMem (fun hmem => ?_) ht
      have := List.all_eq_true.1 hid _ hmem
      unfold idChar at this
      rw [hu] at this
      exact absurd this (by decide)

/-! ## The pass -/

theorem strip_afterTag {rest : Text} (h : afterTag u s = some rest) : stripTags u s = stripTags u rest := by
  cases s with
  | nil => cases h
  | cons c s => rw [stripTags_cons, h]

theorem strip_cons_none (h : afterTag u (c :: s) = none) : stripTags u (c :: s) = c :: stripTags u s := by
  rw [stripTags_cons, h]

theorem length_afterTag {rest : Text} (h : afterTag u s = some rest) : rest.length < s.length := by
  cases s with
  | nil => cases h
  | cons c s => exact (afterTag_suffix h).2

theorem kept_strip (s : Text) : Kept u s (stripTags u s) := by
  induction hn : s.length using Nat.strong_induction_on generalizing s with
  | _ n ih =>
    cases htag : afterTag u s with
    | some rest =>
      have hkept := ih rest.length (hn ▸ length_afterTag htag) rest rfl
      obtain ⟨w, k, b, hw, hk, rfl, rfl⟩ := afterTag_eq_some htag
      rw [strip_afterTag htag]
      rcases afterTagBody_cases (u := u) b with ⟨ids, hids, hb⟩ | ⟨id, hid, hmax, hopen, hb⟩
      · nth_rw 1 [hb]
        exact Kept.tag hw hk hids hkept
      · nth_rw 1 [hb]
        exact Kept.dangling hw hk hid hmax (hb ▸ hopen) hkept
    | none =>
      cases s with
      | nil => exact Kept.nil
      | cons c s =>
        rw [strip_cons_none htag]
        exact Kept.keep c (ih s.length (by rw [← hn, length_cons]; omega) s rfl)

theorem strip_tagsThen {t : Text} (h : TagsThen u s t) : stripTags u s = stripTags u t := by
  induction h with
  | refl => rfl
  | tag hs _ ih => rw [strip_afterTag hs, ih]

theorem strip_head_iff (hspace : isSpace c = false) (hc : c ≠ '[') (s r : Text) :
    stripTags u s = c :: r ↔ ∃ t, TagsThen u s (c :: t) ∧ stripTags u t = r := by
  constructor
  · intro h
    induction hn : s.length using Nat.strong_induction_on generalizing s with
    | _ n ih =>
      cases htag : afterTag u s with
      | some rest =>
        rw [strip_afterTag htag] at h
        obtain ⟨t, ht, hr⟩ := ih rest.length (hn ▸ length_afterTag htag) rest h rfl
        exact ⟨t, TagsThen.tag htag ht, hr⟩
      | none =>
        cases s with
        | nil => cases h
        | cons d s =>
          rw [strip_cons_none htag] at h
          obtain ⟨rfl, hr⟩ := List.cons.inj h
          exact ⟨s, TagsThen.refl _, hr⟩
  · rintro ⟨t, ht, rfl⟩
    rw [strip_tagsThen ht, strip_cons_none (afterTag_plain hspace hc t)]

theorem strip_opener_head_iff (s : Text) : tagBody? ('[' :: stripTags u s) ≠ none ↔
      ∃ k t₁ t₂, (k = 'R' ∨ k = 'F') ∧ TagsThen u s (k :: t₁) ∧ TagsThen u t₁ (':' :: t₂) := by
  have hplain : ∀ {k : Char}, k = 'R' ∨ k = 'F' → isSpace k = false ∧ k ≠ '[' := by
    rintro k (rfl | rfl) <;> decide
  constructor
  · intro h
    obtain ⟨b, hb⟩ := ne_none_iff_exists'.1 h
    obtain ⟨k, hk, heq⟩ := tagBody?_eq_some hb
    obtain ⟨t₁, h₁, hr⟩ := (strip_head_iff (hplain hk).1 (hplain hk).2 _ _).1 (List.cons.inj heq).2
    obtain ⟨t₂, h₂, -⟩ := (strip_head_iff (by decide) (by decide) _ _).1 hr
    exact ⟨k, t₁, t₂, hk, h₁, h₂⟩
  · rintro ⟨k, t₁, t₂, hk, h₁, h₂⟩
    have hcolon := (strip_head_iff (c := ':') (by decide) (by decide) _ _).2 ⟨t₂, h₂, rfl⟩
    rw [(strip_head_iff (hplain hk).1 (hplain hk).2 _ _).2 ⟨t₁, h₁, hcolon⟩]
    rcases hk with rfl | rfl <;> exact some_ne_none _

/-! ## Openers in the result -/

theorem strip_opener_iff (hu : u.word '[' = false) (s : Text) :
    (∃ t, t <:+ stripTags u s ∧ tagBody? t ≠ none) ↔ Joins u s := by
  induction hn : s.length using Nat.strong_induction_on generalizing s with
  | _ n ih =>
    cases htag : afterTag u s with
    | some rest =>
      rw [strip_afterTag htag, ih rest.length (hn ▸ length_afterTag htag) rest rfl]
      constructor
      · rintro ⟨t, k, t₁, t₂, ht, hnone, hjoin⟩
        obtain ⟨w, k', b, -, -, rfl, rfl⟩ := afterTag_eq_some htag
        have hsuffix : b <:+ w ++ '[' :: k' :: ':' :: b := ⟨w ++ ['[', k', ':'], by simp⟩
        exact ⟨t, k, t₁, t₂, (ht.trans (afterTagBody_suffix b)).trans hsuffix, hnone, hjoin⟩
      · rintro ⟨t, k, t₁, t₂, ht, hnone, hjoin⟩
        exact ⟨t, k, t₁, t₂, suffix_afterTag hu htag ht hnone, hnone, hjoin⟩
    | none =>
      cases s with
      | nil =>
        constructor
        · rintro ⟨t, ht, hne⟩
          obtain rfl := suffix_nil.1 ht
          exact absurd rfl hne
        · rintro ⟨t, k, t₁, t₂, ht, -⟩
          cases suffix_nil.1 ht
      | cons c s =>
        have ih := ih s.length (by rw [← hn, length_cons]; omega) s rfl
        rw [strip_cons_none htag]
        constructor
        · rintro ⟨t, ht, hne⟩
          rcases suffix_cons_iff.1 ht with rfl | ht
          · -- the bracket that is kept is the first character
            obtain ⟨b, hb⟩ := ne_none_iff_exists'.1 hne
            obtain ⟨k', -, heq⟩ := tagBody?_eq_some hb
            obtain rfl := (List.cons.inj heq).1
            obtain ⟨k, t₁, t₂, hk, h₁, h₂⟩ := (strip_opener_head_iff s).1 hne
            exact ⟨s, k, t₁, t₂, suffix_rfl, tagBody?_of_afterTag htag, hk, h₁, h₂⟩
          · obtain ⟨t', k, t₁, t₂, ht', hjoin⟩ := ih.1 ⟨t, ht, hne⟩
            exact ⟨t', k, t₁, t₂, ht'.trans (suffix_cons c s), hjoin⟩
        · rintro ⟨t, k, t₁, t₂, ht, hnone, hk, h₁, h₂⟩
          rcases suffix_cons_iff.1 ht with heq | ht
          · obtain ⟨rfl, rfl⟩ := List.cons.inj heq
            exact ⟨_, suffix_rfl, (strip_opener_head_iff t).2 ⟨k, t₁, t₂, hk, h₁, h₂⟩⟩
          · obtain ⟨t', ht', hne⟩ := ih.2 ⟨t, k, t₁, t₂, ht, hnone, hk, h₁, h₂⟩
            exact ⟨t', ht'.trans (suffix_cons c _), hne⟩

theorem noOpener_iff (s : Text) : NoOpener s ↔ ¬∃ t, t <:+ s ∧ tagBody? t ≠ none := by
  have hinfix : ∀ {k : Char}, k = 'R' ∨ k = 'F' → ['[', k, ':'] <:+: s → ∃ t, t <:+ s ∧ tagBody? t ≠ none := by
    rintro k hk ⟨a, b, hs⟩
    refine ⟨'[' :: k :: ':' :: b, ⟨a, by rw [← hs]; simp⟩, ?_⟩
    rcases hk with rfl | rfl <;> exact some_ne_none _
  constructor
  · rintro ⟨hR, hF⟩ ⟨t, ⟨a, rfl⟩, hne⟩
    obtain ⟨b, hb⟩ := ne_none_iff_exists'.1 hne
    obtain ⟨k, rfl | rfl, rfl⟩ := tagBody?_eq_some hb
    · exact hR ⟨a, b, by simp⟩
    · exact hF ⟨a, b, by simp⟩
  · intro h
    exact ⟨fun hR => h ( hinfix (Or.inl rfl) hR), fun hF => h ( hinfix (Or.inr rfl) hF)⟩

/-- The text is clean of tags, once and for all, and nothing else of it is gone. -/
structure Stripped (u : CharClasses) (s : Text) : Prop where
  clean : NoOpener (stripTags u s)
  again : stripTags u (stripTags u s) = stripTags u s
  kept : Kept u s (stripTags u s)

/-- Stripping does what it should exactly when no text comes together as an opener. -/
theorem strip_citation_tags_strips (u : CharClasses) (hu : u.word '[' = false) (s : Text) : Stripped u s ↔ ¬Joins u s := by
  rw [← strip_opener_iff hu]
  constructor
  · intro h
    exact (noOpener_iff _).1 h.clean
  · intro h
    refine ⟨(noOpener_iff _).2 h, strip_of_no_tag fun t ht => ?_, kept_strip s⟩
    by_contra hne
    exact h ⟨t, ht, hne⟩

/-- `\w` on ASCII letters and digits. -/
def asciiClasses : CharClasses := ⟨fun c => c.isAlphanum || c == '_', Char.isDigit⟩

theorem strip_citation_tags_strips_plain : asciiClasses.word '[' = false ∧ Stripped asciiClasses "a [R:x] b".toList := by
  refine ⟨by decide, (strip_citation_tags_strips asciiClasses (by decide) "a [R:x] b".toList).2 ?_⟩
  rintro ⟨t, k, t₁, t₂, ht, hnone, -⟩
  -- the only bracket opens a tag
  obtain rfl : t = "R:x] b".toList := by
    have := (mem_tails _ _).2 ht
    simpa [List.tails] using this
  cases hnone

/-- A tag behind a bracket: the bracket comes to stand before what follows the tag. -/
theorem strip_leaves_opener :
    stripTags asciiClasses "[[R:x]R:y".toList = "[R:y".toList ∧ ¬NoOpener (stripTags asciiClasses "[[R:x]R:y".toList) ∧
      stripTags asciiClasses (stripTags asciiClasses "[[R:x]R:y".toList) ≠ stripTags asciiClasses "[[R:x]R:y".toList ∧
      ¬Stripped asciiClasses "[[R:x]R:y".toList := by
  have hstrip : stripTags asciiClasses "[[R:x]R:y".toList = "[R:y".toList := by decide
  have hopener : ¬NoOpener "[R:y".toList := fun h => h.1 ⟨[], ['y'], rfl⟩
  refine ⟨hstrip, hstrip ▸ hopener, ?_, fun h => hopener (hstrip ▸ h.clean)⟩
  rw [hstrip]
  decide

end CisApp.Hygiene
