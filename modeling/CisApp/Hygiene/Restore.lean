import CisApp.Hygiene.Cta

/-! What `ensure_cta` leaves.

Everything but one sentence or one paragraph is kept.  The configured line is read again where it was put, and a second call
changes nothing, if it has a word and no citation tag hides it; without a word every call puts it in once more. -/

namespace CisApp.Hygiene

open CisApp.Lib CisApp.Repair List

variable {T : Tables}

/-! ## Words -/

theorem letters_break {c : Char} (hc : breaks c = true) : letters T c ≠ [] ∧ ∀ d ∈ letters T c, isKey d = false := by
  obtain ⟨hne, hfold⟩ := T.fold_break c hc
  have hsame : letters T c = T.fold c := by
    have hmap : letters T c = (T.fold c).flatMap fun d => [d] := by
      exact flatMap_congr fun d hd => if_neg (hfold d hd).2
    rw [hmap, flatMap_singleton']
  rw [hsame]
  exact ⟨hne, fun d hd => (hfold d hd).1⟩

theorem wordsOf_break {c : Char} (hc : breaks c = true) (a b : Text) :
    wordsOf T (a ++ c :: b) = wordsOf T a ++ wordsOf T b := by
  obtain ⟨hne, hkey⟩ := letters_break (T := T) hc
  unfold wordsOf
  rw [flatMap_append, flatMap_cons, ← append_assoc, runs_apart hne hkey]

theorem wordsOf_concat {c : Char} (hc : breaks c = true) (a : Text) : wordsOf T (a ++ [c]) = wordsOf T a := by
  rw [wordsOf_break hc]
  exact append_nil _

theorem breaks_space {c : Char} (h : isSpace c = true) : breaks c = true := by
  unfold breaks
  rw [h]
  rfl

def tagStarts : Text → Text
  | [] => []
  | c :: s => (if (tagBody? (c :: s)).isSome then [c] else []) ++ tagStarts s

theorem tagStarts_break {c : Char} (hc : breaks c = true) (a b : Text) :
    tagStarts (a ++ c :: b) = tagStarts a ++ tagStarts b := by
  induction a with
  | nil =>
    have hnone : tagBody? (c :: b) = none :=
      tagBody?_eq_none fun k b' _ heq => breaks_ne hc (by decide) (List.cons.inj heq).1
    show (if (tagBody? (c :: b)).isSome then [c] else []) ++ tagStarts b = _
    rw [hnone]
    rfl
  | cons d a ih =>
    have hsome : (tagBody? (d :: (a ++ c :: b))).isSome = (tagBody? (d :: a)).isSome := by
      rw [← cons_append, tagBody?_append hc, Option.isSome_map]
    rw [cons_append, tagStarts, tagStarts, hsome, ih, append_assoc]

theorem tagBody?_of_tagStarts {s t : Text} (h : tagStarts s = []) (ht : t <:+ s) : tagBody? t = none := by
  induction s with
  | nil =>
    rw [List.suffix_nil.1 ht]
    rfl
  | cons c s ih =>
    rw [tagStarts, append_eq_nil_iff] at h
    rcases List.suffix_cons_iff.1 ht with rfl | ht
    · by_contra hsome
      rw [if_pos (Option.isSome_iff_ne_none.2 hsome)] at h
      cases h.1
    · exact ih h.2 ht

/-! ## The line -/

section line

variable (cta : Text)

theorem ctaLine_concat : ∃ l m, ctaLine cta = l ++ [m] ∧ (m = '.' ∨ m = '!' ∨ m = '?') := by
  unfold ctaLine
  dsimp only
  split
  · next h =>
    obtain ⟨m, hm, hmark⟩ := (Option.any_eq_true _ _).1 h
    obtain ⟨l, hl⟩ := List.getLast?_eq_some_iff.1 hm
    exact ⟨l, m, hl, by simpa [or_assoc] using hmark⟩
  · exact ⟨oneLine cta, '.', rfl, Or.inl rfl⟩

theorem wordsOf_ctaLine : wordsOf T (ctaLine cta) = wordsOf T cta := by
  have hone : wordsOf T (oneLine cta) = wordsOf T cta :=
    reading_oneLine rfl (fun a b c hc => wordsOf_break (breaks_space hc) a b) cta
  rw [← hone]
  unfold ctaLine
  dsimp only
  split
  · rfl
  · exact wordsOf_concat (by decide) _

theorem tagStarts_ctaLine : tagStarts (ctaLine cta) = tagStarts cta := by
  have hone : tagStarts (oneLine cta) = tagStarts cta :=
    reading_oneLine rfl (fun a b c hc => tagStarts_break (breaks_space hc) a b) cta
  rw [← hone]
  unfold ctaLine
  dsimp only
  split
  · rfl
  · rw [tagStarts_break (by decide)]
    exact append_nil _

theorem newline_notMem_ctaLine : '\n' ∉ ctaLine cta := by
  have hone := notMem_oneLine (c := '\n') (by decide) (by decide) cta
  unfold ctaLine
  dsimp only
  split
  · exact hone
  · rw [mem_append, not_or]
    exact ⟨hone, by decide⟩

end line

/-! ## Stripping around the line -/

theorem plain_of_breaks {c : Char} (hc : breaks c = true) (hne : c ≠ '\n') : plainTagChar c = true := by
  have hopen : c ≠ '[' := breaks_ne hc (by decide)
  have hclose : c ≠ ']' := breaks_ne hc (by decide)
  unfold plainTagChar
  rw [beq_eq_false_iff_ne.2 hopen, beq_eq_false_iff_ne.2 hclose, beq_eq_false_iff_ne.2 hne]
  rfl

theorem closes_cons {c : Char} (hc : breaks c = true) (s : Text) : closes (c :: s) = true → c ≠ '\n' ∧ closes s = true := by
  intro h
  by_cases hne : c = '\n'
  · subst hne
    cases h
  · refine ⟨hne, ?_⟩
    unfold closes at h ⊢
    rwa [dropWhile_cons_of_pos (plain_of_breaks hc hne)] at h

theorem opens_concat {c : Char} (hc : breaks c = true) (hne : c ≠ '\n') {x : Text} (h : opens x = true) :
    opens (x ++ [c]) = true := by
  unfold opens at h ⊢
  rw [any_eq_true] at h ⊢
  obtain ⟨t, ht, hopen⟩ := h
  obtain ⟨r, rfl⟩ := (mem_tails _ _).1 ht
  refine ⟨t ++ [c], (mem_tails _ _).2 ⟨r, by simp⟩, ?_⟩
  rw [tagBody?_append hc]
  cases hb : tagBody? t with
  | none => rw [hb] at hopen; cases hopen
  | some b =>
    rw [hb] at hopen
    show (b ++ [c]).all plainTagChar = true
    rw [all_append, show b.all plainTagChar = true from hopen]
    simp [plain_of_breaks hc hne]

theorem closes_tagRun {y : Text} (hy : TagRun y) (hne : y ≠ []) (Z : Text) : closes (y ++ Z) = false := by
  cases hy with
  | nil => exact absurd rfl hne
  | @tag w t y hw ht _ =>
    have hbracket : ∃ r, t = '[' :: r := by
      unfold tagLength? at ht
      cases hb : tagBody? t with
      | none => rw [hb] at ht; cases ht
      | some b =>
        obtain ⟨k, -, rfl⟩ := tagBody?_eq_some hb
        exact ⟨_, rfl⟩
    obtain ⟨r, rfl⟩ := hbracket
    rw [Bool.eq_false_iff]
    rcases hw with rfl | ⟨c, hc, rfl⟩
    · intro h
      cases h
    · intro h
      obtain ⟨-, h⟩ := closes_cons (breaks_space hc) _ h
      cases h

theorem strip_seam {U line : Text} (hU : Seam U) {l : Text} {m : Char} (hline : line = l ++ [m]) (hm : endMark m = true)
    (htags : tagStarts line = []) (V : Text) (hopen : ¬(opens U = true ∧ closes (line ++ V) = true)) :
    ∃ X, (X = [] ∨ ∃ x c, X = x ++ [c] ∧ breaks c = true) ∧
      stripTags T.toCharClasses (U ++ (line ++ V)) = X ++ (line ++ stripTags T.toCharClasses V) := by
  have hbreak : breaks m = true := by
    unfold breaks
    rw [hm]
    simp
  have hspace : isSpace m = false := mark_not_space (Or.inl hm)
  -- the line itself
  have hself : stripTags T.toCharClasses (line ++ V) = line ++ stripTags T.toCharClasses V := by
    have hl : ∀ t, t <:+ l → tagBody? t = none := by
      rintro t ⟨r, rfl⟩
      have hnone := tagBody?_of_tagStarts htags (t := t ++ [m]) ⟨r, by rw [hline]; simp⟩
      rw [tagBody?_append hbreak, Option.map_eq_none_iff] at hnone
      exact hnone
    have hopens : opens l = false := by
      unfold opens
      rw [any_eq_false]
      intro t ht
      rw [hl t ((mem_tails _ _).1 ht)]
      simp
    rw [hline, append_assoc, singleton_append, strip_append_break T.knowsBreaks hbreak l V (by rw [hopens]; simp),
      strip_of_no_tag hl, strip_cons_break hbreak (by rw [hspace]; simp)]
    simp
  have hfront : tagBody? (line ++ V) = none := by
    have hnone := tagBody?_of_tagStarts htags (t := line) suffix_rfl
    rw [hline, tagBody?_append hbreak, Option.map_eq_none_iff] at hnone
    rw [hline, append_assoc, singleton_append, tagBody?_append hbreak, hnone]
    rfl
  rcases hU with rfl | ⟨x, c, y, rfl, hc, hy, hyspace⟩
  · exact ⟨[], Or.inl rfl, hself⟩
  · have hx : ¬(opens x = true ∧ closes (c :: (y ++ (line ++ V))) = true) := by
      rintro ⟨hox, hcl⟩
      obtain ⟨hnl, hcl⟩ := closes_cons hc _ hcl
      by_cases hynil : y = []
      · subst hynil
        exact hopen ⟨opens_concat hc hnl hox, hcl⟩
      · rw [closes_tagRun hy hynil] at hcl
        cases hcl
    refine ⟨stripTags T.toCharClasses x ++ [c], Or.inr ⟨_, c, rfl, hc⟩, ?_⟩
    rw [append_assoc, cons_append, strip_append_break T.knowsBreaks hc x _ hx]
    have hcons : stripTags T.toCharClasses (c :: (y ++ (line ++ V))) = c :: stripTags T.toCharClasses (y ++ (line ++ V)) := by
      refine strip_cons_break hc fun hsp => ?_
      rw [hyspace hsp]
      exact hfront
    rw [hcons, strip_tagRun hy, hself]
    simp

theorem words_seam {U line : Text} (hU : Seam U) {l : Text} {m : Char} (hline : line = l ++ [m]) (hm : endMark m = true)
    (htags : tagStarts line = []) (V : Text) (hopen : ¬(opens U = true ∧ closes (line ++ V) = true)) :
    wordsOf T line <:+: ctaWords T (U ++ (line ++ V)) := by
  have hbreak : breaks m = true := by
    unfold breaks
    rw [hm]
    simp
  obtain ⟨X, hX, hstrip⟩ := strip_seam (T := T) hU hline hm htags V hopen
  unfold ctaWords
  rw [hstrip, hline, wordsOf_concat hbreak, append_assoc, singleton_append]
  rcases hX with rfl | ⟨x, c, rfl, hc⟩
  · rw [nil_append, wordsOf_break hbreak]
    exact ⟨[], _, rfl⟩
  · rw [append_assoc, singleton_append, wordsOf_break hc, wordsOf_break hbreak]
    exact ⟨wordsOf T x, _, by rw [append_assoc]⟩

/-! ## The body -/

theorem hashtagsFrom_mem {fuel : Nat} {s : Text} (h : hashtagsFrom fuel s = true) {c : Char} (hc : c ∈ s) :
    c = '#' ∨ c.isAlphanum = true ∨ tagGap c = true := by
  induction fuel generalizing s with
  | zero => cases h
  | succ fuel ih =>
    unfold hashtagsFrom at h
    split at h
    · next k d rest hk =>
      obtain rfl := Nat.succ.inj hk
      rw [Bool.and_eq_true, Bool.and_eq_true] at h
      obtain ⟨⟨hd, -⟩, hnext⟩ := h
      rcases List.mem_cons.1 hc with rfl | hc
      · exact Or.inl rfl
      rcases List.mem_cons.1 hc with rfl | hc
      · right
        left
        unfold Char.isAlphanum
        rw [hd]
        rfl
      rw [← takeWhile_append_dropWhile (p := Char.isAlphanum) (l := rest)] at hc
      rcases List.mem_append.1 hc with hc | hc
      · exact Or.inr (Or.inl (mem_takeWhile_imp hc))
      rw [← takeWhile_append_dropWhile (p := tagGap) (l := rest.dropWhile Char.isAlphanum)] at hc
      rcases List.mem_append.1 hc with hc | hc
      · exact Or.inr (Or.inr (mem_takeWhile_imp hc))
      rw [Bool.or_eq_true] at hnext
      rcases hnext with hnext | hnext
      · rw [List.isEmpty_iff.1 hnext] at hc
        cases hc
      · exact ih hnext hc
    · cases h

theorem mem_strip {s : Text} {c : Char} (hc : c ∈ s) (hspace : isSpace c = false) : c ∈ strip s := by
  have hdrop : ∀ {t : Text}, c ∈ t → c ∈ t.dropWhile isSpace := by
    intro t ht
    rw [← takeWhile_append_dropWhile (p := isSpace) (l := t)] at ht
    refine (List.mem_append.1 ht).resolve_left fun h => ?_
    rw [mem_takeWhile_imp h] at hspace
    cases hspace
  exact List.mem_reverse.2 (hdrop (List.mem_reverse.2 (hdrop hc)))

theorem isBodyLine_of_mark {s : Text} {m : Char} (hm : m = '.' ∨ m = '!' ∨ m = '?') (hs : m ∈ s) : isBodyLine s = true := by
  have hspace : isSpace m = false := by
    rcases hm with rfl | rfl | rfl <;> decide
  have hin := mem_strip hs hspace
  have hne : (strip s).isEmpty = false := by
    rw [isEmpty_eq_false_iff]
    exact ne_nil_of_mem hin
  unfold isBodyLine
  rw [hne, if_neg Bool.false_ne_true, Bool.not_eq_true']
  by_contra htags
  rw [Bool.not_eq_false] at htags
  have := hashtagsFrom_mem htags hin
  rcases hm with rfl | rfl | rfl <;> revert this <;> decide

theorem lines_linesBefore {ls : List Text} (h : ∀ l ∈ ls, '\n' ∉ l) : lines (linesBefore ls) = ls ++ [[]] := by
  have hun := unlines_insert ls [] []
  rw [append_nil] at hun
  rw [show linesBefore ls = unlines (ls ++ [[]]) by rw [hun]; exact (append_nil _).symm]
  refine lines_unlines (by simp) fun l hl => ?_
  rcases List.mem_append.1 hl with hl | hl
  · exact h l hl
  · rw [List.mem_singleton.1 hl]
    exact not_mem_nil

def clearLines (T : Tables) (text : Text) : List Text := (lines text).takeWhile fun l => !isFaqHeading T l

theorem isFaqHeading_of_clear {text l : Text} (h : l ∈ clearLines T text) : isFaqHeading T l = false := by
  have := mem_takeWhile_imp h
  rwa [Bool.not_eq_true'] at this

theorem clearLines_newline {text : Text} : ∀ l ∈ clearLines T text, '\n' ∉ l :=
  fun _ hl => notMem_of_mem_lines (takeWhile_subset _ hl)

theorem faqStart?_cases (T : Tables) (text : Text) :
    (faqStart? T text = none ∧ clearLines T text = lines text) ∨
      (faqStart? T text = some (linesBefore (clearLines T text)).length ∧
        ∃ l B, lines text = clearLines T text ++ l :: B ∧ isFaqHeading T l = true) := by
  have hsplit := takeWhile_append_dropWhile (p := fun l => !isFaqHeading T l) (l := lines text)
  unfold faqStart? clearLines
  cases hdrop : (lines text).dropWhile fun l => !isFaqHeading T l with
  | nil =>
    left
    have hall := List.dropWhile_eq_nil_iff.1 hdrop
    rw [hdrop, append_nil] at hsplit
    refine ⟨?_, hsplit⟩
    rw [if_neg]
    rw [Bool.not_eq_true, any_eq_false]
    intro l hl
    have := hall l hl
    rw [Bool.not_eq_true'] at this
    rw [this]
    simp
  | cons l B =>
    right
    rw [hdrop] at hsplit
    have hl : isFaqHeading T l = true := by
      have hne : (lines text).dropWhile (fun l => !isFaqHeading T l) ≠ [] := by rw [hdrop]; simp
      have := head_dropWhile_not (fun l => !isFaqHeading T l) hne
      simpa [hdrop] using this
    refine ⟨if_pos ?_, l, B, hsplit.symm, hl⟩
    rw [any_eq_true]
    exact ⟨l, by rw [← hsplit]; simp, hl⟩

theorem take_faqStart {text : Text} {n : Nat} (h : faqStart? T text = some n) :
    text.take n = linesBefore (clearLines T text) := by
  rcases faqStart?_cases T text with ⟨hnone, -⟩ | ⟨hsome, l, B, hlines, -⟩
  · rw [hnone] at h
    cases h
  · rw [hsome] at h
    obtain rfl := Option.some.inj h
    have htext := lines_insert hlines
    have := congrArg (List.take (linesBefore (clearLines T text)).length) htext
    rw [append_assoc, take_left] at this
    exact this

theorem lines_bodyOf {text : Text} {A B : List Text} {l : Text} (h : lines text = A ++ l :: B)
    (hA : ∀ a ∈ A, isFaqHeading T a = false) (hl : isFaqHeading T l = false) :
    ∃ B', lines (bodyOf T text) = A ++ l :: B' := by
  have hclear : ∃ B', clearLines T text = A ++ l :: B' := by
    unfold clearLines
    rw [h, takeWhile_append_of_pos fun a ha => by rw [hA a ha]; rfl,
      takeWhile_cons_of_pos (by rw [hl]; rfl)]
    exact ⟨_, rfl⟩
  obtain ⟨B', hB'⟩ := hclear
  unfold bodyOf
  rcases faqStart?_cases T text with ⟨hnone, hall⟩ | ⟨hsome, -⟩
  · rw [hnone]
    exact ⟨B, h⟩
  · rw [hsome]
    dsimp only
    rw [take_faqStart hsome, lines_linesBefore clearLines_newline, hB']
    exact ⟨B' ++ [[]], by simp⟩

theorem opens_linesBefore (A : List Text) {p : Text} (h : opens (linesBefore A ++ p) = true) : opens p = true := by
  rcases eq_nil_or_concat A with rfl | ⟨A, a, rfl⟩
  · exact h
  · rw [concat_eq_append] at h
    have hend : linesBefore (A ++ [a]) ++ p = (linesBefore A ++ a) ++ '\n' :: p := by
      unfold linesBefore
      simp
    rw [hend] at h
    unfold opens at h ⊢
    rw [any_eq_true] at h ⊢
    obtain ⟨t, ht, hopen⟩ := h
    refine ⟨t, ?_, hopen⟩
    obtain ⟨b, hb, hplain⟩ := (Option.any_eq_true _ _).1 hopen
    obtain ⟨k, hk, rfl⟩ := tagBody?_eq_some hb
    rw [mem_tails] at ht ⊢
    -- a tag that began on an earlier line would have the end of that line in it
    have hnl : '\n' ∉ '[' :: k :: ':' :: b := by
      intro hmem
      simp only [mem_cons] at hmem
      rcases hmem with hmem | hmem | hmem | hmem
      · exact absurd hmem (by decide)
      · rcases hk with rfl | rfl <;> exact absurd hmem (by decide)
      · exact absurd hmem (by decide)
      · exact absurd (List.all_eq_true.1 hplain _ hmem) (by decide)
    rcases suffix_or_suffix_of_suffix ht (suffix_append _ ('\n' :: p)) with h | h
    · exact (List.suffix_cons_iff.1 h).resolve_left fun heq => hnl (heq ▸ mem_cons_self)
    · exact absurd (h.subset mem_cons_self) hnl

theorem closes_linesAfter (s : Text) (B : List Text) : closes (s ++ linesAfter B) = closes s := by
  cases B with
  | nil => rw [show linesAfter [] = [] from rfl, append_nil]
  | cons b B =>
    show closes (s ++ '\n' :: (b ++ linesAfter B)) = _
    unfold closes
    rw [dropWhile_append_break (by decide)]
    cases s.dropWhile plainTagChar <;> rfl

theorem seam_linesBefore (A : List Text) {p : Text} (hp : Seam p) : Seam (linesBefore A ++ p) := by
  rcases hp with rfl | ⟨x, c, y, rfl, hc, hy, hspace⟩
  · rcases eq_nil_or_concat A with rfl | ⟨A, a, rfl⟩
    · exact Or.inl rfl
    · rw [concat_eq_append, append_nil]
      have hend : linesBefore (A ++ [a]) = (linesBefore A ++ a) ++ ['\n'] := by
        unfold linesBefore
        simp
      rw [hend]
      exact Seam.concat (by decide)
  · exact Or.inr ⟨linesBefore A ++ x, c, y, by simp, hc, hy, hspace⟩

theorem hasCtaLiteral_of_line {text cta p q : Text} {A B : List Text} (h : lines text = A ++ (p ++ ctaLine cta ++ q) :: B)
    (hA : ∀ a ∈ A, isFaqHeading T a = false) (hwords : ctaWords T cta ≠ []) (htags : tagStarts cta = [])
    (hheading : isFaqHeading T (p ++ ctaLine cta ++ q) = false) (hp : Seam p)
    (hopen : ¬(opens p = true ∧ closes (ctaLine cta ++ q) = true)) : hasCtaLiteral T text cta = true := by
  obtain ⟨l, m, hline, hmark⟩ := ctaLine_concat cta
  obtain ⟨B', hbody⟩ := lines_bodyOf h hA hheading
  have hm : endMark m = true := by
    rcases hmark with rfl | rfl | rfl <;> rfl
  have hkept : isBodyLine (p ++ ctaLine cta ++ q) = true :=
    isBodyLine_of_mark hmark (by rw [hline]; simp)
  have htagsLine : tagStarts (ctaLine cta) = [] := (tagStarts_ctaLine cta).trans htags
  have hwant : wordsOf T (ctaLine cta) = ctaWords T cta := by
    unfold ctaWords
    rw [wordsOf_ctaLine, strip_of_no_tag fun t ht => tagBody?_of_tagStarts htags ht]
  have hempty : (ctaNorm T cta).isEmpty = false := by
    rw [isEmpty_eq_false_iff]
    exact fun hnil => hwords (join_runs_eq_nil.1 hnil)
  unfold hasCtaLiteral
  rw [hempty, if_neg Bool.false_ne_true, hbody, filter_append, filter_cons_of_pos hkept]
  rw [unlines_insert]
  refine contains_padded hwords ?_
  rw [← hwant]
  have hseam := words_seam (T := T) (seam_linesBefore (A.filter isBodyLine) hp) hline hm htagsLine
    (q ++ linesAfter (B'.filter isBodyLine)) ?_
  · simpa only [append_assoc] using hseam
  · rintro ⟨ho, hc⟩
    rw [← append_assoc, closes_linesAfter] at hc
    exact hopen ⟨opens_linesBefore _ ho, hc⟩

/-! ## A sentence is replaced -/

def lineHead (text : Text) (i : Nat) : Text := ((text.take i).reverse.takeWhile (· != '\n')).reverse

def lineTail (text : Text) (i : Nat) : Text := (text.drop i).takeWhile (· != '\n')

theorem takeWhile_line {p : Text} (hp : '\n' ∉ p) {r : Text} (hr : r = [] ∨ ∃ t, r = '\n' :: t) :
    (p ++ r).takeWhile (· != '\n') = p := by
  have hall : ∀ c ∈ p, (c != '\n') = true := fun c hc => bne_iff_ne.2 fun heq => hp (heq ▸ hc)
  rw [takeWhile_append_of_pos hall]
  rcases hr with rfl | ⟨t, rfl⟩
  · exact append_nil p
  · rw [takeWhile_cons_of_neg (by decide), append_nil]

/-- A sentence of prose on its line. -/
structure Stands (text : Text) (s : Span) (A : List Text) (p r q : Text) (B : List Text) : Prop where
  held : lines text = A ++ (p ++ r ++ q) :: B
  start : text.take s.start = linesBefore A ++ p
  stop : text.drop s.stop = q ++ linesAfter B
  seam : Seam p
  length : s.start = (linesBefore A).length + p.length
  lt : s.start < s.stop

theorem stands_of_prose {text : Text} {s : Span} (h : s ∈ sentenceSpans T text) (hprose : s.kind = .prose) :
    ∃ A p r q B, Stands text s A p r q B := by
  obtain ⟨A, l, B, a, b, hlines, hstart, hstop, -, inFaq, hmem⟩ := mem_sentenceSpans T h
  have hcut := lineSpans_prose T inFaq l hmem hprose
  have htext := lines_insert hlines
  have hl : l.take a ++ slice l a b ++ l.drop b = l := by
    unfold slice
    rw [show l.take a = (l.take b).take a by rw [take_take, Nat.min_eq_left hcut.lt.le], take_append_drop,
      take_append_drop]
  refine ⟨A, l.take a, slice l a b, l.drop b, B, by rw [hl]; exact hlines, ?_, ?_, hcut.seam, ?_, ?_⟩
  · rw [hstart, htext, append_assoc, take_length_add_append,
      take_append_of_le_length (hcut.lt.le.trans hcut.le)]
  · rw [hstop, htext, append_assoc, ← drop_drop, drop_left, drop_append_of_le_length hcut.le]
  · rw [hstart, length_take, Nat.min_eq_left (hcut.lt.le.trans hcut.le)]
  · rw [hstart, hstop]
    exact Nat.add_lt_add_left hcut.lt _

theorem Stands.newline {text : Text} {s : Span} {A : List Text} {p r q : Text} {B : List Text} (h : Stands text s A p r q B) :
    '\n' ∉ p ∧ '\n' ∉ q := by
  have hl : '\n' ∉ p ++ r ++ q := notMem_of_mem_lines (h.held ▸ mem_append_right A mem_cons_self)
  simp only [mem_append, not_or] at hl
  exact ⟨hl.1.1, hl.2⟩

theorem Stands.lineHead {text : Text} {s : Span} {A : List Text} {p r q : Text} {B : List Text} (h : Stands text s A p r q B) :
    lineHead text s.start = p := by
  unfold Hygiene.lineHead
  rw [h.start, reverse_append, takeWhile_line (fun hp => h.newline.1 (List.mem_reverse.1 hp)), reverse_reverse]
  rcases eq_nil_or_concat A with rfl | ⟨A, a, rfl⟩
  · exact Or.inl rfl
  · right
    unfold linesBefore
    simp

theorem Stands.lineTail {text : Text} {s : Span} {A : List Text} {p r q : Text} {B : List Text} (h : Stands text s A p r q B) :
    lineTail text s.stop = q := by
  unfold Hygiene.lineTail
  rw [h.stop]
  refine takeWhile_line h.newline.2 ?_
  cases B with
  | nil => exact Or.inl rfl
  | cons b B => exact Or.inr ⟨b ++ linesAfter B, rfl⟩

theorem Stands.replace {text : Text} {s : Span} {A : List Text} {p r q : Text} {B : List Text} (h : Stands text s A p r q B)
    {line : Text} (hline : '\n' ∉ line) :
    lines (text.take s.start ++ line ++ text.drop s.stop) = A ++ (p ++ line ++ q) :: B := by
  rw [h.start, h.stop, show linesBefore A ++ p ++ line ++ (q ++ linesAfter B) =
    linesBefore A ++ (p ++ line ++ q) ++ linesAfter B by simp]
  refine lines_replace h.held ?_
  simp only [mem_append, not_or]
  exact ⟨⟨h.newline.1, hline⟩, h.newline.2⟩

theorem linesBefore_mono {A A' : List Text} (h : A <+: A') : (linesBefore A).length ≤ (linesBefore A').length := by
  obtain ⟨C, rfl⟩ := h
  unfold linesBefore
  rw [flatMap_append, length_append]
  exact Nat.le_add_right _ _

theorem clear_of_stop {text : Text} {n : Nat} (hn : faqStart? T text = some n) {A C : List Text} (h : lines text = A ++ C)
    (hlt : (linesBefore A).length < n) : ∀ a ∈ A, isFaqHeading T a = false := by
  rcases faqStart?_cases T text with ⟨hnone, -⟩ | ⟨hsome, l, B, hlines, -⟩
  · rw [hnone] at hn
    cases hn
  · rw [hsome] at hn
    obtain rfl := Option.some.inj hn
    have hprefix : A <+: lines text := ⟨C, h.symm⟩
    have hprefix' : clearLines T text <+: lines text := takeWhile_prefix _
    rcases prefix_or_prefix_of_prefix hprefix hprefix' with hA | hA
    · exact fun a ha => isFaqHeading_of_clear (hA.subset ha)
    · exact absurd (linesBefore_mono hA) (by omega)

theorem mem_ctaSpans {text : Text} {s : Span} (h : s ∈ ctaSpans T text) :
    s ∈ sentenceSpans T text ∧ s.kind = .prose ∧ s.stop ≤ ctaEnd T text := by
  obtain ⟨hmem, hcond⟩ := List.mem_filter.1 h
  rw [Bool.and_eq_true, Bool.and_eq_true, decide_eq_true_eq, decide_eq_true_eq] at hcond
  exact ⟨hmem, hcond.1.1, hcond.1.2⟩

theorem rewordedCta_mem {text cta : Text} {s : Span} (h : rewordedCta T text cta = some s) : s ∈ ctaSpans T text := by
  unfold rewordedCta at h
  dsimp only at h
  split at h
  · next s' hlast =>
    obtain rfl := Option.some.inj h
    exact mem_of_mem_drop (mem_of_mem_filter (mem_of_getLast? hlast))
  · rw [Option.filter_eq_some_iff] at h
    exact mem_of_getLast? h.1

theorem Stands.clear {text : Text} {s : Span} {A : List Text} {p r q : Text} {B : List Text} (h : Stands text s A p r q B)
    (hs : s.stop ≤ ctaEnd T text) : ∀ a ∈ A, isFaqHeading T a = false := by
  rcases hfaq : faqStart? T text with _ | n
  · rcases faqStart?_cases T text with ⟨-, hall⟩ | ⟨hsome, -⟩
    · intro a ha
      refine @isFaqHeading_of_clear T text _ ?_
      rw [hall, h.held]
      exact mem_append_left _ ha
    · rw [hsome] at hfaq
      cases hfaq
  · refine clear_of_stop hfaq h.held ?_
    unfold ctaEnd at hs
    rw [hfaq] at hs
    have := h.length
    have := h.lt
    dsimp only at hs
    omega

/-! ## A paragraph is put in -/

def Clear (T : Tables) (s : Text) : Prop := ∀ l ∈ lines s, isFaqHeading T l = false

theorem isFaqHeading_iff {l : Text} : isFaqHeading T l = true ↔
    ∃ hashes blanks name rest, l = hashes ++ (blanks ++ (name ++ rest)) ∧ (∀ c ∈ hashes, c = '#') ∧ 0 < hashes.length ∧
      hashes.length ≤ 6 ∧ (∀ c ∈ blanks, c = ' ' ∨ c = '\t') ∧ name.map Char.toLower = "faq".toList ∧
      rest.head?.any T.word = false := by
  have hname : ∀ {name : Text}, name.map Char.toLower = "faq".toList → name.length = 3 ∧
      ∃ c r, name = c :: r ∧ c ≠ '#' ∧ c ≠ ' ' ∧ c ≠ '\t' := by
    intro name h
    have hlen := congrArg List.length h
    rw [length_map] at hlen
    refine ⟨hlen, ?_⟩
    cases name with
    | nil => cases hlen
    | cons c r =>
      have hc := (List.cons.inj h).1
      refine ⟨c, r, rfl, ?_, ?_, ?_⟩ <;>
        · rintro rfl
          revert hc
          decide
  unfold isFaqHeading
  dsimp only
  constructor
  · intro h
    rw [Bool.and_eq_true, Bool.and_eq_true, Bool.and_eq_true, decide_eq_true_eq, decide_eq_true_eq, beq_iff_eq,
      Bool.not_eq_true'] at h
    obtain ⟨⟨⟨hpos, hle⟩, hfaq⟩, hword⟩ := h
    refine ⟨l.takeWhile (· == '#'),
      (l.drop (l.takeWhile (· == '#')).length).takeWhile fun c => c == ' ' || c == '\t', _, _, ?_, fun c hc => ?_, hpos, hle,
      ?_, hfaq, hword⟩
    · rw [take_append_drop, takeWhile_append_dropWhile]
      have := List.prefix_iff_eq_take.1 ( takeWhile_prefix (l := l) (· == '#'))
      conv_rhs => rw [this]
      rw [length_take, Nat.min_eq_left ( takeWhile_prefix _).length_le]
      exact (take_append_drop _ l).symm
    · have := mem_takeWhile_imp hc
      exact beq_iff_eq.1 this
    · intro c hc
      have := mem_takeWhile_imp hc
      simpa using this
  · rintro ⟨hashes, blanks, name, rest, rfl, hhashes, hpos, hle, hblanks, hfaq, hword⟩
    obtain ⟨hlen, c, r, rfl, hhash, hblank, htab⟩ := hname hfaq
    have hlevel : (hashes ++ (blanks ++ (c :: r ++ rest))).takeWhile (· == '#') = hashes := by
      rw [takeWhile_append_of_pos fun d hd => beq_iff_eq.2 (hhashes d hd)]
      cases blanks with
      | nil => rw [nil_append, cons_append, takeWhile_cons_of_neg (by simpa using hhash), append_nil]
      | cons d blanks =>
        have hd : (d == '#') = false := by
          rcases hblanks d mem_cons_self with rfl | rfl <;> decide
        rw [cons_append, takeWhile_cons, hd]
        exact append_nil _
    have hrest : (blanks ++ (c :: r ++ rest)).dropWhile (fun c => c == ' ' || c == '\t') = c :: r ++ rest := by
      rw [dropWhile_append_of_pos fun d hd => by simpa using hblanks d hd, cons_append,
        dropWhile_cons_of_neg (by simp [hblank, htab])]
    rw [hlevel, drop_left, hrest, ← hlen, take_left, drop_left, hfaq, hword]
    simp [hpos, hle]

theorem isFaqHeading_of_trailing {l w : Text} (hw : ∀ c ∈ w, isSpace c = true) (h : isFaqHeading T (l ++ w) = false) :
    isFaqHeading T l = false := by
  by_contra hl
  rw [Bool.not_eq_false, isFaqHeading_iff] at hl
  obtain ⟨hashes, blanks, name, rest, rfl, hhashes, hpos, hle, hblanks, hfaq, hword⟩ := hl
  have hlong : isFaqHeading T (hashes ++ (blanks ++ (name ++ rest)) ++ w) = true := by
    refine isFaqHeading_iff.2 ⟨hashes, blanks, name, rest ++ w, by simp, hhashes, hpos, hle, hblanks, hfaq, ?_⟩
    cases rest with
    | cons c rest => exact hword
    | nil =>
      cases w with
      | nil => rfl
      | cons c w => exact T.knowsBreaks c (breaks_space (hw c mem_cons_self))
  rw [h] at hlong
  cases hlong

theorem Clear.of_append {a b : Text} (h : Clear T (a ++ '\n' :: b)) : Clear T a := by
  intro l hl
  refine h l ?_
  rw [lines_append_cons]
  exact mem_append_left _ hl

theorem Clear.rstrip {s : Text} (h : Clear T s) : Clear T (rstrip s) := by
  obtain ⟨w, hs, hw⟩ := rstripOf_spec isSpace s
  -- up to the end of the last line
  have hline : ∃ v, (∀ c ∈ v, isSpace c = true) ∧ '\n' ∉ v ∧ Clear T (Lib.rstrip s ++ v) := by
    by_cases hnl : '\n' ∈ w
    · obtain ⟨v, v', rfl, hv⟩ := eq_append_cons_of_mem hnl
      refine ⟨v, fun c hc => hw c (mem_append_left _ hc), hv, ?_⟩
      rw [hs, ← append_assoc] at h
      exact h.of_append
    · exact ⟨w, hw, hnl, hs ▸ h⟩
  obtain ⟨v, hv, hnl, hclear⟩ := hline
  obtain ⟨H, l, hHl⟩ : ∃ H l, lines (Lib.rstrip s) = H ++ [l] := by
    rcases eq_nil_or_concat (lines (Lib.rstrip s)) with heq | ⟨H, l, heq⟩
    · exact absurd heq (lines_ne_nil _)
    · exact ⟨H, l, heq.trans (concat_eq_append ..)⟩
  have htext := lines_insert hHl
  have hlonger : lines (Lib.rstrip s ++ v) = H ++ [l ++ v] := by
    have hl := notMem_of_mem_lines (hHl ▸ mem_append_right H (mem_singleton_self l) : l ∈ lines (Lib.rstrip s))
    have := lines_replace (m := l ++ v) hHl (by rw [mem_append, not_or]; exact ⟨hl, hnl⟩)
    rw [← this, htext]
    simp [linesAfter]
  intro k hk
  rw [hHl] at hk
  rcases List.mem_append.1 hk with hk | hk
  · exact hclear k (hlonger ▸ mem_append_left _ hk)
  · rw [List.mem_singleton.1 hk]
    exact isFaqHeading_of_trailing hv (hclear _ (hlonger ▸ mem_append_right _ (mem_singleton_self _)))

theorem clear_of_none {text : Text} (h : faqStart? T text = none) : Clear T text := by
  rcases faqStart?_cases T text with ⟨-, hall⟩ | ⟨hsome, -⟩
  · intro l hl
    exact @isFaqHeading_of_clear T text _ (hall ▸ hl)
  · rw [hsome] at h
    cases h

theorem linesBefore_concat (A : List Text) (a : Text) : linesBefore (A ++ [a]) = linesBefore A ++ a ++ ['\n'] := by
  unfold linesBefore
  simp

theorem tailFrom_spec {text : Text} {ls : List Text} {first : Text} {Y : List Text} {start : Option Nat} {n : Nat}
    (hlines : lines text = first :: ls.reverse ++ Y)
    (hstart : ∀ k, start = some k → ∃ a b, text = a ++ '\n' :: b ∧ k = a.length)
    (h : tailFrom ls (unlines (first :: ls.reverse)).length start = some n) :
    ∃ a b, text = a ++ '\n' :: b ∧ n = a.length := by
  induction ls generalizing Y start with
  | nil => exact hstart n h
  | cons l ls ih =>
    unfold tailFrom at h
    split at h
    · have hun : unlines (first :: (l :: ls).reverse) = unlines (first :: ls.reverse) ++ '\n' :: l := by
        have hl := unlines_insert (first :: ls.reverse) l []
        obtain ⟨A, a, hA⟩ : ∃ A a, first :: ls.reverse = A ++ [a] :=
          ⟨_, _, (dropLast_append_getLast (cons_ne_nil first ls.reverse)).symm⟩
        rw [reverse_cons, ← cons_append, hl, hA, linesBefore_concat, unlines_insert]
        simp [linesAfter]
      have hpos : (unlines (first :: (l :: ls).reverse)).length - (l.length + 1) = (unlines (first :: ls.reverse)).length := by
        rw [hun, length_append, length_cons]
        omega
      rw [hpos] at h
      refine ih (Y := l :: Y) (by rw [hlines]; simp) (fun k hk => ?_) h
      split at hk
      · have htext : text = unlines (first :: ls.reverse) ++ linesAfter (l :: Y) := by
          obtain ⟨A, a, hA⟩ : ∃ A a, first :: ls.reverse = A ++ [a] :=
            ⟨_, _, (dropLast_append_getLast (cons_ne_nil first ls.reverse)).symm⟩
          have hlines' : lines text = A ++ a :: (l :: Y) := by
            rw [hlines, reverse_cons, ← cons_append, hA]
            simp
          rw [lines_insert hlines', hA, unlines_insert]
          simp [linesAfter]
        exact ⟨_, l ++ linesAfter Y, htext, (Option.some.inj hk).symm⟩
      · exact hstart k hk
    · exact hstart n h

theorem take_append_newline {text a b : Text} (h : text = a ++ '\n' :: b) : text.take a.length = a := by
  rw [h, take_left]

theorem clear_ctaEnd (T : Tables) (text : Text) : Clear T (text.take (ctaEnd T text)) := by
  unfold ctaEnd
  cases hfaq : faqStart? T text with
  | some n =>
    rw [take_faqStart hfaq]
    intro l hl
    rw [lines_linesBefore clearLines_newline] at hl
    rcases List.mem_append.1 hl with hl | hl
    · exact isFaqHeading_of_clear hl
    · rw [List.mem_singleton.1 hl]
      rfl
  | none =>
    have hclear := clear_of_none hfaq
    cases htail : hashtagTailStart text with
    | none =>
      rw [Option.getD_none, take_length]
      exact hclear
    | some n =>
      obtain ⟨first, rest, hlines⟩ : ∃ first rest, lines text = first :: rest := by
        cases hl : lines text with
        | nil => exact absurd hl (lines_ne_nil text)
        | cons first rest => exact ⟨first, rest, rfl⟩
      unfold hashtagTailStart at htail
      rw [hlines, tail_cons] at htail
      have hlen : text.length = (unlines (first :: rest.reverse.reverse)).length := by
        rw [reverse_reverse, ← hlines, unlines_lines]
      rw [hlen] at htail
      obtain ⟨a, b, htext, rfl⟩ := tailFrom_spec (Y := []) (by rw [hlines]; simp) (fun k hk => by cases hk) htail
      rw [Option.getD_some, take_append_newline htext]
      rw [htext] at hclear
      exact hclear.of_append

theorem linesBefore_lines (s : Text) : linesBefore (lines s) = s ++ ['\n'] := by
  obtain ⟨A, a, hA⟩ : ∃ A a, lines s = A ++ [a] := ⟨_, _, (dropLast_append_getLast (lines_ne_nil s)).symm⟩
  have hs := lines_insert hA
  rw [hA, linesBefore_concat]
  conv_rhs => rw [hs]
  simp [linesAfter]

theorem clear_paragraphEnd (T : Tables) (text : Text) : Clear T (text.take (paragraphEnd T text)) := by
  have hend := clear_ctaEnd T text
  unfold paragraphEnd
  split
  · exact hend
  · next last hlast =>
    split
    · split
      · exact hend
      · next para hpara =>
        split
        · -- the paragraph before the closing question ends at a newline
          have hfound := List.find?_some hpara
          have hrange := List.mem_reverse.1 (List.mem_of_find?_eq_some hpara)
          rw [mem_range] at hrange
          obtain ⟨b, hb⟩ := List.isPrefixOf_iff_prefix.1 hfound
          have htext : text = text.take para ++ '\n' :: ('\n' :: b) := by
            conv_lhs => rw [← take_append_drop para text, ← hb]
            rfl
          have hlines : lines text = lines (text.take para) ++ lines ('\n' :: b) := by
            conv_lhs => rw [htext]
            exact lines_append_cons _ _
          cases hfaq : faqStart? T text with
          | none =>
            have hclear := clear_of_none hfaq
            rw [htext] at hclear
            exact hclear.of_append
          | some n =>
            obtain ⟨hmem, hprose, hstop⟩ := mem_ctaSpans (mem_of_getLast? hlast)
            obtain ⟨A, p, r, q, B, hstands⟩ := stands_of_prose hmem hprose
            have hlt := hstands.lt
            unfold ctaEnd at hstop
            rw [hfaq] at hstop
            dsimp only at hstop
            refine clear_of_stop hfaq hlines ?_
            rw [linesBefore_lines, length_append, length_take]
            simp only [length_cons, length_nil] at hrange ⊢
            omega
        · exact hend
    · exact hend

theorem rstripOf_concat {p : Char → Bool} {z : Char} (hz : p z = false) (s : Text) : rstripOf p (s ++ [z]) = s ++ [z] := by
  unfold rstripOf
  rw [reverse_append, reverse_singleton, singleton_append, dropWhile_cons_of_neg (by rw [hz]; simp),
    reverse_cons, reverse_reverse]

theorem insertLine_spec (text : Text) {line l : Text} {m : Char} (hline : line = l ++ [m]) (hm : m ≠ '\n') (stop : Nat) :
    ∃ gap after rest, text = rstrip (text.take stop) ++ gap ++ rest ∧ (∀ c ∈ gap, isSpace c = true) ∧
      (∀ c ∈ after, c = '\n') ∧ (after = [] → rest = []) ∧
      insertLine text line stop = rstrip (text.take stop) ++ ['\n', '\n'] ++ line ++ after ++ rest := by
  obtain ⟨w, hhead, hw⟩ := rstripOf_spec isSpace (text.take stop)
  change text.take stop = rstrip (text.take stop) ++ w at hhead
  have hnl : ∀ c ∈ (text.drop stop).takeWhile (· == '\n'), c = '\n' := fun c hc => by
    have := mem_takeWhile_imp hc
    exact beq_iff_eq.1 this
  have htext : text = rstrip (text.take stop) ++ (w ++ (text.drop stop).takeWhile (· == '\n')) ++
      (text.drop stop).dropWhile (· == '\n') := by
    conv_lhs => rw [← take_append_drop stop text, hhead, ← takeWhile_append_dropWhile (p := (· == '\n'))
      (l := text.drop stop)]
    simp
  have hgap : ∀ c ∈ w ++ (text.drop stop).takeWhile (· == '\n'), isSpace c = true := by
    intro c hc
    rcases List.mem_append.1 hc with hc | hc
    · exact hw c hc
    · rw [hnl c hc]
      decide
  unfold insertLine
  dsimp only
  rcases eq_nil_or_concat ((text.drop stop).dropWhile (· == '\n')) with hrest | ⟨r, z, hrest⟩
  · rw [hrest] at htext ⊢
    rw [isEmpty_nil, if_pos rfl]
    split
    · exact ⟨_, ['\n'], [], htext, hgap, by simp, fun _ => rfl, by simp⟩
    · refine ⟨_, [], [], htext, hgap, by simp, fun _ => rfl, ?_⟩
      have hdrop : rstripOf (· == '\n') (rstrip (text.take stop) ++ ['\n', '\n'] ++ line ++ ['\n']) =
          rstripOf (· == '\n') (rstrip (text.take stop) ++ ['\n', '\n'] ++ line) := by
        unfold rstripOf
        rw [reverse_append]
        rfl
      rw [hdrop, hline, ← append_assoc, rstripOf_concat (by simpa using hm)]
      simp
  · rw [concat_eq_append] at hrest
    rw [hrest] at htext ⊢
    have hlast : text.getLast? = some z := by
      rw [htext, ← append_assoc, List.getLast?_concat]
    have hsome : (r ++ [z]).isEmpty = false := by simp
    rw [hsome, if_neg Bool.false_ne_true, hlast]
    refine ⟨_, ['\n', '\n'], r ++ [z], htext, hgap, by simp, by simp, ?_⟩
    split
    · rfl
    · next hz =>
      rw [← append_assoc, rstripOf_concat]
      rw [Bool.eq_false_iff]
      intro hzn
      rw [beq_iff_eq.1 hzn] at hz
      exact hz rfl

theorem lines_insertLine (text : Text) {line l : Text} {m : Char} (hline : line = l ++ [m]) (hm : m ≠ '\n')
    (hnl : '\n' ∉ line) (stop : Nat) :
    ∃ B, lines (insertLine text line stop) = (lines (rstrip (text.take stop)) ++ [[]]) ++ line :: B := by
  obtain ⟨gap, after, rest, -, -, hafter, hrest, hnew⟩ := insertLine_spec text hline hm stop
  have hsplit : insertLine text line stop =
      rstrip (text.take stop) ++ '\n' :: ([] ++ '\n' :: (line ++ (after ++ rest))) := by
    rw [hnew]
    simp
  rw [hsplit, lines_append_cons, lines_append_cons, show lines [] = [[]] from rfl]
  cases after with
  | nil =>
    rw [hrest rfl, append_nil, append_nil, lines_of_notMem hnl]
    exact ⟨[], by simp⟩
  | cons c after =>
    have hcut : line ++ (c :: after ++ rest) = line ++ '\n' :: (after ++ rest) := by
      rw [hafter c mem_cons_self, cons_append]
    rw [hcut, lines_append_cons, lines_of_notMem hnl]
    exact ⟨lines (after ++ rest), by simp⟩

/-! ## The piece -/

/-- One sentence of the text is replaced by the line, or the line is a paragraph between parts of which only the space at the
seam is changed. -/
inductive Edited (T : Tables) (text line : Text) : Text → Prop
  | same : Edited T text line text
  | replaced (s : Span) (hs : s ∈ sentenceSpans T text) :
      Edited T text line (text.take s.start ++ line ++ text.drop s.stop)
  | inserted (head gap before after rest : Text) (htext : text = head ++ gap ++ rest)
      (hspace : ∀ c ∈ gap ++ before ++ after, isSpace c = true) :
      Edited T text line (head ++ before ++ line ++ after ++ rest)

/-- The configured line is in the body, a second call returns its input with an empty log, and the rest is kept. -/
structure Restored (T : Tables) (text cta : Text) : Prop where
  there : if ctaWords T cta = [] then ctaLine cta <:+: bodyOf T (ensureCta T text cta).1
    else hasCtaLiteral T (ensureCta T text cta).1 cta = true
  again : ensureCta T (ensureCta T text cta).1 cta = ((ensureCta T text cta).1, [])
  kept : Edited T text (ctaLine cta) (ensureCta T text cta).1

/-- What stands on its line before and after the place where the configured line is put. -/
def ctaPlace (T : Tables) (text cta : Text) : Text × Text :=
  match rewordedCta T text cta with
  | some s => (lineHead text s.start, lineTail text s.stop)
  | none => ([], [])

/-- The configured line has a word and no citation tag; at its place it is not read as a FAQ heading, and no tag is open that
is closed after it. -/
structure Readable (T : Tables) (text cta : Text) : Prop where
  words : ctaWords T cta ≠ []
  untagged : tagStarts cta = []
  heading : isFaqHeading T ((ctaPlace T text cta).1 ++ ctaLine cta ++ (ctaPlace T text cta).2) = false
  closed : ¬(opens (ctaPlace T text cta).1 = true ∧ closes (ctaLine cta ++ (ctaPlace T text cta).2) = true)

theorem ensureCta_kept (T : Tables) (text cta : Text) : Edited T text (ctaLine cta) (ensureCta T text cta).1 := by
  obtain ⟨l, m, hline, hmark⟩ := ctaLine_concat cta
  have hm : m ≠ '\n' := by
    rcases hmark with rfl | rfl | rfl <;> decide
  unfold ensureCta
  split
  · exact Edited.same
  · split
    · next s hs => exact Edited.replaced s (mem_ctaSpans (rewordedCta_mem hs)).1
    · obtain ⟨gap, after, rest, htext, hgap, hafter, -, hnew⟩ := insertLine_spec text hline hm (paragraphEnd T text)
      rw [hnew]
      refine Edited.inserted _ gap _ after rest htext fun c hc => ?_
      rcases List.mem_append.1 hc with hc | hc
      · rcases List.mem_append.1 hc with hc | hc
        · exact hgap c hc
        · simp only [mem_cons, not_mem_nil, or_false, or_self] at hc
          rw [hc]
          decide
      · rw [hafter c hc]
        decide

theorem hasCtaLiteral_ensureCta {text cta : Text} (h : hasCtaLiteral T text cta = true ∨ Readable T text cta) :
    hasCtaLiteral T (ensureCta T text cta).1 cta = true := by
  have hnl := newline_notMem_ctaLine cta
  unfold ensureCta
  by_cases hhas : hasCtaLiteral T text cta = true
  · rw [hhas, Bool.or_true, if_pos rfl]
    exact hhas
  have hread := h.resolve_left hhas
  split
  · next hblank =>
    rw [Bool.or_eq_true, or_iff_left hhas, List.isEmpty_iff] at hblank
    -- a blank line has no word
    refine absurd ?_ hread.words
    have hwords := wordsOf_ctaLine (T := T) cta
    have hstrip : stripTags T.toCharClasses cta = cta :=
      strip_of_no_tag fun t ht => tagBody?_of_tagStarts hread.untagged ht
    unfold ctaWords
    rw [hstrip, ← hwords]
    unfold ctaLine
    rw [hblank]
    exact wordsOf_concat (by decide) []
  · have hheading := hread.heading
    have hclosed := hread.closed
    unfold ctaPlace at hheading hclosed
    cases hreworded : rewordedCta T text cta with
    | some s =>
      rw [hreworded] at hheading hclosed
      dsimp only at hheading hclosed ⊢
      obtain ⟨hmem, hprose, hstop⟩ := mem_ctaSpans (rewordedCta_mem hreworded)
      obtain ⟨A, p, r, q, B, hstands⟩ := stands_of_prose hmem hprose
      rw [hstands.lineHead, hstands.lineTail] at hheading hclosed
      exact hasCtaLiteral_of_line (hstands.replace hnl) (hstands.clear hstop) hread.words hread.untagged hheading
        hstands.seam hclosed
    | none =>
      rw [hreworded] at hheading hclosed
      obtain ⟨l, m, hline, hmark⟩ := ctaLine_concat cta
      have hm : m ≠ '\n' := by
        rcases hmark with rfl | rfl | rfl <;> decide
      obtain ⟨B, hlines⟩ := lines_insertLine text hline hm hnl (paragraphEnd T text)
      have hclear := (clear_paragraphEnd T text).rstrip
      have hplace : lines (insertLine text (ctaLine cta) (paragraphEnd T text)) =
          (lines (rstrip (text.take (paragraphEnd T text))) ++ [[]]) ++ ([] ++ ctaLine cta ++ []) :: B := by
        rw [nil_append, append_nil]
        exact hlines
      refine hasCtaLiteral_of_line hplace (fun a ha => ?_) hread.words hread.untagged hheading (Or.inl rfl) hclosed
      rcases List.mem_append.1 ha with ha | ha
      · exact hclear a ha
      · rw [List.mem_singleton.1 ha]
        rfl

theorem ensureCta_again (T : Tables) {text cta : Text} (hcta : oneLine cta ≠ []) :
    ensureCta T text cta = (text, []) ↔ hasCtaLiteral T text cta = true := by
  have hblank : (oneLine cta).isEmpty = false := List.isEmpty_eq_false_iff.2 hcta
  unfold ensureCta
  rw [hblank, Bool.false_or]
  constructor
  · intro h
    by_contra hhas
    rw [if_neg hhas] at h
    split at h <;> cases (Prod.mk.inj h).2
  · intro h
    rw [if_pos h]

theorem toLower_of_not_alphanum {c : Char} (h : c.isAlphanum = false) : c.toLower = c ∧ isKey c = false := by
  unfold Char.isAlphanum Char.isAlpha at h
  rw [Bool.or_eq_false_iff, Bool.or_eq_false_iff] at h
  obtain ⟨⟨hupper, hlower⟩, hdigit⟩ := h
  constructor
  · refine dif_neg fun hcap => ?_
    have : c.isUpper = true := by
      exact decide_eq_true hcap
    rw [hupper] at this
    cases this
  · unfold isKey
    rw [hlower, hdigit]
    rfl

/-- The tables on ASCII and the letter я. -/
def asciiTables : Tables where
  word c := c.isAlphanum || c == '_' || c == 'я'
  digit := Char.isDigit
  fold c := [c.toLower]
  ignoreCase := Char.toLower
  knowsBreaks c hc := by
    have hunder : c ≠ '_' := breaks_ne hc (by decide)
    have hya : c ≠ 'я' := breaks_ne hc (by decide)
    show (c.isAlphanum || c == '_' || c == 'я') = false
    rw [not_alphanum_of_breaks hc, beq_eq_false_iff_ne.2 hunder, beq_eq_false_iff_ne.2 hya]
    rfl
  fold_break c hc := by
    obtain ⟨hlower, hkey⟩ := toLower_of_not_alphanum (not_alphanum_of_breaks hc)
    refine ⟨List.cons_ne_nil _ _, fun d hd => ?_⟩
    rw [List.mem_singleton.1 hd, hlower]
    exact ⟨hkey, breaks_ne hc (by decide)⟩

end CisApp.Hygiene
