import CisApp.Hygiene.Cta
import CisApp.Lib.Regex

/-! The scans for sentence boundaries against the patterns that they replaced.

`_word_before_dot`, `_sentence_end_matches` and `_hashtag_tail_start` of `hygiene.py` each name the pattern that they stand
for.  The patterns are written out here and read by the matcher of `Lib.Regex`. -/

namespace CisApp.Hygiene

open CisApp.Lib CisApp.Repair Regex List

/-! ## The word before a dot -/

/-- `(?<![A-Za-z0-9])[A-Za-z.]+$`. -/
def wordBeforeDotRe : Regex := seq (notAfter Char.isAlphanum) (seq (plus (one wordDot)) last)

theorem takes_wordBeforeDotRe {l w s : Text} : Takes wordBeforeDotRe l w s ↔
    l.head?.any Char.isAlphanum = false ∧ (w ≠ [] ∧ ∀ c ∈ w, wordDot c = true) ∧ (s = [] ∨ s = ['\n']) := by
  unfold wordBeforeDotRe
  rw [takes_seq]
  constructor
  · rintro ⟨a, b, rfl, ha, hb⟩
    obtain ⟨rfl, hl⟩ := takes_notAfter.1 ha
    obtain ⟨w, e, rfl, hw, he⟩ := takes_seq.1 hb
    obtain ⟨rfl, hs⟩ := takes_last.1 he
    rw [nil_append, append_nil]
    exact ⟨hl, takes_plus_one.1 hw, hs⟩
  · rintro ⟨hl, hw, hs⟩
    refine ⟨[], w, rfl, takes_notAfter.2 ⟨rfl, hl⟩, takes_seq.2 ⟨w, [], (append_nil w).symm, ?_, ?_⟩⟩
    · exact takes_plus_one.2 hw
    · exact takes_last.2 ⟨rfl, hs⟩

theorem suffix_split {a b a' t' : Text} (h : a ++ b = a' ++ t') (hlt : a'.length < a.length) :
    ∃ u, u ≠ [] ∧ a = a' ++ u ∧ t' = u ++ b := by
  rcases List.append_eq_append_iff.1 h with ⟨u, rfl, -⟩ | ⟨u, ha, ht⟩
  · rw [length_append] at hlt
    omega
  · refine ⟨u, ?_, ha, ht⟩
    rintro rfl
    rw [ha, append_nil] at hlt
    exact lt_irrefl _ hlt

theorem run_split {p : Char → Bool} {x run a w : Text} (hx : x.getLast?.any p = false) (hw : ∀ c ∈ w, p c = true)
    (h : x ++ run = a ++ w) : ∃ u, a = x ++ u ∧ run = u ++ w := by
  rcases List.append_eq_append_iff.1 h with ⟨u, ha, hrun⟩ | ⟨u, hx', hw'⟩
  · exact ⟨u, ha, hrun⟩
  · cases hu : u.getLast? with
    | none =>
      obtain rfl := List.getLast?_eq_none_iff.1 hu
      rw [append_nil] at hx'
      exact ⟨[], by rw [hx', append_nil], hw'.symm⟩
    | some c =>
      -- the last character of `x` would be of the class
      have hlast : x.getLast? = some c := by
        rw [hx', List.getLast?_append, hu]
        rfl
      have hc := hw c (by rw [hw']; exact mem_append_left _ (mem_of_getLast? hu))
      rw [hlast, Option.any_some, hc] at hx
      cases hx

theorem wordDot_not_newline : wordDot '\n' = false := by decide

theorem tail_unique {b nl a w s : Text} (hnl : nl = [] ∧ b.getLast? ≠ some '\n' ∨ nl = ['\n'])
    (hw : w ≠ [] ∧ ∀ c ∈ w, wordDot c = true) (hs : s = [] ∨ s = ['\n']) (h : b ++ nl = a ++ w ++ s) :
    s = nl ∧ b = a ++ w := by
  have hlast : ∀ t : Text, t ++ ['\n'] ≠ a ++ w := by
    intro t heq
    have : (a ++ w).getLast? = some '\n' := by
      rw [← heq, List.getLast?_concat]
    rw [List.getLast?_append_of_ne_nil _ hw.1] at this
    have := hw.2 _ (mem_of_getLast? this)
    cases this
  rcases hnl with ⟨rfl, hb⟩ | rfl
  · rcases hs with rfl | rfl
    · simpa using h
    · rw [append_nil] at h
      rw [h, List.getLast?_concat] at hb
      exact absurd rfl hb
  · rcases hs with rfl | rfl
    · rw [append_nil] at h
      exact absurd h (hlast b)
    · exact ⟨rfl, append_cancel_right h⟩

theorem take_before (before after : Text) : ∃ b nl, before = b ++ nl ∧
    (nl = [] ∧ b.getLast? ≠ some '\n' ∨ nl = ['\n']) ∧
    (before ++ after).take (if 0 < before.length && (before ++ after)[before.length - 1]? == some '\n' then
      before.length - 1 else before.length) = b := by
  rcases eq_nil_or_concat before with rfl | ⟨b, c, hb⟩
  · exact ⟨[], [], rfl, Or.inl ⟨rfl, by simp⟩, by simp⟩
  · rw [concat_eq_append] at hb
    subst hb
    by_cases hc : c = '\n'
    · subst hc
      refine ⟨b, ['\n'], rfl, Or.inr rfl, ?_⟩
      simp
    · refine ⟨b ++ [c], [], (append_nil _).symm, Or.inl ⟨rfl, ?_⟩, ?_⟩
      · simpa using hc
      · rw [if_neg (by simp [hc]), take_left']
        rfl

theorem last_run (p : Char → Bool) (b : Text) :
    b = (b.reverse.dropWhile p).reverse ++ (b.reverse.takeWhile p).reverse ∧
      (b.reverse.dropWhile p).reverse.getLast?.any p = false ∧ ∀ c ∈ (b.reverse.takeWhile p).reverse, p c = true := by
  refine ⟨?_, ?_, fun c hc => mem_takeWhile_imp (List.mem_reverse.1 hc)⟩
  · rw [← reverse_append, takeWhile_append_dropWhile, reverse_reverse]
  · rw [List.getLast?_reverse]
    cases h : (b.reverse.dropWhile p).head? with
    | none => rfl
    | some c => exact head?_dropWhile_class h

theorem run_parts {p : Char → Bool} {a b : Text} (ha : ∀ c ∈ a, p c = true) (hb : b.head?.any p = false) :
    (a ++ b).takeWhile p = a ∧ (a ++ b).dropWhile p = b := by
  rw [takeWhile_append_of_pos ha, dropWhile_append_of_pos ha]
  cases b with
  | nil => exact ⟨append_nil a, rfl⟩
  | cons c b =>
    have hc : ¬p c = true := by simpa using hb
    rw [takeWhile_cons_of_neg hc, dropWhile_cons_of_neg hc]
    exact ⟨append_nil a, rfl⟩

theorem start_iff {x u : Text} (hx : x.getLast?.any wordDot = false) (hu : ∀ c ∈ u, wordDot c = true) :
    (x ++ u).reverse.head?.any Char.isAlphanum = false ↔
      u = [] ∧ x.getLast?.any Char.isDigit = false ∨ u.getLast? = some '.' := by
  rw [List.head?_reverse]
  cases hlast : u.getLast? with
  | none =>
    obtain rfl := List.getLast?_eq_none_iff.1 hlast
    rw [append_nil]
    cases hc : x.getLast? with
    | none => simp
    | some c =>
      rw [hc, Option.any_some] at hx
      unfold wordDot at hx
      rw [Bool.or_eq_false_iff] at hx
      simp [Char.isAlphanum, hx.1]
  | some c =>
    have hne : u ≠ [] := by
      rintro rfl
      cases hlast
    have hc := hu c (mem_of_getLast? hlast)
    unfold wordDot at hc
    rw [List.getLast?_append, hlast]
    show c.isAlphanum = false ↔ _
    simp only [hne, false_and, Option.some.injEq, false_or]
    rw [Bool.or_eq_true, beq_iff_eq] at hc
    constructor
    · intro halnum
      unfold Char.isAlphanum at halnum
      rw [Bool.or_eq_false_iff] at halnum
      rcases hc with hc | hc
      · rw [halnum.1] at hc
        cases hc
      · exact hc
    · rintro rfl
      decide

theorem takes_in_run {x run nl a w s : Text} (hx : x.getLast?.any wordDot = false) (hrun : ∀ c ∈ run, wordDot c = true)
    (hnl : nl = [] ∧ (x ++ run).getLast? ≠ some '\n' ∨ nl = ['\n']) (h : x ++ run ++ nl = a ++ w ++ s)
    (htake : Takes wordBeforeDotRe a.reverse w s) :
    s = nl ∧ ∃ u, a = x ++ u ∧ run = u ++ w ∧ w ≠ [] ∧
      (u = [] ∧ x.getLast?.any Char.isDigit = false ∨ u.getLast? = some '.') := by
  obtain ⟨hl, hw, hs⟩ := takes_wordBeforeDotRe.1 htake
  obtain ⟨rfl, hb⟩ := tail_unique hnl hw hs h
  obtain ⟨u, rfl, rfl⟩ := run_split hx hw.2 hb
  refine ⟨rfl, u, rfl, rfl, hw.1, ?_⟩
  exact (start_iff hx fun c hc => hrun c (mem_append_left _ hc)).1 hl

theorem search_in_run {x u w nl : Text} (hx : x.getLast?.any wordDot = false) (hrun : ∀ c ∈ u ++ w, wordDot c = true)
    (hnl : nl = [] ∧ (x ++ (u ++ w)).getLast? ≠ some '\n' ∨ nl = ['\n']) (hw : w ≠ [])
    (hu : u = [] ∧ x.getLast?.any Char.isDigit = false ∨ u.getLast? = some '.')
    (hleft : ∀ u', u' <+: u ++ w → u' = [] ∧ x.getLast?.any Char.isDigit = false ∨ u'.getLast? = some '.' →
      u.length ≤ u'.length) :
    (search wordBeforeDotRe [] (x ++ (u ++ w) ++ nl)).map matched = some w := by
  have htake : Takes wordBeforeDotRe (x ++ u).reverse w nl := by
    refine takes_wordBeforeDotRe.2 ⟨?_, ⟨hw, fun c hc => hrun c (mem_append_right _ hc)⟩, ?_⟩
    · exact (start_iff hx fun c hc => hrun c (mem_append_left _ hc)).2 hu
    · exact hnl.imp_left (·.1)
  have hone : ∀ w' s', w ++ nl = w' ++ s' → Takes wordBeforeDotRe (x ++ u).reverse w' s' → s' = nl := by
    intro w' s' heq h'
    refine (@takes_in_run x (u ++ w) nl (x ++ u) w' s' hx hrun hnl ?_ h').1
    rw [← append_assoc x u w, append_assoc _ w nl, heq, append_assoc (x ++ u)]
  have hno : ∀ a' w' s', x ++ u ++ w ++ nl = a' ++ w' ++ s' → a'.length < (x ++ u).length →
      ¬Takes wordBeforeDotRe a'.reverse w' s' := by
    intro a' w' s' heq hlt h'
    obtain ⟨-, u', rfl, hsplit, -, hu'⟩ := takes_in_run hx hrun hnl (by rw [← heq, append_assoc x u w]) h'
    have := hleft u' ⟨w', hsplit.symm⟩ hu'
    rw [length_append, length_append] at hlt
    omega
  rw [← append_assoc x u w, search_matched htake hone hno, Option.map_some, matched_eq]

theorem word_before_dot_eq (before after : Text) :
    wordBeforeDot (before ++ after) before.length = ((search wordBeforeDotRe [] before).map matched).getD [] := by
  obtain ⟨b, nl, rfl, hnl, htake⟩ := take_before before after
  obtain ⟨hsplit, hx, hrun⟩ := last_run wordDot b
  unfold wordBeforeDot
  dsimp only
  rw [htake, ← List.getLast?_reverse]
  generalize (b.reverse.dropWhile wordDot).reverse = x at hsplit hx
  generalize (b.reverse.takeWhile wordDot).reverse = run at hsplit hrun
  subst hsplit
  -- no match where there is no word
  have hnone : (∀ u w, run = u ++ w → u = [] ∧ x.getLast?.any Char.isDigit = false ∨ u.getLast? = some '.' → w = []) →
      search wordBeforeDotRe [] (x ++ run ++ nl) = none := by
    intro h
    refine search_eq_none fun a w s heq h' => ?_
    obtain ⟨-, u, -, hruneq, hw, hu⟩ := takes_in_run hx hrun hnl heq h'
    exact hw (h u w hruneq hu)
  by_cases hdigit : x.getLast?.any Char.isDigit = true
  · rw [if_pos hdigit]
    have hstart : ∀ u : Text, u = [] ∧ x.getLast?.any Char.isDigit = false ∨ u.getLast? = some '.' → u.getLast? = some '.' := by
      rintro u (⟨-, hno⟩ | hu)
      · rw [hdigit] at hno
        cases hno
      · exact hu
    have hparts := takeWhile_append_dropWhile (p := (· != '.')) (l := run)
    have hbefore : '.' ∉ run.takeWhile (· != '.') := by
      intro hmem
      simpa using mem_takeWhile_imp hmem
    cases hdrop : run.dropWhile (· != '.') with
    | nil =>
      rw [hdrop, append_nil] at hparts
      rw [hparts] at hbefore
      rw [hnone fun u w hruneq hu => ?_]
      · rfl
      · have := mem_of_getLast? (hstart u hu)
        exact absurd (by rw [hruneq]; exact mem_append_left _ this) hbefore
    | cons c w =>
      obtain rfl : c = '.' := by
        have := @head?_dropWhile_class run (· != '.') c (by rw [hdrop]; rfl)
        simpa using this
      rw [hdrop] at hparts
      generalize run.takeWhile (· != '.') = t at hparts hbefore
      have hruneq : run = (t ++ ['.']) ++ w := by
        rw [← hparts, append_assoc]
        rfl
      -- a start is behind the first dot
      have hleft : ∀ u', u' <+: t ++ ['.'] ++ w → u'.getLast? = some '.' → (t ++ ['.']).length ≤ u'.length := by
        rintro u' ⟨v, hv⟩ hlast
        by_contra hlt
        have hpre : u' <+: t := by
          refine prefix_of_prefix_length_le ⟨v, hv⟩ ⟨'.' :: w, by rw [append_assoc]; rfl⟩ ?_
          rw [length_append, length_singleton] at hlt
          omega
        exact hbefore (hpre.subset (mem_of_getLast? hlast))
      by_cases hw : w = []
      · subst hw
        rw [hnone fun u v huv hu => ?_]
        · rfl
        · have hlen := hleft u ⟨v, by rw [← hruneq, huv]⟩ (hstart u hu)
          have := congrArg List.length (hruneq.symm.trans huv)
          simp only [length_append, length_nil] at this hlen
          exact List.length_eq_zero_iff.1 (by omega)
      · subst hruneq
        rw [search_in_run hx hrun hnl hw (Or.inr (List.getLast?_concat)) fun u' hpre hu' => hleft u' hpre (hstart u' hu')]
        rfl
  · rw [if_neg hdigit]
    have hdigit' : x.getLast?.any Char.isDigit = false := by simpa using hdigit
    by_cases hne : run = []
    · subst hne
      rw [hnone fun u w huw _ => (List.append_eq_nil_iff.1 huw.symm).2]
      rfl
    · have := @search_in_run x [] run nl hx hrun hnl hne (Or.inl ⟨rfl, hdigit'⟩) fun _ _ _ => Nat.zero_le _
      rw [nil_append] at this
      rw [this]
      rfl

/-! ## The ends of sentences -/

/-- `TAG` of `citation_tags.py`: `\[(?:R|F):[^\[\]\n]+\]`. -/
def tagRe : Regex :=
  seq (one (· == '[')) (seq (alt (one (· == 'R')) (one (· == 'F')))
    (seq (one (· == ':')) (seq (plus (one plainTagChar)) (one (· == ']')))))

/-- `\s?TAG`. -/
def spacedTagRe : Regex := seq (opt (one isSpace)) tagRe

/-- `\s+\S|\s*$`. -/
def afterEndRe : Regex := alt (seq (plus (one isSpace)) (one fun c => !isSpace c)) (seq (star (one isSpace)) last)

/-- `[.!?…]+closers*(?:\s?TAG)*(?=\s+\S|\s*$)`. -/
def sentenceEndRe : Regex :=
  seq (plus (one endMark)) (seq (star (one closer)) (seq (star spacedTagRe) (ahead afterEndRe)))

def tagStep (z : Place) : Option Place := (tagLength? z.2).map fun n => ((z.2.take n).reverse ++ z.1, z.2.drop n)

theorem tagBody?_three (c k d : Char) (s : Text) :
    tagBody? (c :: k :: d :: s) = if c = '[' ∧ (k = 'R' ∨ k = 'F') ∧ d = ':' then some s else none := by
  split
  · next h =>
    obtain ⟨rfl, hk, rfl⟩ := h
    show (if k == 'R' || k == 'F' then some s else none) = some s
    rw [if_pos (by simpa using hk)]
  · next h =>
    refine tagBody?_eq_none fun k' b hk' heq => h ?_
    simp only [List.cons.injEq] at heq
    exact ⟨heq.1, heq.2.1 ▸ hk', heq.2.2.1⟩

theorem ends_tagRe_body (l s : Text) : tagRe.ends (l, s) =
    match tagBody? s with
    | none => []
    | some b => (seq (plus (one plainTagChar)) (one (· == ']'))).ends ((s.take 3).reverse ++ l, b) := by
  have hkind : ∀ (r : Regex) (l : Text) (k : Char) (s : Text),
      (seq (alt (one (· == 'R')) (one (· == 'F'))) r).ends (l, k :: s) =
        if k = 'R' ∨ k = 'F' then r.ends (k :: l, s) else [] := by
    intro r l k s
    show ((if k == 'R' then [(k :: l, s)] else []) ++ (if k == 'F' then [(k :: l, s)] else [])).flatMap r.ends = _
    by_cases hR : k = 'R'
    · subst hR
      simp
    · by_cases hF : k = 'F'
      · subst hF
        simp
      · simp [hR, hF]
  unfold tagRe
  cases s with
  | nil => rfl
  | cons c s =>
    rw [ends_one_seq]
    cases s with
    | nil =>
      rw [tagBody?_eq_none (by simp)]
      split <;> rfl
    | cons k s =>
      rw [hkind]
      cases s with
      | nil =>
        rw [tagBody?_eq_none (by simp), ends_one_seq_nil]
        split
        · split <;> rfl
        · rfl
      | cons d s =>
        rw [ends_one_seq, tagBody?_three]
        by_cases h : c = '[' ∧ (k = 'R' ∨ k = 'F') ∧ d = ':'
        · rw [if_pos h, if_pos (by simpa using h.1), if_pos h.2.1, if_pos (by simpa using h.2.2)]
          rfl
        · split
          · next hc =>
            split
            · next hk =>
              rw [if_neg]
              exact fun hd => h ⟨by simpa using hc, hk, by simpa using hd⟩
            · rfl
          · rfl

theorem drop_length_takeWhile (p : Char → Bool) (s : Text) : s.drop (s.takeWhile p).length = s.dropWhile p := by
  have h := takeWhile_append_dropWhile (p := p) (l := s)
  generalize s.takeWhile p = a at h
  generalize s.dropWhile p = b at h
  rw [← h, drop_left' rfl]

theorem ends_tagBody (l b : Text) : (seq (plus (one plainTagChar)) (one (· == ']'))).ends (l, b) =
    if !(b.takeWhile plainTagChar).isEmpty && (b.dropWhile plainTagChar).head? == some ']' then
      [(']' :: ((b.takeWhile plainTagChar).reverse ++ l), (b.dropWhile plainTagChar).tail)] else [] := by
  have hclose : ∀ l s, s.head?.any plainTagChar = true → (one (· == ']')).ends (l, s) = [] := by
    intro l s hs
    cases s with
    | nil => rfl
    | cons d s =>
      have hd : plainTagChar d = true := hs
      show (if d == ']' then _ else []) = []
      rw [if_neg]
      intro heq
      rw [beq_iff_eq.1 heq] at hd
      cases hd
  cases hhead : b.head?.any plainTagChar with
  | false =>
    show ((plus (one plainTagChar)).ends (l, b)).flatMap _ = _
    rw [ends_plus_one_of_not hhead]
    have hnil : b.takeWhile plainTagChar = [] := by
      cases b with
      | nil => rfl
      | cons c b => exact takeWhile_cons_of_neg (by simpa using hhead)
    rw [hnil]
    rfl
  | true =>
    cases b with
    | nil => cases hhead
    | cons c b =>
      have hc : plainTagChar c = true := hhead
      rw [ends_plus_one_seq hclose hc]
      have hne : ((c :: b).takeWhile plainTagChar).isEmpty = false := by
        rw [takeWhile_cons_of_pos hc]
        rfl
      rw [hne]
      cases hdrop : (c :: b).dropWhile plainTagChar with
      | nil => rfl
      | cons d rest =>
        show (if d == ']' then _ else []) = _
        by_cases hd : d = ']'
        · subst hd
          simp
        · rw [if_neg (by simpa using hd), if_neg (by simpa using hd)]

theorem ends_tagRe (z : Place) : tagRe.ends z = (tagStep z).toList := by
  obtain ⟨l, s⟩ := z
  rw [ends_tagRe_body]
  unfold tagStep tagLength?
  cases hbody : tagBody? s with
  | none => rfl
  | some b =>
    obtain ⟨k, -, rfl⟩ := tagBody?_eq_some hbody
    dsimp only
    rw [ends_tagBody, drop_length_takeWhile]
    split
    · next hclosed =>
      have hb : b = b.takeWhile plainTagChar ++ ']' :: (b.dropWhile plainTagChar).tail := by
        rw [Bool.and_eq_true, beq_iff_eq] at hclosed
        conv_lhs => rw [← takeWhile_append_dropWhile (p := plainTagChar) (l := b)]
        rw [List.cons_head?_tail hclosed.2]
      generalize b.takeWhile plainTagChar = ids at hb
      generalize (b.dropWhile plainTagChar).tail = rest at hb
      subst hb
      rw [Option.map_some, Option.toList_some]
      have hlen : ids.length + 4 = ('[' :: k :: ':' :: (ids ++ [']'])).length := by simp
      have hs : '[' :: k :: ':' :: (ids ++ ']' :: rest) = ('[' :: k :: ':' :: (ids ++ [']'])) ++ rest := by simp
      rw [hs, hlen, take_left' rfl, drop_left' rfl]
      simp
    · rfl


def skipSpace : Place → Place
  | (l, []) => (l, [])
  | (l, c :: s) => if isSpace c then (c :: l, s) else (l, c :: s)

theorem skipSpace_cons (l : Text) (c : Char) (s : Text) :
    skipSpace (l, c :: s) = if isSpace c then (c :: l, s) else (l, c :: s) := rfl

/-- The place behind `\s?TAG`. -/
def itemStep (z : Place) : Option Place := tagStep (skipSpace z)

theorem ends_tagRe_of_ne {c : Char} (hc : c ≠ '[') (l s : Text) : tagRe.ends (l, c :: s) = [] := by
  unfold tagRe
  rw [ends_one_seq, if_neg (by simpa using hc)]

theorem ends_spacedTagRe (z : Place) : spacedTagRe.ends z = (itemStep z).toList := by
  obtain ⟨l, s⟩ := z
  unfold itemStep
  rw [← ends_tagRe]
  show ((one isSpace).ends (l, s) ++ [(l, s)]).flatMap tagRe.ends = _
  cases s with
  | nil => rfl
  | cons c s =>
    show ((if isSpace c then [(c :: l, s)] else []) ++ [(l, c :: s)]).flatMap tagRe.ends =
      tagRe.ends (if isSpace c then (c :: l, s) else (l, c :: s))
    split
    · next hc =>
      have hne : c ≠ '[' := by
        rintro rfl
        revert hc
        decide
      simp [ends_tagRe_of_ne hne]
    · simp

theorem itemStep_short {z z' : Place} (h : itemStep z = some z') : z'.2.length < z.2.length := by
  have hskip : (skipSpace z).2.length ≤ z.2.length := by
    obtain ⟨l, s⟩ := z
    cases s with
    | nil => exact le_rfl
    | cons c s =>
      rw [skipSpace_cons]
      split
      · exact Nat.le_succ _
      · exact le_rfl
  obtain ⟨n, hn, rfl⟩ := Option.map_eq_some_iff.1 h
  have hpos := tagLength?_pos hn
  have hle := (tagLength?_take hn).1
  rw [length_drop]
  omega

def endsAt (z : Place) : Bool := z.2.isEmpty || z.2.head?.any isSpace

theorem ends_afterEndRe_of_not {z : Place} (h : endsAt z = false) : afterEndRe.ends z = [] := by
  obtain ⟨l, s⟩ := z
  cases s with
  | nil => cases h
  | cons c s =>
    have hc : isSpace c = false := h
    by_contra hne
    obtain ⟨w, s', hs, htake⟩ := ends_ne_nil_iff.1 hne
    rcases takes_alt.1 htake with htake | htake
    · obtain ⟨a, b, rfl, ha, -⟩ := takes_seq.1 htake
      obtain ⟨hne', hall⟩ := takes_plus_one.1 ha
      cases a with
      | nil => exact hne' rfl
      | cons d a =>
        obtain ⟨rfl, -⟩ := List.cons.inj hs
        rw [hall c (mem_cons_self ..)] at hc
        cases hc
    · obtain ⟨a, b, rfl, ha, hb⟩ := takes_seq.1 htake
      obtain ⟨rfl, hend⟩ := takes_last.1 hb
      have hmem : c ∈ a ++ s' := by
        rw [append_nil] at hs
        rw [← hs]
        exact mem_cons_self ..
      have hspace : isSpace c = true := by
        rcases List.mem_append.1 hmem with hmem | hmem
        · exact takes_star_one.1 ha c hmem
        · rcases hend with rfl | rfl
          · cases hmem
          · rw [List.mem_singleton.1 hmem]
            decide
      rw [hspace] at hc
      cases hc

theorem ends_afterEndRe_ne_nil {z : Place} (hline : '\n' ∉ z.2) : afterEndRe.ends z ≠ [] ↔ endsAt z = true := by
  constructor
  · intro h
    by_contra hnot
    exact h (ends_afterEndRe_of_not (by simpa using hnot))
  · intro h
    obtain ⟨l, s⟩ := z
    refine ends_ne_nil_iff.2 ?_
    have hparts := takeWhile_append_dropWhile (p := isSpace) (l := s)
    have hall : ∀ c ∈ s.takeWhile isSpace, isSpace c = true := fun c hc => mem_takeWhile_imp hc
    cases hrest : s.dropWhile isSpace with
    | nil =>
      rw [hrest, append_nil] at hparts
      rw [hparts] at hall
      refine ⟨s, [], (append_nil s).symm, takes_alt.2 (Or.inr ?_)⟩
      exact takes_seq.2 ⟨s, [], (append_nil s).symm, takes_star_one.2 hall, takes_last.2 ⟨rfl, Or.inl rfl⟩⟩
    | cons c rest =>
      have hc : isSpace c = false := head?_dropWhile_class (by rw [hrest]; rfl)
      rw [hrest] at hparts
      have hne : s.takeWhile isSpace ≠ [] := by
        intro hnil
        rw [hnil, nil_append] at hparts
        rw [← hparts] at h
        have : isSpace c = true := h
        rw [hc] at this
        cases this
      refine ⟨s.takeWhile isSpace ++ [c], rest, ?_, takes_alt.2 (Or.inl ?_)⟩
      · rw [append_assoc]
        exact hparts.symm
      · refine takes_seq.2 ⟨s.takeWhile isSpace, [c], rfl, takes_plus_one.2 ⟨hne, hall⟩, takes_one.2 ⟨c, rfl, ?_⟩⟩
        rw [hc]
        rfl

def tagsRe : Regex := seq (star spacedTagRe) (ahead afterEndRe)

theorem ends_tagsRe {z : Place} (hline : '\n' ∉ z.2) :
    tagsRe.ends z = (places itemStep z.2.length z).reverse.filter endsAt := by
  unfold tagsRe
  rw [ends_seq_ahead]
  have hplaces := ends_star_toList ends_spacedTagRe (fun _ _ => itemStep_short) z
  rw [← hplaces]
  refine filter_congr fun y hy => ?_
  obtain ⟨w, hw, -⟩ := behind_of_mem_ends _ _ y hy
  have hline' : '\n' ∉ y.2 := fun hmem => hline (by rw [hw]; exact mem_append_right _ hmem)
  rw [Bool.eq_iff_iff, decide_eq_true_iff]
  exact ends_afterEndRe_ne_nil hline'

theorem ends_tagsRe_blocked {c : Char} (hspace : isSpace c = false) (hc : c ≠ '[') (l s : Text) :
    tagsRe.ends (l, c :: s) = [] := by
  unfold tagsRe
  rw [ends_seq_ahead]
  have hnone : itemStep (l, c :: s) = none := by
    unfold itemStep
    rw [← Option.toList_eq_nil_iff, skipSpace_cons, if_neg (by simpa using hspace), ← ends_tagRe, ends_tagRe_of_ne hc]
  rw [ends_star_toList ends_spacedTagRe fun _ _ => itemStep_short]
  have hplaces : places itemStep (c :: s).length (l, c :: s) = [(l, c :: s)] := by
    rw [length_cons, Regex.places]
    simp only [hnone]
  rw [hplaces, reverse_singleton, filter_cons_of_neg, filter_nil]
  rw [ends_afterEndRe_of_not (by simpa [endsAt] using hspace)]
  simp

def closingRe : Regex := seq (star (one closer)) tagsRe

theorem closer_blocks {c : Char} (h : closer c = true) : isSpace c = false ∧ c ≠ '[' := by
  unfold closer at h
  simp only [Bool.or_eq_true, beq_iff_eq] at h
  rcases h with ((((rfl | rfl) | rfl) | rfl) | rfl) | rfl <;> decide

theorem endMark_blocks {c : Char} (h : endMark c = true) : isSpace c = false ∧ c ≠ '[' ∧ closer c = false := by
  unfold endMark at h
  simp only [Bool.or_eq_true, beq_iff_eq] at h
  rcases h with ((rfl | rfl) | rfl) | rfl <;> decide

theorem ends_closingRe (l s : Text) :
    closingRe.ends (l, s) = tagsRe.ends ((s.takeWhile closer).reverse ++ l, s.dropWhile closer) := by
  refine ends_star_one_seq (fun l s hs => ?_) l s
  cases s with
  | nil => cases hs
  | cons c s => exact ends_tagsRe_blocked (closer_blocks hs).1 (closer_blocks hs).2 l s

theorem ends_sentenceEndRe {l a b : Text} (ha : a ≠ []) (hall : ∀ c ∈ a, endMark c = true)
    (hb : b.head?.any endMark = false) : sentenceEndRe.ends (l, a ++ b) = closingRe.ends (a.reverse ++ l, b) := by
  have hrun := run_parts hall hb
  cases a with
  | nil => exact absurd rfl ha
  | cons c a =>
    have hc := hall c (mem_cons_self ..)
    show (seq (plus (one endMark)) closingRe).ends (l, c :: (a ++ b)) = _
    rw [ends_plus_one_seq (fun l s hs => ?_) hc]
    · rw [← cons_append, hrun.1, hrun.2]
    · cases s with
      | nil => cases hs
      | cons d s =>
        obtain ⟨hspace, hne, hcloser⟩ := endMark_blocks (c := d) hs
        have hd : ¬closer d = true := by rw [hcloser]; exact Bool.false_ne_true
        rw [ends_closingRe, takeWhile_cons_of_neg hd, dropWhile_cons_of_neg hd]
        exact ends_tagsRe_blocked hspace hne l s

/-- The place before position `k`. -/
def placeAt (s : Text) (k : Nat) : Place := ((s.take k).reverse, s.drop k)

theorem placeAt_length {s : Text} {k : Nat} (h : k ≤ s.length) : (placeAt s k).1.length = k := by
  show (s.take k).reverse.length = k
  rw [length_reverse, length_take_of_le h]

theorem tagStep_placeAt (s : Text) (k : Nat) :
    tagStep (placeAt s k) = (tagLength? (s.drop k)).map fun n => placeAt s (k + n) := by
  unfold tagStep placeAt
  refine congrArg (Option.map · (tagLength? (s.drop k))) (funext fun n => ?_)
  rw [take_add, reverse_append, drop_drop]

theorem skipSpace_placeAt (s : Text) (k : Nat) :
    skipSpace (placeAt s k) = placeAt s (if s[k]?.any isSpace then k + 1 else k) := by
  unfold placeAt
  cases hk : s[k]? with
  | none =>
    show _ = ((s.take k).reverse, s.drop k)
    rw [drop_eq_nil_of_le (List.getElem?_eq_none_iff.1 hk)]
    rfl
  | some c =>
    rw [List.drop_eq_getElem?_toList_append, hk, Option.any_some]
    show skipSpace ((s.take k).reverse, c :: s.drop (k + 1)) = _
    rw [skipSpace_cons]
    split
    · rw [take_add_one, hk, reverse_append]
      rfl
    · rw [@List.drop_eq_getElem?_toList_append _ s k, hk]
      rfl

theorem places_placeAt (s : Text) (fuel k : Nat) :
    places itemStep fuel (placeAt s k) = (tagEnds s fuel k).map (placeAt s) := by
  induction fuel generalizing k with
  | zero => rfl
  | succ fuel ih =>
    unfold Regex.places tagEnds itemStep
    rw [skipSpace_placeAt, tagStep_placeAt]
    dsimp only
    generalize (if s[k]?.any isSpace then k + 1 else k) = at'
    cases tagLength? (s.drop at') with
    | none => rfl
    | some n => exact congrArg (placeAt s k :: ·) (ih (at' + n))

theorem endsAt_placeAt {s : Text} {k : Nat} (h : k ≤ s.length) : endsAt (placeAt s k) = endsHere s k := by
  have hempty : (s.drop k).isEmpty = (k == s.length) := by
    rw [Bool.eq_iff_iff, List.isEmpty_iff, drop_eq_nil_iff, beq_iff_eq]
    omega
  unfold endsAt endsHere placeAt
  rw [List.head?_drop, hempty]

theorem placeAt_runEnd (p : Char → Bool) (s : Text) (j : Nat) :
    placeAt s (runEnd p s j) = (((s.drop j).takeWhile p).reverse ++ (s.take j).reverse, (s.drop j).dropWhile p) := by
  unfold placeAt
  rw [take_runEnd, reverse_append]
  unfold runEnd
  rw [← drop_drop, drop_length_takeWhile]

theorem head?_ends_tagsRe {s : Text} (hline : '\n' ∉ s) {k : Nat} (hk : k ≤ s.length) :
    (tagsRe.ends (placeAt s k)).head? = ((tagEnds s s.length k).reverse.find? (endsHere s)).map (placeAt s) := by
  have hline' : '\n' ∉ (placeAt s k).2 := fun hmem => hline (mem_of_mem_drop hmem)
  have hlen : (placeAt s k).2.length ≤ s.length := by
    show (s.drop k).length ≤ s.length
    rw [length_drop]
    omega
  rw [ends_tagsRe hline', ← places_of_le (fun _ _ => itemStep_short) hlen, places_placeAt, ← map_reverse,
    filter_map, List.head?_map, ← List.head?_filter]
  refine congrArg (fun l => (List.head? l).map (placeAt s)) (filter_congr fun e he => ?_)
  exact endsAt_placeAt (tagEnds_run s s.length hk (List.mem_reverse.1 he)).2.1

theorem drop_eq_cons {s : Text} {i : Nat} {c : Char} (hi : s[i]? = some c) : s.drop i = c :: s.drop (i + 1) := by
  rw [List.drop_eq_getElem?_toList_append, hi]
  rfl

theorem runEnd_succ {p : Char → Bool} {s : Text} {i : Nat} {c : Char} (hi : s[i]? = some c) (hc : p c = true) :
    runEnd p s (i + 1) = runEnd p s i := by
  unfold runEnd
  rw [drop_eq_cons hi, takeWhile_cons_of_pos hc, length_cons]
  omega

theorem mark_run {s : Text} {i : Nat} {c : Char} (hi : s[i]? = some c) (hc : endMark c = true) :
    ∃ a b, s.drop i = a ++ b ∧ a ≠ [] ∧ (∀ c ∈ a, endMark c = true) ∧ b.head?.any endMark = false ∧
      placeAt s (runEnd endMark s (i + 1)) = (a.reverse ++ (s.take i).reverse, b) := by
  refine ⟨(s.drop i).takeWhile endMark, (s.drop i).dropWhile endMark, List.takeWhile_append_dropWhile.symm, ?_,
    fun c hc => mem_takeWhile_imp hc, ?_, ?_⟩
  · rw [drop_eq_cons hi, takeWhile_cons_of_pos hc]
    exact cons_ne_nil _ _
  · cases h : ((s.drop i).dropWhile endMark).head? with
    | none => rfl
    | some d => exact head?_dropWhile_class h
  · rw [runEnd_succ hi hc, placeAt_runEnd]

theorem ends_closingRe_placeAt (s : Text) (j : Nat) :
    closingRe.ends (placeAt s j) = tagsRe.ends (placeAt s (runEnd closer s j)) := by
  rw [placeAt_runEnd]
  exact ends_closingRe _ _

theorem ends_placeAt_mark {s : Text} {i : Nat} {c : Char} (hi : s[i]? = some c) (hc : endMark c = true) :
    sentenceEndRe.ends (placeAt s i) = tagsRe.ends (placeAt s (runEnd closer s (runEnd endMark s (i + 1)))) := by
  obtain ⟨a, b, hdrop, hne, hall, hb, hplace⟩ := mark_run hi hc
  rw [← ends_closingRe_placeAt, hplace]
  show sentenceEndRe.ends ((s.take i).reverse, s.drop i) = _
  rw [hdrop]
  exact ends_sentenceEndRe hne hall hb

theorem search_placeAt_mark {s : Text} {i : Nat} {c : Char} (hi : s[i]? = some c) (hc : endMark c = true)
    (hnone : sentenceEndRe.ends (placeAt s i) = []) :
    search sentenceEndRe (placeAt s i).1 (placeAt s i).2 =
      search sentenceEndRe (placeAt s (runEnd endMark s (i + 1))).1 (placeAt s (runEnd endMark s (i + 1))).2 := by
  obtain ⟨a, b, hdrop, hne, hall, hb, hplace⟩ := mark_run hi hc
  have hnone' : closingRe.ends (a.reverse ++ (s.take i).reverse, b) = [] := by
    rw [← hplace, ends_closingRe_placeAt, ← ends_placeAt_mark hi hc, hnone]
  rw [hplace]
  show search sentenceEndRe (s.take i).reverse (s.drop i) = _
  rw [hdrop]
  refine search_append fun a' b' heq hlt => ?_
  obtain ⟨a'', hne', rfl, rfl⟩ := suffix_split heq hlt
  rw [ends_sentenceEndRe hne' (fun c hc => hall c (mem_append_right _ hc)) hb]
  rw [reverse_append, append_assoc] at hnone'
  exact hnone'

theorem search_placeAt_other {s : Text} {i : Nat} {c : Char} (hi : s[i]? = some c) (hc : endMark c = false) :
    search sentenceEndRe (placeAt s i).1 (placeAt s i).2 =
      search sentenceEndRe (placeAt s (i + 1)).1 (placeAt s (i + 1)).2 := by
  have htake : (s.take (i + 1)).reverse = c :: (s.take i).reverse := by
    rw [take_add_one, hi, reverse_append]
    rfl
  show search sentenceEndRe (s.take i).reverse (s.drop i) = search sentenceEndRe (s.take (i + 1)).reverse (s.drop (i + 1))
  rw [drop_eq_cons hi, htake]
  refine search_cons_of_nil ?_
  show ((plus (one endMark)).ends ((s.take i).reverse, c :: s.drop (i + 1))).flatMap _ = []
  rw [@ends_plus_one_of_not endMark _ (c :: s.drop (i + 1)) hc]
  rfl

theorem finditer_done {s : Text} {i : Nat} (h : s.length ≤ i) (n : Nat) :
    finditer sentenceEndRe n (placeAt s i).1 (placeAt s i).2 = [] := by
  show finditer sentenceEndRe n _ (s.drop i) = []
  rw [drop_eq_nil_of_le h]
  cases n with
  | zero => rfl
  | succ n => rfl

theorem endMatches_eq {s : Text} (hline : '\n' ∉ s) (fuel : Nat) {i n : Nat} (hi : i ≤ s.length)
    (hfuel : s.length - i ≤ fuel) (hn : s.length - i < n) :
    endMatches s fuel i = finditer sentenceEndRe n (placeAt s i).1 (placeAt s i).2 := by
  induction fuel generalizing i n with
  | zero => exact (finditer_done (by omega) n).symm
  | succ fuel ih =>
    unfold endMatches
    cases hc : s[i]? with
    | none => exact (finditer_done (List.getElem?_eq_none_iff.1 hc) n).symm
    | some c =>
      have hlt := (List.getElem?_eq_some_iff.1 hc).1
      dsimp only
      by_cases hmark : endMark c = true
      · rw [if_pos hmark]
        have hj : runEnd endMark s (i + 1) ≤ s.length := runEnd_le endMark s hlt
        have hle := le_runEnd endMark s (i + 1)
        have hle' := le_runEnd closer s (runEnd endMark s (i + 1))
        have hhead := head?_ends_tagsRe hline (runEnd_le closer s hj)
        rw [← ends_placeAt_mark hc hmark] at hhead
        cases hfind : (tagEnds s s.length (runEnd closer s (runEnd endMark s (i + 1)))).reverse.find? (endsHere s) with
        | none =>
          rw [hfind] at hhead
          rw [finditer_congr (search_placeAt_mark hc hmark (List.head?_eq_none_iff.1 hhead))]
          exact ih hj (by omega) (by omega)
        | some e =>
          rw [hfind, Option.map_some] at hhead
          dsimp only
          obtain ⟨hge, hend, -⟩ := tagEnds_run s s.length (runEnd_le closer s hj)
            (List.mem_reverse.1 (List.mem_of_find?_eq_some hfind))
          obtain ⟨m, rfl⟩ : ∃ m, n = m + 1 := ⟨n - 1, by omega⟩
          have hshort : (placeAt s e).2.length < (placeAt s i).2.length := by
            show (s.drop e).length < (s.drop i).length
            rw [length_drop, length_drop]
            omega
          rw [finditer_of_head? hhead hshort, placeAt_length hi, placeAt_length hend,
            @ih e m hend (by omega) (by omega)]
      · rw [if_neg hmark, finditer_congr (search_placeAt_other hc (by simpa using hmark))]
        exact ih hlt (by omega) (by omega)

end CisApp.Hygiene
