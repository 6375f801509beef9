import CisApp.Hygiene.Hashtags
import CisApp.Hygiene.Trailing

/-! Other scans that stand for a pattern.

`_last_word`, `_is_link_token` and `_is_hashtag_line` of `text_integrity.py` and `_sentence_initial` of `repair_contract.py`,
each against the pattern that it names. -/

namespace CisApp.Hygiene

open CisApp.Lib CisApp.Repair Regex List

/-! ## Lines of hashtags -/

/-- The loop of `_is_hashtag_line`, on what is left of the line. -/
def hashtagScan : Nat → Text → Bool
  | 0, s => s.isEmpty
  | _ + 1, [] => true
  | fuel + 1, '#' :: c :: rest =>
    let gap := rest.dropWhile Char.isAlphanum
    c.isAlpha && gap.length < rest.length && hashtagScan fuel (gap.dropWhile tagGap)
  | _ + 1, _ => false

/-- `_is_hashtag_line` of `text_integrity.py`. -/
def isHashtagLineScan (line : Text) : Bool := !line.isEmpty && hashtagScan line.length line

theorem hashtagScan_eq (n : Nat) (s : Text) : hashtagScan n s = (s.isEmpty || hashtagsFrom n s) := by
  induction n generalizing s with
  | zero => exact (Bool.or_false _).symm
  | succ n ih =>
    by_cases hs : ∃ c rest, s = '#' :: c :: rest
    · obtain ⟨c, rest, rfl⟩ := hs
      show (c.isAlpha && decide _ && hashtagScan n _) = (false || hashtagsFrom (n + 1) ('#' :: c :: rest))
      rw [hashtagsFrom_hash, ih, Bool.false_or]
    · have hno : ∀ c rest, s ≠ '#' :: c :: rest := fun c rest heq => hs ⟨c, rest, heq⟩
      rw [hashtagsFrom_other hno, Bool.or_false]
      cases s with
      | nil => rfl
      | cons d s =>
        unfold hashtagScan
        split
        · next heq => cases heq
        · next heq => cases heq
        · next c rest _ heq => exact absurd heq (hno c rest)
        · rfl

theorem is_hashtag_line_eq (line : Text) : isHashtagLineScan line = fullmatch hashtagLineRe line := by
  have hscan : isHashtagLineScan line = isHashtagLine line := by
    unfold isHashtagLineScan isHashtagLine
    rw [hashtagScan_eq]
    cases line with
    | nil => rfl
    | cons c line => rfl
  rw [hscan, Bool.eq_iff_iff, isHashtagLine_iff, fullmatch_iff, takes_hashtagLineRe]

/-! ## The start of a sentence -/

/-- Where `text[:idx]` ends. -/
def sliceEnd (n : Nat) (idx : Int) : Nat := if 0 ≤ idx then min idx.toNat n else (n + idx).toNat

def trailingSpace (s : Text) : Text := s.drop (rstrip s).length

/-- `[.!?:;]`. -/
def openMark (c : Char) : Bool := c == '.' || c == '!' || c == '?' || c == ':' || c == ';'

/-- `[-*•]`. -/
def bulletMark (c : Char) : Bool := c == '-' || c == '*' || c == '•'

/-- `_sentence_initial`, on `text[:idx]`: nothing after it is read. -/
def opensSentence (before : Text) : Bool :=
  if before.isEmpty then true
  else
    let head := rstrip before
    if '\n' ∈ trailingSpace before then true
    else
      match head.getLast? with
      | none => false
      | some prev =>
        if openMark prev && head.length < before.length || prev == '#' || prev == '"' || prev == '“' ||
          head.drop (head.length - 2) == ['*', '*'] then true
        else if bulletMark prev then '\n' ∈ trailingSpace head.dropLast
        else false

/-- `_sentence_initial`. -/
def sentenceInitial (text : Text) (idx : Int) : Bool := opensSentence (text.take (sliceEnd text.length idx))

/-- `(?:^|[.!?:;]\s+|\n\s*(?:[-*•]\s*)?|\*\*\s*|#+\s*|"\s*|“\s*)$`. -/
def sentenceInitialRe : Regex :=
  let space := star (one isSpace)
  seq (alt first (alt (seq (one openMark) (plus (one isSpace)))
    (alt (seq (one (· == '\n')) (seq space (opt (seq (one bulletMark) space))))
      (alt (seq (one (· == '*')) (seq (one (· == '*')) space)) (alt (seq (plus (one (· == '#'))) space)
        (alt (seq (one (· == '"')) space) (seq (one (· == '“')) space))))))) last

/-- What the pattern matches before its `$`, behind `l`. -/
inductive Opens (l : Text) : Text → Prop
  | start (h : l = []) : Opens l []
  | mark {c : Char} {sp : Text} (hc : openMark c = true) (hne : sp ≠ []) (hsp : ∀ d ∈ sp, isSpace d = true) : Opens l (c :: sp)
  | newline {sp : Text} (hsp : ∀ d ∈ sp, isSpace d = true) : Opens l ('\n' :: sp)
  | bullet {c : Char} {sp sp' : Text} (hsp : ∀ d ∈ sp, isSpace d = true) (hc : bulletMark c = true)
      (hsp' : ∀ d ∈ sp', isSpace d = true) : Opens l ('\n' :: (sp ++ c :: sp'))
  | bold {sp : Text} (hsp : ∀ d ∈ sp, isSpace d = true) : Opens l ('*' :: '*' :: sp)
  | hash {k sp : Text} (hne : k ≠ []) (hk : ∀ d ∈ k, d = '#') (hsp : ∀ d ∈ sp, isSpace d = true) : Opens l (k ++ sp)
  | quote {c : Char} {sp : Text} (hc : c = '"' ∨ c = '“') (hsp : ∀ d ∈ sp, isSpace d = true) : Opens l (c :: sp)

theorem takes_one_eq {l w s : Text} {c : Char} : Takes (one (· == c)) l w s ↔ w = [c] := by
  rw [takes_one]
  constructor
  · rintro ⟨d, rfl, hd⟩
    rw [beq_iff_eq.1 hd]
  · rintro rfl
    exact ⟨c, rfl, beq_self_eq_true c⟩

theorem takes_sentenceInitialRe {l w s : Text} : Takes sentenceInitialRe l w s ↔ Opens l w ∧ (s = [] ∨ s = ['\n']) := by
  unfold sentenceInitialRe
  rw [takes_seq]
  constructor
  · rintro ⟨a, b, rfl, ha, hb⟩
    obtain ⟨rfl, hs⟩ := takes_last.1 hb
    rw [append_nil]
    refine ⟨?_, hs⟩
    rcases takes_alt.1 ha with ha | ha
    · obtain ⟨rfl, hl⟩ := takes_first.1 ha
      exact Opens.start hl
    rcases takes_alt.1 ha with ha | ha
    · obtain ⟨x, y, rfl, hx, hy⟩ := takes_seq.1 ha
      obtain ⟨c, rfl, hc⟩ := takes_one.1 hx
      obtain ⟨hne, hsp⟩ := takes_plus_one.1 hy
      exact Opens.mark hc hne hsp
    rcases takes_alt.1 ha with ha | ha
    · obtain ⟨x, y, rfl, hx, hy⟩ := takes_seq.1 ha
      obtain rfl := takes_one_eq.1 hx
      obtain ⟨sp, y, rfl, hsp, hy⟩ := takes_seq.1 hy
      rcases takes_opt.1 hy with hy | rfl
      · obtain ⟨x, sp', rfl, hx, hsp'⟩ := takes_seq.1 hy
        obtain ⟨c, rfl, hc⟩ := takes_one.1 hx
        exact Opens.bullet (takes_star_one.1 hsp) hc (takes_star_one.1 hsp')
      · rw [append_nil]
        exact Opens.newline (takes_star_one.1 hsp)
    rcases takes_alt.1 ha with ha | ha
    · obtain ⟨x, y, rfl, hx, hy⟩ := takes_seq.1 ha
      obtain ⟨x', sp, rfl, hx', hsp⟩ := takes_seq.1 hy
      obtain rfl := takes_one_eq.1 hx
      obtain rfl := takes_one_eq.1 hx'
      exact Opens.bold (takes_star_one.1 hsp)
    rcases takes_alt.1 ha with ha | ha
    · obtain ⟨k, sp, rfl, hk, hsp⟩ := takes_seq.1 ha
      obtain ⟨hne, hk⟩ := takes_plus_one.1 hk
      exact Opens.hash hne (fun d hd => beq_iff_eq.1 (hk d hd)) (takes_star_one.1 hsp)
    rcases takes_alt.1 ha with ha | ha
    · obtain ⟨x, sp, rfl, hx, hsp⟩ := takes_seq.1 ha
      obtain rfl := takes_one_eq.1 hx
      exact Opens.quote (Or.inl rfl) (takes_star_one.1 hsp)
    · obtain ⟨x, sp, rfl, hx, hsp⟩ := takes_seq.1 ha
      obtain rfl := takes_one_eq.1 hx
      exact Opens.quote (Or.inr rfl) (takes_star_one.1 hsp)
  · rintro ⟨hw, hs⟩
    refine ⟨w, [], (append_nil w).symm, ?_, takes_last.2 ⟨rfl, hs⟩⟩
    simp only [takes_alt]
    cases hw with
    | start h => exact Or.inl (takes_first.2 ⟨rfl, h⟩)
    | @mark c sp hc hne hsp =>
      right; left
      exact takes_seq.2 ⟨[c], sp, rfl, takes_one.2 ⟨c, rfl, hc⟩, takes_plus_one.2 ⟨hne, hsp⟩⟩
    | @newline sp hsp =>
      right; right; left
      refine takes_seq.2 ⟨['\n'], sp, rfl, takes_one_eq.2 rfl, takes_seq.2 ⟨sp, [], (append_nil _).symm, ?_, ?_⟩⟩
      · exact takes_star_one.2 hsp
      · exact takes_opt.2 (Or.inr rfl)
    | @bullet c sp sp' hsp hc hsp' =>
      right; right; left
      refine takes_seq.2 ⟨['\n'], sp ++ c :: sp', rfl, takes_one_eq.2 rfl, takes_seq.2 ⟨sp, c :: sp', rfl, ?_, ?_⟩⟩
      · exact takes_star_one.2 hsp
      · exact takes_opt.2 (Or.inl (takes_seq.2 ⟨[c], sp', rfl, takes_one.2 ⟨c, rfl, hc⟩, takes_star_one.2 hsp'⟩))
    | @bold sp hsp =>
      right; right; right; left
      refine takes_seq.2 ⟨['*'], '*' :: sp, rfl, takes_one_eq.2 rfl, takes_seq.2 ⟨['*'], sp, rfl, takes_one_eq.2 rfl, ?_⟩⟩
      exact takes_star_one.2 hsp
    | @hash k sp hne hk hsp =>
      right; right; right; right; left
      exact takes_seq.2 ⟨k, sp, rfl, takes_plus_one.2 ⟨hne, fun d hd => beq_iff_eq.2 (hk d hd)⟩, takes_star_one.2 hsp⟩
    | @quote c sp hc hsp =>
      right; right; right; right; right
      rcases hc with rfl | rfl
      · exact Or.inl (takes_seq.2 ⟨['"'], sp, rfl, takes_one_eq.2 rfl, takes_star_one.2 hsp⟩)
      · exact Or.inr (takes_seq.2 ⟨['“'], sp, rfl, takes_one_eq.2 rfl, takes_star_one.2 hsp⟩)

theorem rstrip_append_trailing (s : Text) : rstrip s ++ trailingSpace s = s ∧ ∀ c ∈ trailingSpace s, isSpace c = true := by
  obtain ⟨w, hw, hall⟩ := rstripOf_spec isSpace s
  have htrail : trailingSpace s = w := by
    have := congrArg (List.drop (rstrip s).length) hw
    exact this.trans (drop_left' rfl)
  rw [htrail]
  exact ⟨hw.symm, hall⟩

theorem mem_trailingSpace {c : Char} (hc : isSpace c = true) {s : Text} :
    c ∈ trailingSpace s ↔ ∃ u v, s = u ++ c :: v ∧ ∀ d ∈ v, isSpace d = true := by
  obtain ⟨hsplit, hall⟩ := rstrip_append_trailing s
  constructor
  · intro hmem
    obtain ⟨u, v, huv⟩ := append_of_mem hmem
    refine ⟨rstrip s ++ u, v, ?_, fun d hd => hall d ?_⟩
    · rw [append_assoc, ← huv, hsplit]
    · rw [huv]
      exact mem_append_right _ (mem_cons_of_mem _ hd)
  · rintro ⟨u, v, rfl, hv⟩
    have hrstrip : rstrip (u ++ c :: v) = rstrip u :=
      rstripOf_append (fun d hd => (List.mem_cons.1 hd).elim (fun h => h ▸ hc) (hv d)) u
    obtain ⟨husplit, -⟩ := rstrip_append_trailing u
    have hle : (rstrip u).length ≤ u.length := by
      have := congrArg List.length husplit
      rw [length_append] at this
      omega
    unfold trailingSpace
    rw [hrstrip, drop_append_of_le_length hle]
    exact mem_append_right _ (mem_cons_self ..)

theorem rstrip_mark {c : Char} (hc : isSpace c = false) {sp : Text} (hsp : ∀ d ∈ sp, isSpace d = true) (y : Text) :
    rstrip (y ++ c :: sp) = y ++ [c] ∧ trailingSpace (y ++ c :: sp) = sp := by
  have hrstrip : rstrip (y ++ c :: sp) = y ++ [c] := by
    unfold rstrip
    rw [append_cons, rstripOf_append hsp, rstripOf_trim]
    intro d hd
    rw [List.getLast?_concat, Option.some.injEq] at hd
    rw [← hd, hc]
  refine ⟨hrstrip, ?_⟩
  unfold trailingSpace
  rw [hrstrip, append_cons y c sp, drop_left' rfl]

theorem opensSentence_mark {c : Char} (hc : isSpace c = false) {sp : Text} (hsp : ∀ d ∈ sp, isSpace d = true) (y : Text) :
    opensSentence (y ++ c :: sp) = true ↔ '\n' ∈ sp ∨ openMark c = true ∧ sp ≠ [] ∨ c = '#' ∨ c = '"' ∨ c = '“' ∨
      c = '*' ∧ y.getLast? = some '*' ∨ bulletMark c = true ∧ '\n' ∈ trailingSpace y := by
  obtain ⟨hhead, hspace⟩ := rstrip_mark hc hsp y
  have hlen : decide ((y ++ [c]).length < (y ++ c :: sp).length) = !sp.isEmpty := by
    cases sp <;> simp
  have hbold : (y ++ [c]).drop ((y ++ [c]).length - 2) = ['*', '*'] ↔ c = '*' ∧ y.getLast? = some '*' := by
    rcases eq_nil_or_concat y with rfl | ⟨x, d, rfl⟩
    · simp
    · simp [and_comm]
  unfold opensSentence
  rw [if_neg (by simp)]
  dsimp only
  rw [hhead, hspace, List.getLast?_concat, dropLast_concat, hlen]
  by_cases hnew : '\n' ∈ sp
  · simp [hnew]
  · rw [if_neg hnew]
    simp only [hnew, false_or]
    have hne : (!sp.isEmpty) = true ↔ sp ≠ [] := by simp
    have hif : ∀ A B N : Bool, (if A = true then true else if B = true then N else false) = true ↔
        A = true ∨ B = true ∧ N = true := by decide
    rw [hif]
    simp only [Bool.or_eq_true, Bool.and_eq_true, beq_iff_eq, hbold, hne, decide_eq_true_eq, or_assoc]

theorem opensSentence_newline {b : Text} (h : '\n' ∈ trailingSpace b) : opensSentence b = true := by
  unfold opensSentence
  rw [if_pos h, ite_self]

theorem openMark_not_space {c : Char} (h : openMark c = true) : isSpace c = false := by
  unfold openMark at h
  simp only [Bool.or_eq_true, beq_iff_eq] at h
  rcases h with (((rfl | rfl) | rfl) | rfl) | rfl <;> decide

theorem bulletMark_not_space {c : Char} (h : bulletMark c = true) : isSpace c = false := by
  unfold bulletMark at h
  simp only [Bool.or_eq_true, beq_iff_eq] at h
  rcases h with (rfl | rfl) | rfl <;> decide

theorem opensSentence_of_opens {a w : Text} (h : Opens a.reverse w) : opensSentence (a ++ w) = true := by
  cases h with
  | start h =>
    rw [List.reverse_eq_nil_iff.1 h]
    rfl
  | @mark c sp hc hne hsp =>
    exact (opensSentence_mark (openMark_not_space hc) hsp a).2 (Or.inr (Or.inl ⟨hc, hne⟩))
  | @newline sp hsp =>
    exact opensSentence_newline ((mem_trailingSpace (by decide)).2 ⟨a, sp, rfl, hsp⟩)
  | @bullet c sp sp' hsp hc hsp' =>
    have hbefore : '\n' ∈ trailingSpace (a ++ '\n' :: sp) := (mem_trailingSpace (by decide)).2 ⟨a, sp, rfl, hsp⟩
    have := (opensSentence_mark (bulletMark_not_space hc) hsp' (a ++ '\n' :: sp)).2 (by tauto)
    rw [append_assoc] at this
    exact this
  | @bold sp hsp =>
    have := (opensSentence_mark (c := '*') (by decide) hsp (a ++ ['*'])).2 (by simp)
    rw [append_assoc] at this
    exact this
  | @hash k sp hne hk hsp =>
    obtain ⟨k, c, rfl⟩ : ∃ x c, k = x ++ [c] := ⟨_, _, (dropLast_append_getLast hne).symm⟩
    obtain rfl := hk c (mem_append_right _ (mem_singleton_self _))
    have := (opensSentence_mark (c := '#') (by decide) hsp (a ++ k)).2 (by simp)
    rw [append_assoc k, ← append_assoc a]
    exact this
  | @quote c sp hc hsp =>
    have hspace : isSpace c = false := by
      rcases hc with rfl | rfl <;> decide
    exact (opensSentence_mark hspace hsp a).2 (by tauto)

theorem opens_of_opensSentence {b : Text} (h : opensSentence b = true) : ∃ a w, b = a ++ w ∧ Opens a.reverse w := by
  by_cases hnew : '\n' ∈ trailingSpace b
  · obtain ⟨u, v, rfl, hv⟩ := (mem_trailingSpace (by decide)).1 hnew
    exact ⟨u, '\n' :: v, rfl, Opens.newline hv⟩
  obtain ⟨hsplit, hsp⟩ := rstrip_append_trailing b
  rcases eq_nil_or_concat (rstrip b) with hnil | ⟨y, c, hy⟩
  · -- nothing but space
    by_cases hb : b = []
    · exact ⟨[], [], hb, Opens.start rfl⟩
    · unfold opensSentence at h
      rw [if_neg (by simpa using hb), if_neg hnew, hnil] at h
      cases h
  · rw [concat_eq_append] at hy
    have hc : isSpace c = false := by
      refine head?_dropWhile_class (s := b.reverse) ?_
      rw [← List.getLast?_reverse]
      show (rstrip b).getLast? = some c
      rw [hy, List.getLast?_concat]
    have hb : b = y ++ c :: trailingSpace b := by
      rw [append_cons, ← hy, hsplit]
    rw [hb] at h
    rcases (opensSentence_mark hc hsp y).1 h with h | ⟨hmark, hne⟩ | rfl | rfl | rfl | ⟨rfl, hstar⟩ | ⟨hbullet, hbefore⟩
    · exact absurd h hnew
    · exact ⟨y, c :: trailingSpace b, hb, Opens.mark hmark hne hsp⟩
    · exact ⟨y, ['#'] ++ trailingSpace b, hb, Opens.hash (by simp) (by simp) hsp⟩
    · exact ⟨y, _, hb, Opens.quote (Or.inl rfl) hsp⟩
    · exact ⟨y, _, hb, Opens.quote (Or.inr rfl) hsp⟩
    · obtain ⟨x, rfl⟩ := List.getLast?_eq_some_iff.1 hstar
      refine ⟨x, '*' :: '*' :: trailingSpace b, ?_, Opens.bold hsp⟩
      rw [append_assoc] at hb
      exact hb
    · obtain ⟨u, v, rfl, hv⟩ := (mem_trailingSpace (by decide)).1 hbefore
      refine ⟨u, '\n' :: (v ++ c :: trailingSpace b), ?_, Opens.bullet hv hbullet hsp⟩
      rw [append_assoc] at hb
      exact hb

theorem sentence_initial_eq (text : Text) (idx : Int) : sentenceInitial text idx =
    (search sentenceInitialRe [] (text.take (sliceEnd text.length idx))).isSome := by
  unfold sentenceInitial
  generalize text.take (sliceEnd text.length idx) = b
  rw [Bool.eq_iff_iff, search_isSome_iff]
  constructor
  · intro h
    obtain ⟨a, w, rfl, hopens⟩ := opens_of_opensSentence h
    exact ⟨a, w, [], (append_nil _).symm, takes_sentenceInitialRe.2 ⟨hopens, Or.inl rfl⟩⟩
  · rintro ⟨a, w, s, rfl, htake⟩
    obtain ⟨hopens, rfl | rfl⟩ := takes_sentenceInitialRe.1 htake
    · rw [append_nil]
      exact opensSentence_of_opens hopens
    · exact opensSentence_newline ((mem_trailingSpace (by decide)).2 ⟨a ++ w, [], rfl, by simp⟩)

/-! ## Links -/

/-- What the tables say of letters and of the sign of an address. -/
structure LetterTables extends Tables where
  latin_word : ∀ c, isLatin c = true → word c = true
  at_word : word '@' = false

/-- A literal of a pattern with `re.I`. -/
def sameLetter (T : Tables) (c d : Char) : Bool := if c.isAlpha then T.ignoreCase c == T.ignoreCase d else c == d

/-- `_WWW_RE`. -/
def wwwRe (T : Tables) : Regex := Regex.word (sameLetter T) "www.".toList

def linkTlds : List String := ["com", "travel", "net", "org", "io", "co", "asia"]

/-- `_LINK_TLD_RE`. -/
def linkTldRe (T : Tables) : Regex :=
  seq (one (· == '.')) (choice (linkTlds.map fun w => Regex.word (sameLetter T) w.toList))

/-- `_is_link_token`. -/
def isLinkToken (T : Tables) (token : Text) : Bool :=
  (splitFirst "://".toList token).any (fun p => !p.2.isEmpty) ||
  (search (wwwRe T) [] token).any (fun m => !m.2.2.isEmpty) ||
  (rfind '.' token).any (fun d =>
    let rest := token.drop (d + 1)
    -- `token.find("@", 1, d - 1)`, where a negative end counts from the end
    !rest.isEmpty && rest.all T.word && (slice token 1 (if d = 0 then token.length - 1 else d - 1)).contains '@') ||
  (search (linkTldRe T) (token.take 1).reverse (token.drop 1)).isSome

/-- `\S`. -/
def notSpace (c : Char) : Bool := !isSpace c

/-- `(?:\S*://\S+|www\.\S+|\S+@\S+\.\w+|\S+\.(?:com|travel|net|org|io|co|asia)\S*)$` with `re.I`. -/
def linkRe (T : Tables) : Regex :=
  let some := plus (one notSpace)
  seq (alt (seq (star (one notSpace)) (seq (Regex.word (· == ·) "://".toList) some))
    (alt (seq (wwwRe T) some)
      (alt (seq some (seq (one (· == '@')) (seq some (seq (one (· == '.')) (plus (one T.word))))))
        (seq some (seq (linkTldRe T) (star (one notSpace))))))) last

/-- What the alternatives of the pattern say of a token without space. -/
inductive IsLink (T : Tables) : Text → Prop
  | scheme (u : Text) {v : Text} (hv : v ≠ []) : IsLink T (u ++ ("://".toList ++ v))
  | www (u : Text) {m v : Text} (hm : Takes (wwwRe T) [] m []) (hv : v ≠ []) : IsLink T (u ++ (m ++ v))
  | address {x y v : Text} (hx : x ≠ []) (hy : y ≠ []) (hv : v ≠ []) (hword : ∀ c ∈ v, T.word c = true) :
      IsLink T (x ++ '@' :: (y ++ '.' :: v))
  | tld {u m : Text} (v : Text) (hu : u ≠ []) (hm : Takes (linkTldRe T) [] m []) : IsLink T (u ++ (m ++ v))

theorem takes_wwwRe {T : Tables} {l w s : Text} : Takes (wwwRe T) l w s ↔ Takes (wwwRe T) [] w [] := by
  unfold wwwRe
  rw [takes_word, takes_word]

theorem takes_linkTldRe {T : Tables} {l w s : Text} : Takes (linkTldRe T) l w s ↔ Takes (linkTldRe T) [] w [] := by
  unfold linkTldRe
  simp only [takes_seq, takes_one_eq, takes_choice, mem_map, exists_exists_and_eq_and, takes_word]

theorem isLink_append {T : Tables} {w : Text} (h : IsLink T w) (a : Text) : IsLink T (a ++ w) := by
  cases h with
  | scheme u hv =>
    rw [← append_assoc]
    exact IsLink.scheme (a ++ u) hv
  | www u hm hv =>
    rw [← append_assoc]
    exact IsLink.www (a ++ u) hm hv
  | @address x y v hx hy hv hword =>
    rw [← append_assoc]
    exact IsLink.address (append_ne_nil_of_right_ne_nil a hx) hy hv hword
  | @tld u m v hu hm =>
    rw [← append_assoc]
    exact IsLink.tld v (append_ne_nil_of_right_ne_nil a hu) hm

theorem isLink_of_takes {T : Tables} {l w s : Text} (h : Takes (linkRe T) l w s) :
    IsLink T w ∧ (s = [] ∨ s = ['\n']) := by
  obtain ⟨a, b, rfl, ha, hb⟩ := takes_seq.1 h
  obtain ⟨rfl, hs⟩ := takes_last.1 hb
  rw [append_nil]
  refine ⟨?_, hs⟩
  rcases takes_alt.1 ha with ha | ha
  · obtain ⟨u, b, rfl, -, hb⟩ := takes_seq.1 ha
    obtain ⟨m, v, rfl, hm, hv⟩ := takes_seq.1 hb
    obtain rfl := takes_word_eq.1 hm
    exact IsLink.scheme u (takes_plus_one.1 hv).1
  rcases takes_alt.1 ha with ha | ha
  · obtain ⟨m, v, rfl, hm, hv⟩ := takes_seq.1 ha
    exact IsLink.www [] (takes_wwwRe.1 hm) (takes_plus_one.1 hv).1
  rcases takes_alt.1 ha with ha | ha
  · obtain ⟨x, b, rfl, hx, hb⟩ := takes_seq.1 ha
    obtain ⟨m, b, rfl, hm, hb⟩ := takes_seq.1 hb
    obtain rfl := takes_one_eq.1 hm
    obtain ⟨y, b, rfl, hy, hb⟩ := takes_seq.1 hb
    obtain ⟨m, v, rfl, hm, hv⟩ := takes_seq.1 hb
    obtain rfl := takes_one_eq.1 hm
    exact IsLink.address (takes_plus_one.1 hx).1 (takes_plus_one.1 hy).1 (takes_plus_one.1 hv).1 (takes_plus_one.1 hv).2
  · obtain ⟨u, b, rfl, hu, hb⟩ := takes_seq.1 ha
    obtain ⟨m, v, rfl, hm, -⟩ := takes_seq.1 hb
    exact IsLink.tld v (takes_plus_one.1 hu).1 (takes_linkTldRe.1 hm)

theorem takes_of_isLink {T : Tables} {token : Text} (h : IsLink T token) (hspace : ∀ c ∈ token, isSpace c = false) :
    ∃ a w, token = a ++ w ∧ Takes (linkRe T) a.reverse w [] := by
  have hrun : ∀ {u : Text}, u <:+: token → ∀ c ∈ u, notSpace c = true := by
    intro u hu c hc
    unfold notSpace
    rw [hspace c (hu.subset hc)]
    rfl
  have hlast : ∀ l : Text, Takes last l [] [] := fun l => takes_last.2 ⟨rfl, Or.inl rfl⟩
  cases h with
  | @scheme u v hv =>
    refine ⟨[], _, rfl, takes_seq.2 ⟨_, [], (append_nil _).symm, takes_alt.2 (Or.inl ?_), hlast _⟩⟩
    refine takes_seq.2 ⟨u, _, rfl, takes_star_one.2 (hrun ⟨[], _, rfl⟩), takes_seq.2 ⟨_, v, rfl, takes_word_eq.2 rfl, ?_⟩⟩
    exact takes_plus_one.2 ⟨hv, hrun ⟨u ++ "://".toList, [], by simp⟩⟩
  | @www u m v hm hv =>
    refine ⟨u, m ++ v, rfl, takes_seq.2 ⟨_, [], (append_nil _).symm, takes_alt.2 (Or.inr (takes_alt.2 (Or.inl ?_))), hlast _⟩⟩
    refine takes_seq.2 ⟨m, v, rfl, takes_wwwRe.2 hm, takes_plus_one.2 ⟨hv, hrun ⟨u ++ m, [], by simp⟩⟩⟩
  | @address x y v hx hy hv hword =>
    refine ⟨[], _, rfl, takes_seq.2 ⟨_, [], (append_nil _).symm,
      takes_alt.2 (Or.inr (takes_alt.2 (Or.inr (takes_alt.2 (Or.inl ?_))))), hlast _⟩⟩
    refine takes_seq.2 ⟨x, _, rfl, takes_plus_one.2 ⟨hx, hrun ⟨[], _, rfl⟩⟩, ?_⟩
    refine takes_seq.2 ⟨['@'], y ++ '.' :: v, rfl, takes_one_eq.2 rfl, ?_⟩
    refine takes_seq.2 ⟨y, '.' :: v, rfl, takes_plus_one.2 ⟨hy, hrun ⟨x ++ ['@'], '.' :: v, by simp⟩⟩, ?_⟩
    exact takes_seq.2 ⟨['.'], v, rfl, takes_one_eq.2 rfl, takes_plus_one.2 ⟨hv, hword⟩⟩
  | @tld u m v hu hm =>
    refine ⟨[], _, rfl, takes_seq.2 ⟨_, [], (append_nil _).symm,
      takes_alt.2 (Or.inr (takes_alt.2 (Or.inr (takes_alt.2 (Or.inr ?_))))), hlast _⟩⟩
    refine takes_seq.2 ⟨u, m ++ v, rfl, takes_plus_one.2 ⟨hu, hrun ⟨[], _, rfl⟩⟩, ?_⟩
    exact takes_seq.2 ⟨m, v, rfl, takes_linkTldRe.2 hm, takes_star_one.2 (hrun ⟨u ++ m, [], by simp⟩)⟩

theorem search_linkRe {T : Tables} {token : Text} (hspace : ∀ c ∈ token, isSpace c = false) :
    (search (linkRe T) [] token).isSome = true ↔ IsLink T token := by
  rw [search_isSome_iff]
  constructor
  · rintro ⟨a, w, s, rfl, htake⟩
    obtain ⟨hlink, rfl | rfl⟩ := isLink_of_takes htake
    · rw [append_nil]
      exact isLink_append hlink a
    · exact absurd (hspace '\n' (mem_append_right _ (mem_singleton_self _))) (by decide)
  · intro h
    obtain ⟨a, w, rfl, htake⟩ := takes_of_isLink h hspace
    exact ⟨a, w, [], (append_nil _).symm, htake⟩

theorem splitFirst_spec {sep : Text} (hsep : sep ≠ []) {s u v : Text} (h : s = u ++ (sep ++ v)) :
    ∃ a b, splitFirst sep s = some (a, b) ∧ s = a ++ (sep ++ b) ∧ a.length ≤ u.length := by
  induction s generalizing u with
  | nil => simp [hsep] at h
  | cons c s ih =>
    unfold splitFirst
    by_cases hhere : sep.isPrefixOf (c :: s) = true
    · obtain ⟨b, hb⟩ := List.isPrefixOf_iff_prefix.1 hhere
      rw [if_pos hhere]
      refine ⟨[], b, ?_, hb.symm, Nat.zero_le _⟩
      rw [← hb, drop_left' rfl]
    · rw [if_neg hhere]
      cases u with
      | nil => exact absurd (List.isPrefixOf_iff_prefix.2 ⟨v, h.symm⟩) hhere
      | cons d u =>
        obtain ⟨rfl, hs⟩ := List.cons.inj h
        obtain ⟨a, b, hab, heq, hle⟩ := ih hs
        rw [hab]
        exact ⟨c :: a, b, rfl, by rw [heq]; rfl, Nat.succ_le_succ hle⟩

theorem splitFirst_eq_some {sep s a b : Text} (h : splitFirst sep s = some (a, b)) : s = a ++ (sep ++ b) := by
  induction s generalizing a with
  | nil => cases h
  | cons c s ih =>
    unfold splitFirst at h
    split at h
    · next hhere =>
      obtain ⟨v, hv⟩ := List.isPrefixOf_iff_prefix.1 hhere
      obtain ⟨rfl, rfl⟩ := Prod.mk.inj (Option.some.inj h)
      rw [← hv, drop_left' rfl]
      rfl
    · obtain ⟨p, hp, heq⟩ := Option.map_eq_some_iff.1 h
      obtain ⟨rfl, rfl⟩ := Prod.mk.inj heq
      rw [cons_append, ← ih hp]

theorem scheme_iff {token : Text} : (splitFirst "://".toList token).any (fun p => !p.2.isEmpty) = true ↔
    ∃ u v, v ≠ [] ∧ token = u ++ ("://".toList ++ v) := by
  constructor
  · intro h
    obtain ⟨⟨a, b⟩, hab, hb⟩ := (Option.any_eq_true _ _).1 h
    exact ⟨a, b, by simpa using hb, splitFirst_eq_some hab⟩
  · rintro ⟨u, v, hv, heq⟩
    obtain ⟨a, b, hab, heq', hle⟩ := splitFirst_spec (by decide) heq
    have hlen := congrArg List.length (heq.symm.trans heq')
    simp only [length_append] at hlen
    have hpos := List.length_pos_iff.2 hv
    rw [hab]
    have hb : b ≠ [] := List.length_pos_iff.1 (by omega)
    simpa using hb

theorem www_iff {T : Tables} {token : Text} : (search (wwwRe T) [] token).any (fun m => !m.2.2.isEmpty) = true ↔
    ∃ u m v, v ≠ [] ∧ Takes (wwwRe T) [] m [] ∧ token = u ++ (m ++ v) := by
  have hlength : ∀ {l w s : Text}, Takes (wwwRe T) l w s → w.length = 4 := by
    intro l w s h
    exact (takes_word.1 h).length_eq.symm
  constructor
  · intro h
    obtain ⟨m, hm, hrest⟩ := (Option.any_eq_true _ _).1 h
    obtain ⟨a, w, s, rfl, rfl, htake, -⟩ := search_some hm
    exact ⟨a, w, s, by simpa using hrest, takes_wwwRe.1 htake, append_assoc _ _ _⟩
  · rintro ⟨u, m, v, hv, hm, rfl⟩
    have hsome := search_isSome_iff.2 ⟨u, m, v, (append_assoc _ _ _).symm, takes_wwwRe.2 hm⟩
    obtain ⟨found, hfound⟩ := Option.isSome_iff_exists.1 hsome
    obtain ⟨a, w, s, heq, rfl, htake, hleft⟩ := search_some hfound
    -- the first one leaves at least as much behind it
    have hle := hleft u m v (append_assoc _ _ _).symm (takes_wwwRe.2 hm)
    have hlen := congrArg List.length heq
    simp only [length_append, hlength hm, hlength htake] at hlen
    have hpos := List.length_pos_iff.2 hv
    have hs : s ≠ [] := List.length_pos_iff.1 (by omega)
    rw [hfound]
    simpa using hs

theorem tld_iff {T : Tables} {token : Text} : (search (linkTldRe T) (token.take 1).reverse (token.drop 1)).isSome = true ↔
    ∃ u m v, u ≠ [] ∧ Takes (linkTldRe T) [] m [] ∧ token = u ++ (m ++ v) := by
  rw [search_from_isSome_iff]
  constructor
  · rintro ⟨a, w, s, heq, htake⟩
    have hw : w ≠ [] := by
      rintro rfl
      obtain ⟨x, y, hxy, hx, -⟩ := takes_seq.1 htake
      rw [takes_one_eq.1 hx] at hxy
      cases hxy
    cases token with
    | nil => simp [hw] at heq
    | cons c token =>
      refine ⟨c :: a, w, s, by simp, takes_linkTldRe.1 htake, ?_⟩
      rw [cons_append, ← append_assoc, ← heq]
      rfl
  · rintro ⟨u, m, v, hu, hm, rfl⟩
    obtain ⟨c, u, rfl⟩ := exists_cons_of_ne_nil hu
    exact ⟨u, m, v, (append_assoc _ _ _).symm, takes_linkTldRe.2 hm⟩

theorem rfind_some {c : Char} {s : Text} {n : Nat} (h : rfind c s = some n) :
    ∃ u v, s = u ++ c :: v ∧ n = u.length ∧ c ∉ v := by
  have hmem : c ∈ s := by
    by_contra hnot
    unfold rfind at h
    rw [if_neg hnot] at h
    cases h
  obtain ⟨v, u, hs, hv⟩ := eq_append_cons_of_mem (List.mem_reverse.2 hmem)
  have hs' : s = u.reverse ++ c :: v.reverse := by
    rw [← reverse_reverse s, hs]
    simp
  have hv' : c ∉ v.reverse := fun hin => hv (List.mem_reverse.1 hin)
  refine ⟨u.reverse, v.reverse, hs', ?_, hv'⟩
  rw [hs', rfind_split hv', Option.some.injEq] at h
  exact h.symm

theorem mem_inner {c : Char} {u : Text} : c ∈ u.dropLast.drop 1 ↔ ∃ x y, x ≠ [] ∧ y ≠ [] ∧ u = x ++ c :: y := by
  constructor
  · intro h
    rcases eq_nil_or_concat u with rfl | ⟨t, e, rfl⟩
    · cases h
    · rw [concat_eq_append] at h ⊢
      rw [dropLast_concat] at h
      obtain ⟨p, q, hpq⟩ := append_of_mem h
      cases t with
      | nil => cases h
      | cons d t =>
        have ht : t = p ++ c :: q := hpq
        exact ⟨d :: p, q ++ [e], by simp, by simp, by rw [ht]; simp⟩
  · rintro ⟨x, y, hx, hy, rfl⟩
    obtain ⟨d, x, rfl⟩ := exists_cons_of_ne_nil hx
    rw [dropLast_append_of_ne_nil (by simp), dropLast_cons_of_ne_nil hy]
    simp

theorem address_iff (T : LetterTables) {token : Text} : (rfind '.' token).any (fun d =>
      !(token.drop (d + 1)).isEmpty && (token.drop (d + 1)).all T.word &&
        (slice token 1 (if d = 0 then token.length - 1 else d - 1)).contains '@') = true ↔
    ∃ x y v, x ≠ [] ∧ y ≠ [] ∧ v ≠ [] ∧ (∀ c ∈ v, T.word c = true) ∧ token = x ++ '@' :: (y ++ '.' :: v) := by
  have hdot : T.word '.' = false := T.knowsBreaks '.' (by decide)
  -- where the last dot is, the scan looks at what stands before it and after it
  have hscan : ∀ {u v : Text}, (slice (u ++ '.' :: v) 1 (u.length - 1)) = u.dropLast.drop 1 ∧
      (u ++ '.' :: v).drop (u.length + 1) = v := by
    intro u v
    constructor
    · unfold slice
      rw [take_append_of_le_length (Nat.sub_le _ _), dropLast_eq_take]
    · rw [drop_length_add_append]
      rfl
  constructor
  · intro h
    obtain ⟨d, hd, h⟩ := (Option.any_eq_true _ _).1 h
    obtain ⟨u, v, rfl, rfl, hv⟩ := rfind_some hd
    rw [(hscan (u := u)).2, Bool.and_eq_true, Bool.and_eq_true, all_eq_true] at h
    obtain ⟨⟨hne, hword⟩, hat⟩ := h
    by_cases hu : u = []
    · -- the slice up to the end holds word characters only
      subst hu
      rw [if_pos length_nil, contains_iff_mem] at hat
      unfold slice at hat
      rw [drop_take] at hat
      have := hword _ (mem_of_mem_take hat)
      rw [T.at_word] at this
      cases this
    · have hlen : u.length ≠ 0 := fun h => hu (List.length_eq_zero_iff.1 h)
      rw [if_neg hlen, hscan.1, contains_iff_mem, mem_inner] at hat
      obtain ⟨x, y, hx, hy, rfl⟩ := hat
      exact ⟨x, y, v, hx, hy, by simpa using hne, hword, by simp⟩
  · rintro ⟨x, y, v, hx, hy, hv, hword, rfl⟩
    have hnot : '.' ∉ v := fun hmem => by
      have := hword _ hmem
      rw [hdot] at this
      cases this
    have hsplit : x ++ '@' :: (y ++ '.' :: v) = (x ++ '@' :: y) ++ '.' :: v := by simp
    rw [hsplit, rfind_split hnot, Option.any_some, hscan.2, if_neg (by simp), hscan.1, Bool.and_eq_true, Bool.and_eq_true,
      all_eq_true, contains_iff_mem, mem_inner]
    exact ⟨⟨by simpa using hv, hword⟩, x, y, hx, hy, rfl⟩

theorem is_link_token_eq (T : LetterTables) {token : Text} (hspace : ∀ c ∈ token, isSpace c = false) :
    isLinkToken T.toTables token = (search (linkRe T.toTables) [] token).isSome := by
  rw [Bool.eq_iff_iff, search_linkRe hspace]
  unfold isLinkToken
  rw [Bool.or_eq_true, Bool.or_eq_true, Bool.or_eq_true, scheme_iff, www_iff, address_iff, tld_iff]
  constructor
  · rintro (((⟨u, v, hv, rfl⟩ | ⟨u, m, v, hv, hm, rfl⟩) | ⟨x, y, v, hx, hy, hv, hword, rfl⟩) | ⟨u, m, v, hu, hm, rfl⟩)
    · exact IsLink.scheme u hv
    · exact IsLink.www u hm hv
    · exact IsLink.address hx hy hv hword
    · exact IsLink.tld v hu hm
  · intro h
    cases h with
    | scheme u hv => exact Or.inl (Or.inl (Or.inl ⟨u, _, hv, rfl⟩))
    | www u hm hv => exact Or.inl (Or.inl (Or.inr ⟨u, _, _, hv, hm, rfl⟩))
    | address hx hy hv hword => exact Or.inl (Or.inr ⟨_, _, _, hx, hy, hv, hword, rfl⟩)
    | tld v hu hm => exact Or.inr ⟨_, _, v, hu, hm, rfl⟩

/-! ## The last word -/

/-- `_WORD_CLASS_RE`. -/
def wordClass (c : Char) : Bool := isLatin c || c == '\''

/-- `_last_word`: the run of letters before the `\W` at the end with the apostrophes there, else the first of these. -/
def lastWord (T : Tables) (clean : Text) : Option Text :=
  let before := rstripOf (fun c => !T.word c) clean
  let after := clean.drop before.length
  let word := (before.reverse.takeWhile wordClass).reverse
  if !word.isEmpty then some (word ++ after.takeWhile (· == '\''))
  else if '\'' ∈ after then some ((after.dropWhile (· != '\'')).takeWhile (· == '\''))
  else none

/-- `\W*$`. -/
def noWordRe (T : Tables) : Regex := seq (star (one fun c => !T.word c)) last

variable {T : Tables}

theorem ends_noWordRe {z : Place} : (noWordRe T).ends z ≠ [] ↔ ∀ c ∈ z.2, T.word c = false := by
  obtain ⟨l, t⟩ := z
  rw [ends_ne_nil_iff]
  constructor
  · rintro ⟨w, s, rfl, htake⟩ c hc
    obtain ⟨a, b, rfl, ha, hb⟩ := takes_seq.1 htake
    obtain ⟨rfl, hs⟩ := takes_last.1 hb
    rw [append_nil] at hc
    rcases List.mem_append.1 hc with hc | hc
    · simpa using takes_star_one.1 ha c hc
    · rcases hs with rfl | rfl
      · cases hc
      · rw [List.mem_singleton.1 hc]
        exact T.knowsBreaks '\n' (by decide)
  · intro h
    refine ⟨t, [], (append_nil t).symm, takes_seq.2 ⟨t, [], (append_nil t).symm, ?_, takes_last.2 ⟨rfl, Or.inl rfl⟩⟩⟩
    exact takes_star_one.2 fun c hc => by rw [h c hc]; rfl

def Starts (T : Tables) (t : Text) : Prop :=
  t.head?.any wordClass = true ∧ ∀ c ∈ t.dropWhile wordClass, T.word c = false

theorem starts_of_ends {l t : Text} (h : (seq (plus (one wordClass)) (noWordRe T)).ends (l, t) ≠ []) : Starts T t := by
  obtain ⟨w, s, rfl, htake⟩ := ends_ne_nil_iff.1 h
  obtain ⟨a, b, rfl, ha, hb⟩ := takes_seq.1 htake
  obtain ⟨hne, hall⟩ := takes_plus_one.1 ha
  have hrest := ends_noWordRe.1 (ends_ne_nil_iff.2 ⟨b, s, rfl, hb⟩)
  rw [append_assoc]
  constructor
  · obtain ⟨c, a, rfl⟩ := exists_cons_of_ne_nil hne
    exact hall c (mem_cons_self ..)
  · intro c hc
    rw [dropWhile_append_of_pos hall] at hc
    exact hrest c ((dropWhile_suffix _).subset hc)

theorem find?_ends_word {t : Text} (h : Starts T t) (l : Text) :
    ((plus (one wordClass)).ends (l, t)).find? (fun y => (noWordRe T).ends y ≠ []) =
      some ((t.takeWhile wordClass).reverse ++ l, t.dropWhile wordClass) := by
  obtain ⟨hhead, hrest⟩ := h
  cases t with
  | nil => cases hhead
  | cons c t =>
    obtain ⟨others, heq, -⟩ := ends_plus_one (p := wordClass) hhead l t
    rw [heq, List.find?_cons_of_pos]
    exact decide_eq_true (ends_noWordRe.2 hrest)

theorem group_word {a t : Text} (h : Starts T t) (hleft : ∀ a' t', a ++ t = a' ++ t' → a'.length < a.length → ¬Starts T t') :
    group (plus (one wordClass)) (noWordRe T) (a ++ t) = some (t.takeWhile wordClass) := by
  have hfind := find?_ends_word h (a.reverse ++ [])
  have hne : (seq (plus (one wordClass)) (noWordRe T)).ends (a.reverse ++ [], t) ≠ [] := by
    show ((plus (one wordClass)).ends (a.reverse ++ [], t)).flatMap (noWordRe T).ends ≠ []
    intro hnil
    have hmem := List.mem_of_find?_eq_some hfind
    have := List.find?_some hfind
    exact of_decide_eq_true this (List.flatMap_eq_nil_iff.1 hnil _ hmem)
  obtain ⟨z, zs, hz⟩ := exists_cons_of_ne_nil hne
  unfold group
  rw [search_eq_some (by rw [hz]; rfl) fun a' b' heq hlt => ?_, Option.bind_some, hfind, Option.map_some]
  · have hparts := takeWhile_append_dropWhile (p := wordClass) (l := t)
    have hword := matched_eq (a.reverse ++ []) (t.takeWhile wordClass) (t.dropWhile wordClass)
      ((t.takeWhile wordClass).reverse ++ (a.reverse ++ []))
    rw [hparts] at hword
    exact congrArg some hword
  · by_contra hsome
    exact hleft a' b' heq hlt (starts_of_ends hsome)

theorem group_none {t : Text} (h : ∀ a' t', t = a' ++ t' → ¬Starts T t') :
    group (plus (one wordClass)) (noWordRe T) t = none := by
  unfold group
  rw [search_eq_none_iff.2 fun a b hab => ?_]
  · rfl
  · by_contra hsome
    exact h a b hab (starts_of_ends hsome)

theorem not_starts {u r : Text} {c : Char} (hc : T.word c = true) (hrun : ∃ d ∈ u ++ [c], wordClass d = false) :
    ¬Starts T (u ++ c :: r) := by
  rintro ⟨-, hrest⟩
  have hne : (u ++ [c]).dropWhile wordClass ≠ [] := by
    intro hnil
    obtain ⟨d, hd, hno⟩ := hrun
    rw [List.dropWhile_eq_nil_iff.1 hnil d hd] at hno
    cases hno
  have hmem : c ∈ (u ++ [c]).dropWhile wordClass := by
    obtain ⟨v, hv⟩ := dropWhile_suffix (l := u ++ [c]) wordClass
    have hlast := List.getLast?_append_of_ne_nil v hne
    rw [hv, List.getLast?_concat] at hlast
    exact mem_of_getLast? hlast.symm
  have hdrop : (u ++ c :: r).dropWhile wordClass = (u ++ [c]).dropWhile wordClass ++ r := by
    rw [append_cons, dropWhile_append, if_neg (by simpa using hne)]
  have := hrest c (hdrop ▸ mem_append_left _ hmem)
  rw [hc] at this
  cases this

theorem wordClass_of_noWord (T : LetterTables) {c : Char} (hc : T.word c = false) : wordClass c = (c == '\'') := by
  unfold wordClass
  cases hlatin : isLatin c with
  | false => rfl
  | true =>
    rw [T.latin_word c hlatin] at hc
    cases hc

theorem takeWhile_congr {p q : Char → Bool} {s : Text} (h : ∀ c ∈ s, p c = q c) : s.takeWhile p = s.takeWhile q := by
  induction s with
  | nil => rfl
  | cons c s ih =>
    rw [takeWhile_cons, takeWhile_cons, h c (mem_cons_self ..),
      ih fun d hd => h d (mem_cons_of_mem _ hd)]

theorem append_split {a b a' t' : Text} (h : a ++ b = a' ++ t') (hle : a.length ≤ a'.length) : ∃ p, a' = a ++ p ∧ b = p ++ t' := by
  rcases List.append_eq_append_iff.1 h with ⟨p, ha, hb⟩ | ⟨u, rfl, rfl⟩
  · exact ⟨p, ha, hb⟩
  · rw [length_append] at hle
    obtain rfl : u = [] := List.length_eq_zero_iff.1 (by omega)
    exact ⟨[], by simp, rfl⟩

theorem last_word_eq (T : LetterTables) (clean : Text) :
    lastWord T.toTables clean = group (plus (one wordClass)) (noWordRe T.toTables) clean := by
  obtain ⟨after, hclean, hafter⟩ := rstripOf_spec (fun c => !T.word c) clean
  have hdrop : clean.drop (rstripOf (fun c => !T.word c) clean).length = after :=
    (congrArg (List.drop _) hclean).trans (drop_left' rfl)
  have hlast : ∀ c, (rstripOf (fun c => !T.word c) clean).getLast? = some c → T.word c = true := by
    intro c hc
    unfold rstripOf at hc
    rw [List.getLast?_reverse] at hc
    simpa using head?_dropWhile_class hc
  obtain ⟨hbefore, hx, hrun⟩ := last_run wordClass (rstripOf (fun c => !T.word c) clean)
  unfold lastWord
  dsimp only
  rw [hdrop]
  generalize rstripOf (fun c => !T.word c) clean = before at hclean hlast hbefore hx hrun
  generalize (before.reverse.dropWhile wordClass).reverse = x at hbefore hx
  generalize (before.reverse.takeWhile wordClass).reverse = word at hbefore hrun
  have hafter' : ∀ c ∈ after, T.word c = false := fun c hc => by simpa using hafter c hc
  have hquotes : ∀ {t : Text}, t <:+ after → t.takeWhile wordClass = t.takeWhile (· == '\'') := fun ht =>
    takeWhile_congr fun c hc => wordClass_of_noWord T (hafter' c (ht.subset hc))
  subst hclean
  by_cases hword : word = []
  · subst hword
    rw [append_nil] at hbefore
    subst hbefore
    -- before the tail no word starts
    have hno : ∀ a' t', before ++ after = a' ++ t' → a'.length < before.length → ¬Starts T.toTables t' := by
      intro a' t' heq hlt
      obtain ⟨u, hu, rfl, rfl⟩ := suffix_split heq hlt
      obtain ⟨u, e, rfl⟩ : ∃ v e, u = v ++ [e] := ⟨_, _, (dropLast_append_getLast hu).symm⟩
      have he : (a' ++ (u ++ [e])).getLast? = some e := by
        rw [← append_assoc, List.getLast?_concat]
      rw [he, Option.any_some] at hx
      rw [append_assoc]
      exact not_starts (hlast e he) ⟨e, mem_append_right _ (mem_singleton_self _), hx⟩
    by_cases hquote : '\'' ∈ after
    · rw [if_pos hquote]
      have hparts := takeWhile_append_dropWhile (p := (· != '\'')) (l := after)
      have hfront : ∀ c ∈ after.takeWhile (· != '\''), c ≠ '\'' := fun c hc => by simpa using mem_takeWhile_imp hc
      have hsuffix := dropWhile_suffix (l := after) (· != '\'')
      have hhead : (after.dropWhile (· != '\'')).head?.any wordClass = true := by
        cases hrest : after.dropWhile (· != '\'') with
        | nil =>
          rw [hrest, append_nil] at hparts
          exact absurd rfl (hfront '\'' (hparts.symm ▸ hquote))
        | cons c v =>
          have hc := @head?_dropWhile_class after (· != '\'') c (by rw [hrest]; rfl)
          obtain rfl : c = '\'' := by simpa using hc
          show wordClass '\'' = true
          decide
      rw [← hquotes hsuffix]
      generalize after.takeWhile (· != '\'') = p at hparts hfront
      generalize after.dropWhile (· != '\'') = rest at hparts hhead hsuffix
      subst hparts
      rw [← append_assoc]
      refine (group_word ⟨hhead, fun c hc => hafter' c ?_⟩ fun a' t' heq hlt => ?_).symm
      · exact hsuffix.subset ((dropWhile_suffix _).subset hc)
      · by_cases hshort : a'.length < before.length
        · exact hno a' t' (by rw [← heq, append_assoc]) hshort
        · obtain ⟨u, hu, hsplit, rfl⟩ := suffix_split heq hlt
          obtain ⟨p', -, rfl⟩ := append_split hsplit (Nat.not_lt.1 hshort)
          obtain ⟨c, u, rfl⟩ := exists_cons_of_ne_nil hu
          rintro ⟨hc, -⟩
          have hmem : c ∈ p' ++ c :: u := mem_append_right _ (mem_cons_self ..)
          have hclass : wordClass c = true := hc
          rw [wordClass_of_noWord T (hafter' c (mem_append_left _ hmem)), beq_iff_eq] at hclass
          exact hfront c hmem hclass
    · rw [if_neg hquote]
      refine (group_none fun a' t' heq => ?_).symm
      by_cases hshort : a'.length < before.length
      · exact hno a' t' heq hshort
      · obtain ⟨p, -, rfl⟩ := append_split heq (Nat.not_lt.1 hshort)
        rintro ⟨hhead, -⟩
        obtain ⟨c, hc, hclass⟩ := (Option.any_eq_true _ _).1 hhead
        have hmem : c ∈ p ++ t' := mem_append_right _ (mem_of_head? hc)
        rw [wordClass_of_noWord T (hafter' c hmem), beq_iff_eq] at hclass
        exact hquote (hclass ▸ hmem)
  · rw [if_pos (by simpa using hword)]
    subst hbefore
    have htake : (word ++ after).takeWhile wordClass = word ++ after.takeWhile (· == '\'') := by
      rw [takeWhile_append_of_pos hrun, hquotes (suffix_refl _)]
    rw [← htake, append_assoc]
    refine (group_word ⟨?_, fun c hc => ?_⟩ fun a' t' heq hlt => ?_).symm
    · obtain ⟨c, w, rfl⟩ := exists_cons_of_ne_nil hword
      exact hrun c (mem_cons_self ..)
    · rw [dropWhile_append_of_pos hrun] at hc
      exact hafter' c ((dropWhile_suffix _).subset hc)
    · obtain ⟨u, hu, rfl, rfl⟩ := suffix_split heq hlt
      obtain ⟨w, e, rfl⟩ : ∃ v e, word = v ++ [e] := ⟨_, _, (dropLast_append_getLast hword).symm⟩
      have he : (a' ++ u ++ (w ++ [e])).getLast? = some e := by
        rw [← append_assoc, List.getLast?_concat]
      have hd : ∃ d ∈ u ++ w ++ [e], wordClass d = false := by
        have hd := List.getLast?_eq_some_getLast hu
        rw [List.getLast?_append, hd] at hx
        exact ⟨u.getLast hu, mem_append_left _ (mem_append_left _ (getLast_mem hu)), hx⟩
      have := @not_starts T.toTables (u ++ w) after e (hlast e he) hd
      rw [append_assoc w, ← append_assoc u]
      exact this

/-- Each of the scans finds what its pattern finds. -/
theorem rewrites_eq_patterns (T : LetterTables) :
    (∀ clean : Text, lastWord T.toTables clean = group (plus (one wordClass)) (noWordRe T.toTables) clean) ∧
    (∀ token : Text, (∀ c ∈ token, isSpace c = false) →
      isLinkToken T.toTables token = (search (linkRe T.toTables) [] token).isSome) ∧
    (∀ line : Text, isHashtagLineScan line = fullmatch hashtagLineRe line) ∧
    (∀ text : Text, trailingTags text = ((search trailingTagsRe [] text).map matched).getD []) ∧
    ∀ (text : Text) (idx : Int), sentenceInitial text idx =
      (search sentenceInitialRe [] (text.take (sliceEnd text.length idx))).isSome :=
  ⟨last_word_eq T, fun _ => is_link_token_eq T, is_hashtag_line_eq, trailing_tags_eq, sentence_initial_eq⟩

theorem not_latin_of_breaks {c : Char} (h : breaks c = true) : isLatin c = false := by
  have halpha : c.isAlpha = false := (Bool.or_eq_false_iff.1 (not_alphanum_of_breaks h)).1
  have hrange : ¬(0xC0 ≤ c.toNat ∧ c.toNat ≤ 0xFF) := by
    unfold breaks at h
    rw [Bool.or_eq_true, Bool.or_eq_true] at h
    rcases h with (h | h) | h
    · unfold isSpace at h
      simp only [Bool.or_eq_true, Bool.and_eq_true, decide_eq_true_eq, beq_iff_eq] at h
      omega
    · unfold endMark at h
      simp only [Bool.or_eq_true, beq_iff_eq] at h
      rcases h with ((rfl | rfl) | rfl) | rfl <;> decide
    · unfold closer at h
      simp only [Bool.or_eq_true, beq_iff_eq] at h
      rcases h with ((((rfl | rfl) | rfl) | rfl) | rfl) | rfl <;> decide
  unfold isLatin
  rw [halpha, Bool.false_or]
  by_contra hlatin
  simp only [Bool.and_eq_true, decide_eq_true_eq, bne_iff_ne, ne_eq, Bool.not_eq_false] at hlatin
  exact hrange hlatin.1.1

/-- The tables on Latin letters. -/
def latinTables : LetterTables where
  word c := isLatin c || c.isDigit || c == '_'
  digit := Char.isDigit
  fold c := [if c.isAlphanum then c.toLower else ' ']
  ignoreCase := Char.toLower
  knowsBreaks c hc := by
    have hdigit : c.isDigit = false := (Bool.or_eq_false_iff.1 (not_alphanum_of_breaks hc)).2
    show (isLatin c || c.isDigit || c == '_') = false
    rw [not_latin_of_breaks hc, hdigit, beq_eq_false_iff_ne.2 (breaks_ne hc (by decide))]
    rfl
  fold_break c hc := by
    rw [if_neg (by rw [not_alphanum_of_breaks hc]; exact Bool.false_ne_true)]
    refine ⟨List.cons_ne_nil _ _, fun d hd => ?_⟩
    rw [List.mem_singleton.1 hd]
    decide
  latin_word c hc := by
    show (isLatin c || c.isDigit || c == '_') = true
    rw [hc]
    rfl
  at_word := by decide

example : lastWord latinTables.toTables "Ask the guides' (2).".toList = none := by decide

end CisApp.Hygiene
