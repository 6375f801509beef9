import CisApp.Hygiene.Tags

/-! The sentences of a piece.

`sentence_spans` of `services/acp_content_writing/hygiene.py` and what it rests on, the one rule of where a sentence ends.
The Unicode tables that the module reads are a parameter, `Tables`. -/

namespace CisApp.Hygiene

open Lib Repair List

/-- `[a-z0-9]`. -/
def isKey (c : Char) : Bool := c.isLower || c.isDigit

/-- The Unicode tables that the text functions read, and what they say of a break. -/
structure Tables extends CharClasses where
  /-- `fold` of one character: its NFKD decomposition without combining marks, in lower case. -/
  fold : Char → Text
  /-- Two characters are equal under `re.IGNORECASE` when these are. -/
  ignoreCase : Char → Char
  knowsBreaks : KnowsBreaks toCharClasses
  fold_break : ∀ c, breaks c = true → fold c ≠ [] ∧ ∀ d ∈ fold c, isKey d = false ∧ d ≠ '&'

inductive Kind
  | prose
  | bullet
  | faqQ
  | faqA
  | heading
  | hashtags
  deriving DecidableEq

structure Span where
  start : Nat
  stop : Nat
  text : Text
  clean : Text
  kind : Kind
  inFaq : Bool
  deriving DecidableEq

/-! ## Lines -/

/-- `_HEADING_RE.match`: one to six `#` and a space. -/
def isHeading (s : Text) : Bool :=
  let level := (s.takeWhile (· == '#')).length
  0 < level && level ≤ 6 && (s.drop level).head?.any isSpace

/-- `[\s,]`. -/
def tagGap (c : Char) : Bool := isSpace c || c == ','

/-- `(?:#[A-Za-z][A-Za-z0-9]+[\s,]*)+`, which takes off at least three characters a round. -/
def hashtagsFrom : Nat → Text → Bool
  | fuel + 1, '#' :: c :: rest =>
    let gap := rest.dropWhile Char.isAlphanum
    let next := gap.dropWhile tagGap
    c.isAlpha && gap.length < rest.length && (next.isEmpty || hashtagsFrom fuel next)
  | _, _ => false

/-- `_HASHTAG_LINE_RE.fullmatch`. -/
def isHashtagLine (s : Text) : Bool := hashtagsFrom s.length s

/-! ## Sentence ends -/

/-- `while j < len(s) and p(s[j]): j += 1`. -/
def runEnd (p : Char → Bool) (s : Text) (j : Nat) : Nat := j + ((s.drop j).takeWhile p).length

def abbreviations : List String :=
  ["mt", "st", "dr", "mr", "mrs", "ms", "prof", "jr", "sr", "vs", "approx", "ca", "e.g", "i.e"]

def numberAbbreviations : List String := ["no"]

def unitAbbreviations : List String := ["ft", "km", "mi", "hr", "hrs", "min", "mins"]

/-- `_WORD_DOT_CHARS`. -/
def wordDot (c : Char) : Bool := c.isAlpha || c == '.'

/-- `_DOTTED_ACRONYM_RE.fullmatch`: `(?:[A-Za-z]\.)+[A-Za-z]`. -/
def isDottedAcronym : Text → Bool
  | [a, '.', b] => a.isAlpha && b.isAlpha
  | a :: '.' :: rest => a.isAlpha && isDottedAcronym rest
  | _ => false

def nextNonSpace (s : Text) (j : Nat) : Option Char := ((s.drop j).dropWhile isSpace).head?

/-- `_word_before_dot`: the whole word before the dot at `i`. -/
def wordBeforeDot (s : Text) (i : Nat) : Text :=
  let e := if 0 < i && s[i - 1]? == some '\n' then i - 1 else i
  let word := ((s.take e).reverse.takeWhile wordDot).reverse
  -- after a digit the word may only start behind a dot of the run
  if ((s.take e).reverse.dropWhile wordDot).head?.any Char.isDigit then (word.dropWhile (· != '.')).drop 1 else word

def isSentenceEnd (T : Tables) (s : Text) (i : Nat) : Bool :=
  if !s[i]?.any endMark then false
  else
    let j := runEnd closer s (runEnd endMark s (i + 1))
    if s[j]?.any (fun c => !isSpace c) && (tagLength? (s.drop j)).isNone then false
    else if s[i]? == some '.' && !s[i + 1]?.any endMark then
      let word := wordBeforeDot s i
      let w := String.ofList (word.map Char.toLower)
      if abbreviations.contains w || isDottedAcronym word then false
      else if numberAbbreviations.contains w && (nextNonSpace s (i + 1)).any T.digit then false
      else if unitAbbreviations.contains w && (nextNonSpace s (i + 1)).any isKey then false
      else true
    else true

/-- The ends of `(?:\s?TAG)*` from `e` on. -/
def tagEnds (s : Text) : Nat → Nat → List Nat
  | 0, e => [e]
  | fuel + 1, e =>
    let at' := if s[e]?.any isSpace then e + 1 else e
    match tagLength? (s.drop at') with
    | none => [e]
    | some n => e :: tagEnds s fuel (at' + n)

def endsHere (s : Text) (e : Nat) : Bool := e == s.length || s[e]?.any isSpace

/-- `_sentence_end_matches`: the mark run, its closers and the longest run of tags after which whitespace or the end follows. -/
def endMatches (s : Text) : Nat → Nat → List (Nat × Nat)
  | 0, _ => []
  | fuel + 1, i =>
    match s[i]? with
    | none => []
    | some c =>
      if endMark c then
        let j := runEnd endMark s (i + 1)
        match (tagEnds s s.length (runEnd closer s j)).reverse.find? (endsHere s) with
        | some e => (i, e) :: endMatches s fuel e
        | none => endMatches s fuel j
      else endMatches s fuel (i + 1)

/-! ## Sentences of a line -/

/-- The sentences from `cur` on, for the ends found; `stop` is the end of the line without its trailing space. -/
def sentencesFrom (T : Tables) (line : Text) (stop : Nat) : List (Nat × Nat) → Nat → List (Nat × Nat)
  | [], cur => if cur < stop then [(cur, stop)] else []
  | (i, e) :: ends, cur =>
    if isSentenceEnd T line i then
      (if cur < e then [(cur, e)] else []) ++
        sentencesFrom T line stop ends (runEnd (· == ' ') (line.take stop) e)
    else sentencesFrom T line stop ends cur

/-- Whether the line is in the FAQ, and its sentences. -/
def lineSpans (T : Tables) (inFaq : Bool) (line : Text) : Bool × List (Nat × Nat × Kind) :=
  let stripped := strip line
  let lead := (line.takeWhile isSpace).length
  let stop := (rstrip line).length
  let sentences (lead : Nat) (kind : Kind) : Bool × List (Nat × Nat × Kind) :=
    let lead := runEnd (· == ' ') line lead
    (inFaq, (sentencesFrom T line stop (endMatches line line.length lead) lead).map fun r => (r.1, r.2, kind))
  if stripped.isEmpty then (inFaq, [])
  else if isHeading stripped then
    ((strip (stripped.dropWhile (· == '#'))).map Char.toLower == "faq".toList, [(lead, stop, .heading)])
  else if isHashtagLine stripped then (inFaq, [(lead, stop, .hashtags)])
  else if "**Q:".toList.isPrefixOf stripped then (inFaq, [(lead, stop, .faqQ)])
  else if "A:".toList.isPrefixOf stripped then sentences (lead + 2) .faqA
  else if "- ".toList.isPrefixOf stripped || "* ".toList.isPrefixOf stripped then sentences (lead + 2) .bullet
  else sentences lead .prose

/-- `_span`. -/
def spanOf (T : Tables) (line : Text) (pos : Nat) (inFaq : Bool) (r : Nat × Nat × Kind) : Span :=
  let raw := slice line r.1 r.2.1
  ⟨pos + r.1, pos + r.2.1, raw, oneLine (stripTags T.toCharClasses raw), r.2.2, inFaq⟩

def spansFrom (T : Tables) : List Text → Nat → Bool → List Span
  | [], _, _ => []
  | line :: rest, pos, inFaq =>
    let r := lineSpans T inFaq line
    r.2.map (spanOf T line pos r.1) ++ spansFrom T rest (pos + line.length + 1) r.1

def sentenceSpans (T : Tables) (text : Text) : List Span := spansFrom T (lines text) 0 false

/-! ## Where a sentence stands -/

/-- What stands before a sentence ends in a break, with the tags of the sentence before. -/
def Seam (p : Text) : Prop :=
  p = [] ∨ ∃ x c y, p = x ++ c :: y ∧ breaks c = true ∧ TagRun y ∧ (isSpace c = true → y = [])

theorem Seam.concat {x : Text} {c : Char} (h : breaks c = true) : Seam (x ++ [c]) :=
  Or.inr ⟨x, c, [], rfl, h, TagRun.nil, fun _ => rfl⟩

variable (p : Char → Bool)

theorem take_runEnd (s : Text) (j : Nat) : s.take (runEnd p s j) = s.take j ++ (s.drop j).takeWhile p := by
  unfold runEnd
  rw [take_add, prefix_iff_eq_take.1 ( takeWhile_prefix p) |>.symm]

theorem runEnd_le (s : Text) {j : Nat} (hj : j ≤ s.length) : runEnd p s j ≤ s.length := by
  unfold runEnd
  have := ( takeWhile_prefix (l := s.drop j) p).length_le
  rw [length_drop] at this
  omega

theorem le_runEnd (s : Text) (j : Nat) : j ≤ runEnd p s j := Nat.le_add_right _ _

theorem runEnd_cases (s : Text) (j : Nat) : runEnd p s j = j ∨ ∃ x c, p c = true ∧ s.take (runEnd p s j) = x ++ [c] := by
  rcases eq_nil_or_concat ((s.drop j).takeWhile p) with h | ⟨x, c, h⟩
  · left
    unfold runEnd
    rw [h]
    rfl
  · right
    rw [concat_eq_append] at h
    refine ⟨s.take j ++ x, c, ?_, ?_⟩
    · exact mem_takeWhile_imp (h ▸ mem_append_right x (mem_singleton_self c))
    · rw [take_runEnd, h, append_assoc]

theorem tagLength?_take {s : Text} {n : Nat} (h : tagLength? s = some n) :
    n ≤ s.length ∧ tagLength? (s.take n) = some (s.take n).length := by
  unfold tagLength? at h
  cases hb : tagBody? s with
  | none => rw [hb] at h; cases h
  | some b =>
    rw [hb] at h
    dsimp only at h
    split at h
    · next hcond =>
      obtain ⟨hids, hclosed⟩ := Bool.and_eq_true_iff.1 hcond
      obtain ⟨k, hk, rfl⟩ := tagBody?_eq_some hb
      have hn := Option.some.inj h
      subst hn
      rw [beq_iff_eq, List.head?_eq_some_iff] at hclosed
      obtain ⟨r, hr⟩ := hclosed
      have hsplit := take_append_drop (b.takeWhile plainTagChar).length b
      rw [(prefix_iff_eq_take.1 ( takeWhile_prefix (l := b) plainTagChar)).symm, hr] at hsplit
      have hlen : (b.takeWhile plainTagChar).length + 1 ≤ b.length := by
        have := congrArg List.length hsplit
        rw [length_append, length_cons] at this
        omega
      have htake : b.take ((b.takeWhile plainTagChar).length + 1) = b.takeWhile plainTagChar ++ [']'] := by
        have := congrArg (List.take ((b.takeWhile plainTagChar).length + 1)) hsplit
        rw [take_length_add_append] at this
        exact this.symm
      refine ⟨by simp only [length_cons]; omega, ?_⟩
      have hall : ∀ c ∈ b.takeWhile plainTagChar, plainTagChar c = true := fun c hc => mem_takeWhile_imp hc
      have hrun : (b.takeWhile plainTagChar ++ [']']).takeWhile plainTagChar = b.takeWhile plainTagChar := by
        rw [takeWhile_append_of_pos hall]
        show _ ++ [] = _
        exact append_nil _
      show tagLength? ('[' :: k :: ':' :: b.take ((b.takeWhile plainTagChar).length + 1)) =
        some ('[' :: k :: ':' :: b.take ((b.takeWhile plainTagChar).length + 1)).length
      have hbody : tagBody? ('[' :: k :: ':' :: b.take ((b.takeWhile plainTagChar).length + 1)) =
          some (b.takeWhile plainTagChar ++ [']']) := by
        rw [htake]
        rcases hk with rfl | rfl <;> rfl
      unfold tagLength?
      rw [hbody]
      dsimp only
      rw [hrun, drop_left, hids, htake]
      simp
    · cases h

theorem tagLength?_pos {s : Text} {n : Nat} (h : tagLength? s = some n) : 0 < n := by
  unfold tagLength? at h
  split at h
  · cases h
  · dsimp only at h
    split at h
    · rw [← Option.some.inj h]
      omega
    · cases h

theorem tagEnds_run (s : Text) (fuel : Nat) {k e : Nat} (hk : k ≤ s.length) (h : e ∈ tagEnds s fuel k) :
    k ≤ e ∧ e ≤ s.length ∧ ∃ y, TagRun y ∧ s.take e = s.take k ++ y := by
  induction fuel generalizing k with
  | zero =>
    obtain rfl := mem_singleton.1 h
    exact ⟨le_rfl, hk, [], TagRun.nil, (append_nil _).symm⟩
  | succ fuel ih =>
    have hself : k ≤ k ∧ k ≤ s.length ∧ ∃ y, TagRun y ∧ s.take k = s.take k ++ y :=
      ⟨le_rfl, hk, [], TagRun.nil, (append_nil _).symm⟩
    unfold tagEnds at h
    dsimp only at h
    -- the space before the tag
    obtain ⟨at', hat, w, hw, hatw⟩ : ∃ at', (if s[k]?.any isSpace then k + 1 else k) = at' ∧
        ∃ w, (w = [] ∨ ∃ c, isSpace c = true ∧ w = [c]) ∧ at' = k + w.length ∧ s.take at' = s.take k ++ w := by
      split
      · next hspace =>
        obtain ⟨c, hc, hspacec⟩ := (Option.any_eq_true _ _).1 hspace
        refine ⟨k + 1, rfl, [c], Or.inr ⟨c, hspacec, rfl⟩, rfl, ?_⟩
        rw [take_add_one, hc]
        rfl
      · exact ⟨k, rfl, [], Or.inl rfl, rfl, (append_nil _).symm⟩
    rw [hat] at h
    cases hn : tagLength? (s.drop at') with
    | none =>
      rw [hn] at h
      obtain rfl := mem_singleton.1 h
      exact hself
    | some n =>
      rw [hn] at h
      rcases mem_cons.1 h with rfl | h
      · exact hself
      · obtain ⟨hle, htag⟩ := tagLength?_take hn
        have hpos := tagLength?_pos hn
        rw [length_drop] at hle
        obtain ⟨hge, hle', y, hy, htake⟩ := ih (by omega) h
        refine ⟨by omega, hle', w ++ (s.drop at').take n ++ y, TagRun.tag hw htag hy, ?_⟩
        rw [htake, take_add, hatw.2]
        simp only [append_assoc]

theorem endMatches_spec (s : Text) (fuel : Nat) {i a e : Nat} (hi : i ≤ s.length) (h : (a, e) ∈ endMatches s fuel i) :
    e ≤ s.length ∧ endsHere s e = true ∧
      ∃ x c y, s.take e = x ++ c :: y ∧ (endMark c = true ∨ closer c = true) ∧ TagRun y := by
  induction fuel generalizing i with
  | zero => cases h
  | succ fuel ih =>
    unfold endMatches at h
    cases hc : s[i]? with
    | none => rw [hc] at h; cases h
    | some c =>
      rw [hc] at h
      dsimp only at h
      obtain ⟨hlt, hci⟩ := List.getElem?_eq_some_iff.1 hc
      by_cases hmark : endMark c = true
      · rw [if_pos hmark] at h
        have hj := runEnd_le endMark s (show i + 1 ≤ s.length by omega)
        have hk := runEnd_le closer s hj
        cases hfind : (tagEnds s s.length (runEnd closer s (runEnd endMark s (i + 1)))).reverse.find? (endsHere s) with
        | none =>
          rw [hfind] at h
          exact ih hj h
        | some e' =>
          rw [hfind] at h
          have hmem := mem_reverse.1 (List.mem_of_find?_eq_some hfind)
          have hhere := List.find?_some hfind
          obtain ⟨hge, hle, y, hy, htake⟩ := tagEnds_run s _ hk hmem
          rcases mem_cons.1 h with heq | h
          · obtain ⟨rfl, rfl⟩ := Prod.mk.inj heq
            refine ⟨hle, hhere, ?_⟩
            -- the last character before the tags is a closer or a mark
            have hlast : ∃ x d, s.take (runEnd closer s (runEnd endMark s (a + 1))) = x ++ [d] ∧
                (endMark d = true ∨ closer d = true) := by
              rcases runEnd_cases closer s (runEnd endMark s (a + 1)) with heq | ⟨x, d, hd, hx⟩
              · rw [heq]
                rcases runEnd_cases endMark s (a + 1) with heq' | ⟨x, d, hd, hx⟩
                · rw [heq']
                  exact ⟨s.take a, c, by rw [take_add_one, hc]; rfl, Or.inl hmark⟩
                · exact ⟨x, d, hx, Or.inl hd⟩
              · exact ⟨x, d, hx, Or.inr hd⟩
            obtain ⟨x, d, hx, hd⟩ := hlast
            exact ⟨x, d, y, by rw [htake, hx, append_assoc, singleton_append], hd, hy⟩
          · exact ih hle h
      · rw [if_neg hmark] at h
        exact ih (by omega) h

theorem mark_not_space {c : Char} (h : endMark c = true ∨ closer c = true) : isSpace c = false := by
  unfold endMark closer at h
  simp only [Bool.or_eq_true, beq_iff_eq] at h
  rcases h with (((rfl | rfl) | rfl) | rfl) | (((((rfl | rfl) | rfl) | rfl) | rfl) | rfl) <;> decide

theorem endsHere_rstrip (line : Text) : (rstrip line).length ≤ line.length ∧ endsHere line (rstrip line).length = true := by
  unfold rstrip rstripOf
  have hsplit := takeWhile_append_dropWhile (p := isSpace) (l := line.reverse)
  have hline : line = (line.reverse.dropWhile isSpace).reverse ++ (line.reverse.takeWhile isSpace).reverse := by
    rw [← reverse_append, hsplit, reverse_reverse]
  have hlen := congrArg List.length hline
  rw [length_append] at hlen
  refine ⟨by omega, ?_⟩
  unfold endsHere
  rw [Bool.or_eq_true, beq_iff_eq]
  cases hw : (line.reverse.takeWhile isSpace).reverse with
  | nil =>
    left
    rw [hw] at hlen
    exact hlen.symm
  | cons c w =>
    right
    have hc : isSpace c = true :=
      mem_takeWhile_imp (mem_reverse.1 (hw ▸ mem_cons_self))
    have hget := congrArg (fun l => l[(line.reverse.dropWhile isSpace).reverse.length]?) hline
    rw [hw, List.getElem?_append_right le_rfl, Nat.sub_self] at hget
    rw [hget]
    exact hc

/-- A sentence of a line: its seams. -/
structure Cut (line : Text) (a b : Nat) : Prop where
  lt : a < b
  le : b ≤ line.length
  seam : Seam (line.take a)
  ends : endsHere line b = true

variable (T : Tables)

theorem sentencesFrom_cut (line : Text) {ends : List (Nat × Nat)} {cur : Nat}
    (hends : ∀ r ∈ ends, r.2 ≤ line.length ∧ endsHere line r.2 = true ∧
      ∃ x c y, line.take r.2 = x ++ c :: y ∧ (endMark c = true ∨ closer c = true) ∧ TagRun y)
    (hcur : Seam (line.take cur)) {r : Nat × Nat} (h : r ∈ sentencesFrom T line (rstrip line).length ends cur) :
    Cut line r.1 r.2 := by
  obtain ⟨hstop, hstopEnds⟩ := endsHere_rstrip line
  induction ends generalizing cur with
  | nil =>
    unfold sentencesFrom at h
    split at h
    · next hlt =>
      obtain rfl := mem_singleton.1 h
      exact ⟨hlt, hstop, hcur, hstopEnds⟩
    · cases h
  | cons m ends ih =>
    obtain ⟨i, e⟩ := m
    obtain ⟨hle, hhere, x, c, y, htake, hc, hy⟩ := hends _ mem_cons_self
    have ih := fun {cur} => @ih cur fun r hr => hends r (mem_cons_of_mem _ hr)
    unfold sentencesFrom at h
    split at h
    · rcases mem_append.1 h with h | h
      · split at h
        · next hlt =>
          obtain rfl := mem_singleton.1 h
          exact ⟨hlt, hle, hcur, hhere⟩
        · cases h
      · refine ih ?_ h
        -- the next sentence starts after the spaces
        have hbreaks : breaks c = true := by
          unfold breaks
          rcases hc with hc | hc <;> rw [hc] <;> simp
        have hseam : Seam (line.take e) :=
          Or.inr ⟨x, c, y, htake, hbreaks, hy, fun hspace => by rw [mark_not_space hc] at hspace; cases hspace⟩
        by_cases hes : e ≤ (line.take (rstrip line).length).length
        · rcases runEnd_cases (· == ' ') (line.take (rstrip line).length) e with heq | ⟨x', d, hd, hx'⟩
          · rw [heq]
            exact hseam
          · have hle' := runEnd_le (· == ' ') (line.take (rstrip line).length) hes
            rw [take_take, Nat.min_eq_left (hle'.trans (by rw [length_take]; exact Nat.min_le_left _ _))] at hx'
            rw [hx', beq_iff_eq.1 hd]
            exact Seam.concat (by decide)
        · have heq : runEnd (· == ' ') (line.take (rstrip line).length) e = e := by
            unfold runEnd
            rw [drop_eq_nil_of_le (by omega)]
            rfl
          rw [heq]
          exact hseam
    · exact ih hcur h

theorem lineSpans_prose (inFaq : Bool) (line : Text) {r : Nat × Nat × Kind}
    (h : r ∈ (lineSpans T inFaq line).2) (hr : r.2.2 = .prose) : Cut line r.1 r.2.1 := by
  have hlead : Seam (line.take (line.takeWhile isSpace).length) := by
    rw [(prefix_iff_eq_take.1 ( takeWhile_prefix isSpace)).symm]
    rcases eq_nil_or_concat (line.takeWhile isSpace) with heq | ⟨x, c, heq⟩
    · exact Or.inl heq
    · rw [concat_eq_append] at heq
      have hc : isSpace c = true := mem_takeWhile_imp (heq ▸ mem_append_right x (mem_singleton_self c))
      rw [heq]
      refine Seam.concat ?_
      unfold breaks
      rw [hc]
      rfl
  have hleadle : (line.takeWhile isSpace).length ≤ line.length := ( takeWhile_prefix isSpace).length_le
  unfold lineSpans at h
  dsimp only at h
  split at h
  · cases h
  split at h
  · rw [mem_singleton.1 h] at hr; cases hr
  split at h
  · rw [mem_singleton.1 h] at hr; cases hr
  split at h
  · rw [mem_singleton.1 h] at hr; cases hr
  split at h
  · obtain ⟨r', -, rfl⟩ := mem_map.1 h
    cases hr
  split at h
  · obtain ⟨r', -, rfl⟩ := mem_map.1 h
    cases hr
  obtain ⟨r', hr', rfl⟩ := mem_map.1 h
  have hstart : Seam (line.take (runEnd (· == ' ') line (line.takeWhile isSpace).length)) := by
    rcases runEnd_cases (· == ' ') line (line.takeWhile isSpace).length with heq | ⟨x, d, hd, hx⟩
    · rw [heq]
      exact hlead
    · rw [hx, beq_iff_eq.1 hd]
      exact Seam.concat (by decide)
  refine sentencesFrom_cut T line (fun m hm => ?_) hstart hr'
  exact endMatches_spec line _ (runEnd_le _ _ hleadle) hm

theorem mem_spansFrom {ls : List Text} {pos : Nat} {inFaq : Bool} {s : Span} (h : s ∈ spansFrom T ls pos inFaq) :
    ∃ A l B a b, ls = A ++ l :: B ∧ s.start = pos + (linesBefore A).length + a ∧
      s.stop = pos + (linesBefore A).length + b ∧ s.text = slice l a b ∧
      ∃ inFaq', (a, b, s.kind) ∈ (lineSpans T inFaq' l).2 := by
  induction ls generalizing pos inFaq with
  | nil => cases h
  | cons l ls ih =>
    rcases mem_append.1 h with h | h
    · obtain ⟨⟨a, b, k⟩, hr, rfl⟩ := mem_map.1 h
      exact ⟨[], l, ls, a, b, rfl, rfl, rfl, rfl, inFaq, hr⟩
    · obtain ⟨A, m, B, a, b, rfl, hstart, hstop, htext, hmem⟩ := ih h
      have hlen : (linesBefore (l :: A)).length = l.length + 1 + (linesBefore A).length := by
        unfold linesBefore
        rw [flatMap_cons, length_append, length_append]
        rfl
      exact ⟨l :: A, m, B, a, b, rfl, by rw [hstart, hlen]; omega, by rw [hstop, hlen]; omega, htext, hmem⟩

theorem mem_sentenceSpans {text : Text} {s : Span} (h : s ∈ sentenceSpans T text) :
    ∃ A l B a b, lines text = A ++ l :: B ∧ s.start = (linesBefore A).length + a ∧ s.stop = (linesBefore A).length + b ∧
      s.text = slice l a b ∧ ∃ inFaq', (a, b, s.kind) ∈ (lineSpans T inFaq' l).2 := by
  obtain ⟨A, l, B, a, b, hls, hstart, hstop, htext, hmem⟩ := mem_spansFrom T h
  rw [Nat.zero_add] at hstart hstop
  exact ⟨A, l, B, a, b, hls, hstart, hstop, htext, hmem⟩

end CisApp.Hygiene
