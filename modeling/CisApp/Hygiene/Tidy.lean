import CisApp.Hygiene.Sentences

/-! Tidying a text after a cut.

`tidy_after_cut` of `services/acp_content_writing/hygiene.py`: the spaces of every line, bare markers, headings over nothing and
blank lines.  Lines are told apart by what is left of them without the space around it, and tidying the spaces of a line does not
change what it is (`strip_tidySpaces` and what follows it). -/

namespace CisApp.Hygiene

open Lib Repair List

/-! ## Spaces of a line -/

/-- `re.sub(r"^ (?=\S)", "", s)`. -/
def dropStray : Text → Text
  | ' ' :: c :: s => if isSpace c then ' ' :: c :: s else c :: s
  | s => s

inductive Behind
  | ink
  | gap
  | other
  deriving DecidableEq

/-- `re.sub(r"(?<=\S) {2,}", " ", s)`: of the spaces behind a character that is not whitespace, the first stays. -/
def collapse : Behind → Text → Text
  | _, [] => []
  | b, c :: s =>
    if c == ' ' then
      match b with
      | .ink => ' ' :: collapse .gap s
      | .gap => collapse .gap s
      | .other => ' ' :: collapse .other s
    else c :: collapse (if isSpace c then .other else .ink) s

def tidySpaces (line : Text) : Text := collapse .other (dropStray (rstrip line))

/-! ## Lines -/

def isBlank (line : Text) : Bool := (strip line).isEmpty

/-- `s == "A:"`. -/
def isBareAnswer (line : Text) : Bool := strip line == "A:".toList

/-- `s in ("A:", "-", "*")`. -/
def isBare (line : Text) : Bool := isBareAnswer line || strip line == "-".toList || strip line == "*".toList

def isQuestion (line : Text) : Bool := "**Q:".toList.isPrefixOf (strip line)

def isHeadingLine (line : Text) : Bool := isHeading (strip line)

/-- `len(s) - len(s.lstrip("#"))`. -/
def levelOf (line : Text) : Nat := ((strip line).takeWhile (· == '#')).length

/-- The loop that drops bare lines, and a question right above a bare answer. -/
def keepLines : List Text → List Text → List Text
  | kept, [] => kept
  | kept, line :: rest =>
    if isBare line then
      keepLines (if isBareAnswer line && kept.getLast?.any isQuestion then kept.dropLast else kept) rest
    else keepLines (kept ++ [line]) rest

/-- The heading at the top has nothing below it: the next line that is not blank is missing or a heading that ends the section. -/
def overNothing (level : Nat) (below : List Text) : Bool :=
  match below.find? fun l => !isBlank l with
  | none => true
  | some next => isHeadingLine next && decide (levelOf next ≤ level)

def dropHeadings : List Text → List Text
  | [] => []
  | line :: rest =>
    if isHeadingLine line && overNothing (levelOf line) rest then dropHeadings rest else line :: dropHeadings rest

/-- `re.sub(r"\n{3,}", "\n\n", s)`, where `n` newlines stand right before. -/
def squeeze : Nat → Text → Text
  | _, [] => []
  | n, c :: s => if c == '\n' then if n < 2 then '\n' :: squeeze (n + 1) s else squeeze n s else c :: squeeze 0 s

def tidyLines (ls : List Text) : List Text := dropHeadings (keepLines [] (ls.map tidySpaces))

def tidyAfterCut (text : Text) : Text :=
  let tidy := stripOf (· == '\n') (squeeze 0 (unlines (tidyLines (lines text))))
  tidy ++ if text.getLast? == some '\n' && !tidy.isEmpty then ['\n'] else []

/-! ## What tidying the spaces leaves of a line -/

theorem collapse_cons (b : Behind) (c : Char) (s : Text) : collapse b (c :: s) =
    if c == ' ' then
      match b with
      | .ink => ' ' :: collapse .gap s
      | .gap => collapse .gap s
      | .other => ' ' :: collapse .other s
    else c :: collapse (if isSpace c then .other else .ink) s := rfl

theorem collapse_ink {c : Char} (hc : isSpace c = false) (b : Behind) (s : Text) :
    collapse b (c :: s) = c :: collapse .ink s := by
  have hne : ¬(c == ' ') = true := by
    rw [beq_iff_eq]
    rintro rfl
    revert hc
    decide
  rw [collapse_cons, if_neg hne, hc, if_neg Bool.false_ne_true]

variable {w : Text}

theorem collapse_lead (hw : ∀ c ∈ w, isSpace c = true) (s : Text) : collapse .other (w ++ s) = w ++ collapse .other s := by
  induction w with
  | nil => rfl
  | cons c w ih =>
    have hc := hw c mem_cons_self
    have ih := ih fun d hd => hw d (mem_cons_of_mem c hd)
    rw [cons_append, cons_append, ← ih, collapse_cons, hc]
    split
    · next heq => rw [beq_iff_eq.1 heq]
    · rfl

theorem collapse_concat {c : Char} (hc : isSpace c = false) (b : Behind) (s : Text) :
    ∃ t, collapse b (s ++ [c]) = t ++ [c] := by
  induction s generalizing b with
  | nil => exact ⟨[], collapse_ink hc b []⟩
  | cons d s ih =>
    rw [cons_append, collapse_cons]
    split
    · obtain ⟨t, ht⟩ := ih .gap
      obtain ⟨t', ht'⟩ := ih .other
      cases b with
      | ink => exact ⟨' ' :: t, by rw [ht]; rfl⟩
      | gap => exact ⟨t, ht⟩
      | other => exact ⟨' ' :: t', by rw [ht']; rfl⟩
    · obtain ⟨t, ht⟩ := ih (if isSpace d then .other else .ink)
      exact ⟨d :: t, by rw [ht]; rfl⟩

theorem collapse_collapse (b : Behind) (s : Text) : collapse b (collapse b s) = collapse b s := by
  induction s generalizing b with
  | nil => rfl
  | cons c s ih =>
    by_cases hc : (c == ' ') = true
    · rw [collapse_cons, if_pos hc]
      cases b with
      | ink =>
        rw [collapse_cons, if_pos (by decide)]
        rw [ih]
      | gap => exact ih .gap
      | other =>
        rw [collapse_cons, if_pos (by decide)]
        rw [ih]
    · rw [collapse_cons, if_neg hc, collapse_cons, if_neg hc, ih]

theorem prefix_collapse_iff (hw : w.all (fun c => !isSpace c) = true) {b : Behind} (hb : b ≠ .gap) (s : Text) :
    w <+: collapse b s ↔ w <+: s := by
  induction w generalizing b s with
  | nil => simp
  | cons c w ih =>
    rw [all_cons, Bool.and_eq_true, Bool.not_eq_true'] at hw
    obtain ⟨hc, hw⟩ := hw
    have ih := @ih hw .ink (by decide)
    cases s with
    | nil => rfl
    | cons d s =>
      by_cases hd : d = c
      · subst hd
        rw [collapse_ink hc, cons_prefix_cons, cons_prefix_cons, ih]
      · have hhead : (collapse b (d :: s)).head? = some d := by
          rw [collapse_cons]
          split
          · next heq =>
            rw [beq_iff_eq.1 heq]
            cases b with
            | ink => rfl
            | gap => exact absurd rfl hb
            | other => rfl
          · rfl
        obtain ⟨r, hr⟩ := List.head?_eq_some_iff.1 hhead
        rw [hr, cons_prefix_cons, cons_prefix_cons]
        simp [Ne.symm hd]

variable {s : Text}

theorem collapse_eq_nil {b : Behind} (hb : b ≠ .gap) : collapse b s = [] ↔ s = [] := by
  cases s with
  | nil => simp [collapse]
  | cons c s =>
    rw [collapse_cons]
    split
    · cases b with
      | ink => simp
      | gap => exact absurd rfl hb
      | other => simp
    · simp

/-! ## Stripped lines -/

theorem trim_collapse (hs : Trim isSpace s) : Trim isSpace (collapse .other s) := by
  rcases eq_nil_or_concat s with rfl | ⟨t, z, hz⟩
  · exact hs
  · rw [concat_eq_append] at hz
    have hlast : isSpace z = false := hs.2 z (by rw [hz]; simp)
    obtain ⟨t', ht'⟩ := collapse_concat hlast .other t
    constructor
    · intro c hc
      cases s with
      | nil => cases hc
      | cons d s =>
        have hd := hs.1 d rfl
        rw [collapse_ink hd] at hc
        rwa [← Option.some.inj hc]
    · intro c hc
      rw [hz, ht', List.getLast?_concat] at hc
      rwa [← Option.some.inj hc]

theorem dropStray_rstrip (hne : s ≠ []) (hs : Trim isSpace s) (hw : ∀ c ∈ w, isSpace c = true) :
    rstrip (w ++ s) = w ++ s ∧ dropStray (w ++ s) = (if w = [' '] then s else w ++ s) := by
  obtain ⟨d, s, rfl⟩ := exists_cons_of_ne_nil hne
  have hd := hs.1 d rfl
  constructor
  · refine rstripOf_trim fun c hc => hs.2 c ?_
    rwa [List.getLast?_append_of_ne_nil _ (cons_ne_nil d s)] at hc
  · have hdne : d ≠ ' ' := by
      rintro rfl
      revert hd
      decide
    cases w with
    | nil =>
      unfold dropStray
      split
      · next heq => exact absurd (List.cons.inj heq).1 hdne
      · rfl
    | cons c w =>
      cases w with
      | nil =>
        by_cases hc : c = ' '
        · subst hc
          rw [if_pos rfl]
          show (if isSpace d then _ else _) = _
          rw [hd, if_neg Bool.false_ne_true]
        · rw [if_neg (by simpa using hc)]
          unfold dropStray
          split
          · next heq => exact absurd (List.cons.inj heq).1 hc
          · rfl
      | cons e w =>
        have he : isSpace e = true := hw e (by simp)
        rw [if_neg (by simp)]
        unfold dropStray
        split
        · next heq =>
          obtain ⟨rfl, rfl⟩ := List.cons.inj (List.cons.inj heq).2
          rw [if_pos he, heq]
        · rfl

theorem rstrip_of_spaces (h : strip s = []) : rstrip s = [] := by
  obtain ⟨w, hw, hspace⟩ := strip_parts s
  rw [h, append_nil] at hw
  rw [hw, ← nil_append (s.takeWhile isSpace ++ w)]
  unfold rstrip
  rw [rstripOf_append fun c hc => ?_]
  · rfl
  · rcases mem_append.1 hc with hc | hc
    · exact mem_takeWhile_imp hc
    · exact hspace c hc

variable (line : Text)

theorem tidySpaces_parts : ∃ w, (∀ c ∈ w, isSpace c = true) ∧ w ≠ [' '] ∧ (strip line = [] → w = []) ∧
      tidySpaces line = w ++ collapse .other (strip line) := by
  by_cases hnil : strip line = []
  · refine ⟨[], by simp, by simp, fun _ => rfl, ?_⟩
    unfold tidySpaces
    rw [rstrip_of_spaces hnil, hnil]
    rfl
  · obtain ⟨z, hz, hspace⟩ := strip_parts line
    have htrim : Trim isSpace (strip line) := trim_stripOf isSpace line
    have hlead : ∀ c ∈ line.takeWhile isSpace, isSpace c = true := fun c hc => mem_takeWhile_imp hc
    obtain ⟨hrstrip, hstray⟩ := dropStray_rstrip hnil htrim hlead
    have hline : rstrip line = line.takeWhile isSpace ++ strip line := by
      rw [← hrstrip]
      nth_rw 1 [hz]
      exact rstripOf_append hspace _
    unfold tidySpaces
    rw [hline, hstray]
    split
    · exact ⟨[], by simp, by simp, fun _ => rfl, rfl⟩
    · next hne => exact ⟨line.takeWhile isSpace, hlead, hne, fun h => absurd h hnil, collapse_lead hlead _⟩

theorem strip_tidySpaces : strip (tidySpaces line) = collapse .other (strip line) := by
  obtain ⟨w, hw, -, -, hparts⟩ := tidySpaces_parts line
  have htrim := trim_collapse (trim_stripOf isSpace line)
  have := stripOf_trim hw (z := []) (by simp) htrim
  rw [append_nil] at this
  rw [hparts]
  exact this

theorem tidySpaces_tidySpaces : tidySpaces (tidySpaces line) = tidySpaces line := by
  obtain ⟨w, hw, hne, hnil, hparts⟩ := tidySpaces_parts line
  have htrim := trim_collapse (trim_stripOf isSpace line)
  rw [hparts]
  by_cases hempty : strip line = []
  · rw [hnil hempty, hempty]
    rfl
  · have hcollapse : collapse .other (strip line) ≠ [] := fun h => hempty ((collapse_eq_nil (by decide)).1 h)
    obtain ⟨hrstrip, hstray⟩ := dropStray_rstrip hcollapse htrim hw
    unfold tidySpaces
    rw [hrstrip, hstray, if_neg hne, collapse_lead hw, collapse_collapse]

theorem isBlank_tidySpaces : isBlank (tidySpaces line) = isBlank line := by
  unfold isBlank
  rw [strip_tidySpaces, Bool.eq_iff_iff, List.isEmpty_iff, List.isEmpty_iff]
  exact collapse_eq_nil (by decide)

theorem isQuestion_tidySpaces : isQuestion (tidySpaces line) = isQuestion line := by
  unfold isQuestion
  rw [strip_tidySpaces, Bool.eq_iff_iff, isPrefixOf_iff_prefix, isPrefixOf_iff_prefix]
  exact prefix_collapse_iff (by decide) (by decide) _

theorem collapse_eq_word_iff (hw : w.all (fun c => !isSpace c) = true) (s : Text) : collapse .other s = w ↔ s = w := by
  have hall : ∀ {w : Text}, w.all (fun c => !isSpace c) = true → ∀ (b : Behind) (r : Text), b ≠ .gap →
      ∃ b', b' ≠ .gap ∧ collapse b (w ++ r) = w ++ collapse b' r := by
    intro w hw
    induction w with
    | nil => exact fun b r hb => ⟨b, hb, rfl⟩
    | cons c w ih =>
      intro b r hb
      rw [all_cons, Bool.and_eq_true, Bool.not_eq_true'] at hw
      obtain ⟨b', hb', h⟩ := ih hw.2 .ink r (by decide)
      exact ⟨b', hb', by rw [cons_append, collapse_ink hw.1, h]; rfl⟩
  constructor
  · intro h
    obtain ⟨r, rfl⟩ := (prefix_collapse_iff hw (by decide) s).1 (h ▸ prefix_rfl : w <+: collapse .other s)
    obtain ⟨b', hb', heq⟩ := hall hw .other r (by decide)
    rw [heq] at h
    have hr := append_cancel_left (h.trans (append_nil w).symm)
    rw [(collapse_eq_nil hb').1 hr, append_nil]
  · rintro rfl
    obtain ⟨b', -, heq⟩ := hall hw .other [] (by decide)
    rw [append_nil] at heq
    rw [heq]
    exact append_nil _

theorem isBareAnswer_tidySpaces : isBareAnswer (tidySpaces line) = isBareAnswer line := by
  unfold isBareAnswer
  rw [strip_tidySpaces, Bool.eq_iff_iff, beq_iff_eq, beq_iff_eq]
  exact collapse_eq_word_iff (by decide) _

theorem isBare_tidySpaces : isBare (tidySpaces line) = isBare line := by
  unfold isBare
  rw [isBareAnswer_tidySpaces, strip_tidySpaces, Bool.eq_iff_iff]
  simp only [Bool.or_eq_true, beq_iff_eq]
  rw [collapse_eq_word_iff (by decide), collapse_eq_word_iff (by decide)]

theorem hashes_collapse (s : Text) (b : Behind) (hb : b ≠ .gap) :
    ((collapse b s).takeWhile (· == '#')).length = (s.takeWhile (· == '#')).length ∧
      ((collapse b s).drop (s.takeWhile (· == '#')).length).head? = (s.drop (s.takeWhile (· == '#')).length).head? := by
  induction s generalizing b with
  | nil => exact ⟨rfl, rfl⟩
  | cons c s ih =>
    by_cases hc : c = '#'
    · subst hc
      obtain ⟨hlen, hhead⟩ := ih .ink (by decide)
      refine ⟨congrArg (· + 1) hlen, hhead⟩
    · have hnot : ¬(c == '#') = true := by simpa using hc
      have hhead : ∃ r, collapse b (c :: s) = c :: r := by
        rw [collapse_cons]
        split
        · next heq =>
          rw [beq_iff_eq.1 heq]
          cases b with
          | ink => exact ⟨_, rfl⟩
          | gap => exact absurd rfl hb
          | other => exact ⟨_, rfl⟩
        · exact ⟨_, rfl⟩
      obtain ⟨r, hr⟩ := hhead
      rw [hr, takeWhile_cons_of_neg (p := (· == '#')) hnot, takeWhile_cons_of_neg (p := (· == '#')) hnot]
      exact ⟨rfl, rfl⟩

theorem levelOf_tidySpaces : levelOf (tidySpaces line) = levelOf line := by
  unfold levelOf
  rw [strip_tidySpaces]
  exact (hashes_collapse _ _ (by decide)).1

theorem isHeadingLine_tidySpaces : isHeadingLine (tidySpaces line) = isHeadingLine line := by
  obtain ⟨hlen, hhead⟩ := hashes_collapse (strip line) .other (by decide)
  unfold isHeadingLine isHeading
  rw [strip_tidySpaces]
  dsimp only
  rw [hlen, hhead]

end CisApp.Hygiene
