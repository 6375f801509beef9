import CisApp.Hygiene.Sections

/-! A tidied text is tidy.

What `tidy_after_cut` should leave, and when it does (`tidy_after_cut_tidies`).  It looks at every heading and at every question
once: a heading over a deeper heading that goes, and a question that a blank line parts from its empty answer, stay. -/

namespace CisApp.Hygiene

open Lib Repair List

/-! ## What is tidy -/

def endsSection (n : Nat) (l : Text) : Bool := isHeadingLine l && decide (levelOf l ≤ n)

/-- Nothing stands below a heading of this level but blank lines and headings over nothing, until its section ends. -/
inductive EmptyBelow : Nat → List Text → Prop
  | intro {n : Nat} {below : List Text}
      (heading : ∀ X l Z, below = X ++ l :: Z → (∀ m ∈ X ++ [l], endsSection n m = false) → isBlank l = false →
        isHeadingLine l = true)
      (nested : ∀ X l Z, below = X ++ l :: Z → (∀ m ∈ X ++ [l], endsSection n m = false) → isBlank l = false →
        EmptyBelow (levelOf l) Z) : EmptyBelow n below

/-- Lines that may stand between a question and its answer: blank lines and bare bullets. -/
def isSpacer (l : Text) : Bool := isBlank l || isBare l && !isBareAnswer l

structure Tidied (text : Text) : Prop where
  headings : ∀ X h Y, lines (tidyAfterCut text) = X ++ h :: Y → isHeadingLine h = true → ¬EmptyBelow (levelOf h) Y
  markers : ∀ l ∈ lines (tidyAfterCut text), isBare l = false
  /-- A question goes with its empty answer: what is left is what is left without the two. -/
  questions : ∀ X q Y a Z, lines text = X ++ q :: (Y ++ a :: Z) → isQuestion q = true → (∀ l ∈ Y, isSpacer l = true) →
    isBareAnswer a = true → tidyLines (lines text) = tidyLines (X ++ Z)
  gaps : ¬"\n\n\n".toList <:+: tidyAfterCut text
  again : tidyAfterCut (tidyAfterCut text) = tidyAfterCut text

/-- A heading whose section shows nothing but headings, the first of them deeper. -/
def Cascades (ls : List Text) : Prop :=
  ∃ X h Y, ls = X ++ h :: Y ∧ isHeadingLine h = true ∧ silent (levelOf h) Y = true ∧
    ∃ g, firstShown Y = some g ∧ levelOf h < levelOf g

def Parted (ls : List Text) : Prop :=
  ∃ X q Y a Z, ls = X ++ q :: (Y ++ a :: Z) ∧ isQuestion q = true ∧ (∀ l ∈ Y, isSpacer l = true) ∧
    (∃ l ∈ Y, isBlank l = true) ∧ isBareAnswer a = true

/-! ## Sections -/

variable {n : Nat}

theorem hush_mono {m : Nat} (hle : n ≤ m) {M : List Text} (h : hush n M = true) : hush m M = true := by
  induction M with
  | nil => rfl
  | cons l r ih =>
    unfold hush at h ⊢
    rw [Bool.and_eq_true, Bool.or_eq_true, decide_eq_true_eq] at h ⊢
    exact ⟨h.1, h.2.imp (fun hl => hl.trans hle) ih⟩

variable {l : Text}

variable {below : List Text}

theorem hush_section (h : hush n (below.filter (!isBlank ·)) = true) {X Z : List Text}
    (heq : below = X ++ l :: Z) (hends : ∀ m ∈ X ++ [l], endsSection n m = false) (hblank : isBlank l = false) :
    isHeadingLine l = true ∧ hush n (Z.filter (!isBlank ·)) = true := by
  -- a line that does not end the section hands on what is below it
  have hstep : ∀ {b : Text} {r : List Text}, endsSection n b = false → hush n ((b :: r).filter (!isBlank ·)) = true →
      hush n (r.filter (!isBlank ·)) = true ∧ (isBlank b = false → isHeadingLine b = true) := by
    intro b r hb h
    by_cases hbb : isBlank b = true
    · rw [filter_cons_of_neg (by simp [hbb])] at h
      exact ⟨h, fun hnot => by rw [hbb] at hnot; cases hnot⟩
    · rw [filter_cons_of_pos (by simp [hbb])] at h
      unfold hush at h
      rw [Bool.and_eq_true, Bool.or_eq_true] at h
      unfold endsSection at hb
      rw [h.1, Bool.true_and] at hb
      refine ⟨h.2.resolve_left fun hlevel => ?_, fun _ => h.1⟩
      rw [hlevel] at hb
      cases hb
  induction X generalizing below with
  | nil =>
    subst heq
    obtain ⟨hZ, hl⟩ := hstep (hends l (by simp)) h
    exact ⟨hl hblank, hZ⟩
  | cons x X ih =>
    subst heq
    obtain ⟨hrest, -⟩ := hstep (hends x (by simp)) h
    exact ih hrest rfl fun m hm => hends m (mem_cons_of_mem x hm)

theorem hush_of_headings
    (h : ∀ X l Z, below = X ++ l :: Z → (∀ m ∈ X ++ [l], endsSection n m = false) → isBlank l = false →
      isHeadingLine l = true) : hush n (below.filter (!isBlank ·)) = true := by
  induction below with
  | nil => rfl
  | cons b below ih =>
    have hrest : endsSection n b = false → hush n (below.filter (!isBlank ·)) = true := by
      intro hb
      refine ih fun X l Z heq hends hblank => ?_
      refine h (b :: X) l Z (by rw [heq]; rfl) (fun m hm => ?_) hblank
      rcases List.mem_cons.1 hm with rfl | hm
      · exact hb
      · exact hends m hm
    by_cases hbb : isBlank b = true
    · rw [filter_cons_of_neg (by simp [hbb])]
      refine hrest ?_
      by_contra hb
      unfold endsSection at hb
      rw [Bool.not_eq_false, Bool.and_eq_true] at hb
      rw [(heading_plain hb.1).1] at hbb
      cases hbb
    · rw [filter_cons_of_pos (by simp [hbb])]
      unfold hush
      by_cases hb : endsSection n b = true
      · unfold endsSection at hb
        rw [Bool.and_eq_true] at hb
        rw [hb.1, hb.2]
        rfl
      · have hb := Bool.eq_false_iff.2 hb
        rw [hrest hb, Bool.or_true, Bool.and_true]
        exact h [] b below rfl (by simpa using hb) (Bool.eq_false_iff.2 hbb)

theorem emptyBelow_iff (n : Nat) (below : List Text) : EmptyBelow n below ↔ hush n (below.filter (!isBlank ·)) = true := by
  constructor
  · rintro ⟨hheading, -⟩
    exact hush_of_headings hheading
  · intro h
    induction hlen : below.length using Nat.strong_induction_on generalizing n below with
    | _ k ih =>
      refine EmptyBelow.intro (fun X l Z heq hends hblank => (hush_section h heq hends hblank).1) ?_
      intro X l Z heq hends hblank
      obtain ⟨hheading, hZ⟩ := hush_section h heq hends hblank
      have hlevel : n ≤ levelOf l := by
        have := hends l (by simp)
        unfold endsSection at this
        rw [hheading, Bool.true_and, decide_eq_false_iff_not] at this
        omega
      refine ih Z.length ?_ _ Z (hush_mono hlevel hZ) rfl
      rw [← hlen, heq, length_append, length_cons]
      omega

theorem emptyBelow_of_overNothing (h : overNothing n below = true) : EmptyBelow n below := by
  rw [emptyBelow_iff]
  rw [← overNothing_filter, overNothing_eq (fun l hl => by simpa using (List.mem_filter.1 hl).2)] at h
  cases hbelow : below.filter (!isBlank ·) with
  | nil => rfl
  | cons g r =>
    rw [hbelow, List.head?_cons, Option.all_some, Bool.and_eq_true] at h
    unfold hush
    rw [h.1, h.2]
    rfl

variable {ls : List Text}

theorem dropHeadings_eq_self
    (h : ∀ X l Y, ls = X ++ l :: Y → isHeadingLine l = true → overNothing (levelOf l) Y = false) : dropHeadings ls = ls := by
  induction ls with
  | nil => rfl
  | cons l ls ih =>
    have hstay : (isHeadingLine l && overNothing (levelOf l) ls) = false := by
      cases hl : isHeadingLine l with
      | false => rfl
      | true => rw [h [] l ls rfl hl]; rfl
    rw [dropHeadings_cons, hstay, if_neg Bool.false_ne_true, ih fun X m Y heq => h (l :: X) m Y (by rw [heq]; rfl)]

/-! ## Questions -/

theorem isSpacer_tidySpaces (l : Text) : isSpacer (tidySpaces l) = isSpacer l := by
  unfold isSpacer
  rw [isBlank_tidySpaces, isBare_tidySpaces, isBareAnswer_tidySpaces]

variable {Y : List Text}

theorem keepLines_spacers (S : List Text) (hY : ∀ l ∈ Y, isSpacer l = true) : keepLines S Y = S ++ Y.filter isBlank := by
  induction Y generalizing S with
  | nil => exact (append_nil S).symm
  | cons l Y ih =>
    have ih := fun S => @ih S fun m hm => hY m (mem_cons_of_mem l hm)
    have hl := hY l mem_cons_self
    unfold isSpacer at hl
    rw [keepLines_step]
    by_cases hblank : isBlank l = true
    · have hbare : isBare l = false := by
        unfold isBare isBareAnswer
        rw [List.isEmpty_iff.1 hblank]
        rfl
      rw [hbare, if_neg Bool.false_ne_true, ih, filter_cons_of_pos hblank, append_assoc]
      rfl
    · rw [Bool.eq_false_iff.2 hblank, Bool.false_or, Bool.and_eq_true, Bool.not_eq_true'] at hl
      rw [if_pos hl.1, hl.2, Bool.false_and, if_neg Bool.false_ne_true, ih, filter_cons_of_neg hblank]

theorem question_not_bare {q : Text} (hq : isQuestion q = true) : isBare q = false := by
  obtain ⟨s, hs⟩ := List.isPrefixOf_iff_prefix.1 hq
  unfold isBare isBareAnswer
  rw [← hs]
  rfl

def questions (ls : List Text) : Nat := ls.countP isQuestion

theorem questions_dropHeadings (ls : List Text) : questions (dropHeadings ls) = questions ls := by
  unfold questions
  induction ls with
  | nil => rfl
  | cons l ls ih =>
    rw [dropHeadings_cons]
    split
    · next hdrop =>
      have hl : isQuestion l = false := (heading_plain (Bool.and_eq_true_iff.1 hdrop).1).2.2
      rw [ih, countP_cons, hl]
      rfl
    · rw [countP_cons, countP_cons, ih]

theorem keepLines_le (S r : List Text) : ∃ S', S' <+: S ∧ keepLines S r = S' ++ keepLines [] r := by
  have hgen : ∀ (r R S : List Text), ∃ S', S' <+: S ∧ keepLines (S ++ R) r = S' ++ keepLines R r := by
    intro r
    induction r with
    | nil => exact fun R S => ⟨S, prefix_rfl, rfl⟩
    | cons l r ih =>
      intro R S
      rw [keepLines_step, keepLines_step]
      split
      · rcases eq_nil_or_concat R with rfl | ⟨R', t, rfl⟩
        · rw [append_nil, List.getLast?_nil, Option.any_none, Bool.and_false, if_neg Bool.false_ne_true]
          split
          · obtain ⟨S', hS', heq⟩ := ih [] S.dropLast
            rw [append_nil] at heq
            exact ⟨S', hS'.trans ( dropLast_prefix S), heq⟩
          · obtain ⟨S', hS', heq⟩ := ih [] S
            rw [append_nil] at heq
            exact ⟨S', hS', heq⟩
        · rw [concat_eq_append, ← append_assoc, List.getLast?_concat, List.getLast?_concat, dropLast_concat,
            dropLast_concat]
          split
          · exact ih R' S
          · rw [append_assoc]
            exact ih (R' ++ [t]) S
      · rw [append_assoc]
        exact ih (R ++ [l]) S
  have := hgen r [] S
  rwa [append_nil] at this

theorem keepLines_answered (S : List Text) {q a : Text} (hq : isQuestion q = true)
    (hY : ∀ l ∈ Y, isSpacer l = true) (ha : isBareAnswer a = true) (Z : List Text) :
    keepLines S (q :: (Y ++ a :: Z)) =
      if Y.any isBlank then S ++ [q] ++ Y.filter isBlank ++ keepLines [] Z else keepLines S Z := by
  have hpile : keepLines S (q :: (Y ++ a :: Z)) = keepLines (S ++ [q] ++ Y.filter isBlank) (a :: Z) := by
    rw [keepLines_step, question_not_bare hq, if_neg Bool.false_ne_true, keepLines_append, keepLines_spacers _ hY]
  rw [hpile, keepLines_step, if_pos (isBare_of_answer ha), ha, Bool.true_and]
  by_cases hany : Y.any isBlank = true
  · rw [if_pos hany]
    -- the last line of the pile is blank
    have hne : Y.filter isBlank ≠ [] := by
      obtain ⟨l, hl, hblank⟩ := List.any_eq_true.1 hany
      exact ne_nil_of_mem (List.mem_filter.2 ⟨hl, hblank⟩)
    have hlast : (S ++ [q] ++ Y.filter isBlank).getLast?.any isQuestion = false := by
      rw [List.getLast?_append_of_ne_nil _ hne]
      cases hl : (Y.filter isBlank).getLast? with
      | none => rfl
      | some l =>
        have hblank := (List.mem_filter.1 (mem_of_getLast? hl)).2
        rw [Option.any_some]
        unfold isQuestion
        rw [List.isEmpty_iff.1 hblank]
        rfl
    rw [hlast, if_neg Bool.false_ne_true]
    have := keepLines_wall hlast [] Z
    rwa [append_nil] at this
  · rw [if_neg hany]
    have hnil : Y.filter isBlank = [] := by
      rw [filter_eq_nil_iff]
      intro l hl hblank
      exact hany (List.any_eq_true.2 ⟨l, hl, hblank⟩)
    rw [hnil, append_nil, List.getLast?_concat, Option.any_some, hq, if_pos rfl, dropLast_concat]

theorem questions_iff {X Z : List Text} {q a : Text} (hls : ls = X ++ q :: (Y ++ a :: Z)) (hq : isQuestion q = true)
    (hY : ∀ l ∈ Y, isSpacer l = true) (ha : isBareAnswer a = true) :
    tidyLines ls = tidyLines (X ++ Z) ↔ Y.any isBlank = false := by
  have hmapq : isQuestion (tidySpaces q) = true := by rw [isQuestion_tidySpaces, hq]
  have hmapY : ∀ l ∈ Y.map tidySpaces, isSpacer l = true := by
    intro l hl
    obtain ⟨m, hm, rfl⟩ := List.mem_map.1 hl
    rw [isSpacer_tidySpaces, hY m hm]
  have hmapa : isBareAnswer (tidySpaces a) = true := by rw [isBareAnswer_tidySpaces, ha]
  have hany : (Y.map tidySpaces).any isBlank = Y.any isBlank := by
    rw [any_map]
    exact congrArg Y.any (funext isBlank_tidySpaces)
  have hkeep := keepLines_answered (keepLines [] (X.map tidySpaces)) hmapq hmapY hmapa (Z.map tidySpaces)
  unfold tidyLines
  rw [hls, map_append, map_cons, map_append, map_cons, keepLines_append, hkeep, hany, map_append, keepLines_append]
  constructor
  · intro h
    by_contra hblank
    rw [Bool.not_eq_false] at hblank
    rw [if_pos hblank] at h
    -- the question counts on one side only
    obtain ⟨S', hS', heq⟩ := keepLines_le (keepLines [] (X.map tidySpaces)) (Z.map tidySpaces)
    have hcount := congrArg questions h
    rw [questions_dropHeadings, questions_dropHeadings, heq] at hcount
    unfold questions at hcount
    simp only [countP_append, countP_singleton, hmapq, if_true] at hcount
    have hle := hS'.sublist.countP_le (p := isQuestion)
    omega
  · intro h
    rw [h, if_neg Bool.false_ne_true]

/-! ## Newlines -/

theorem squeeze_cons (n : Nat) (c : Char) (s : Text) : squeeze n (c :: s) =
    if c == '\n' then if n < 2 then '\n' :: squeeze (n + 1) s else squeeze n s else c :: squeeze 0 s := rfl

theorem runs_squeeze (s : Text) : runs (· != '\n') (squeeze 0 s) = runs (· != '\n') s := by
  have hgen : ∀ (s : Text) (n : Nat) (w : Text), w = [] ∨ n < 2 →
      runs (· != '\n') (w ++ squeeze n s) = runs (· != '\n') (w ++ s) := by
    intro s
    induction s with
    | nil => exact fun n w _ => rfl
    | cons c s ih =>
      intro n w hw
      rw [squeeze_cons]
      by_cases hc : c = '\n'
      · subst hc
        rw [if_pos (by decide), runs_append_cons (by decide)]
        split
        · rw [runs_append_cons (by decide)]
          exact congrArg (runs (· != '\n') w ++ ·) (ih (n + 1) [] (Or.inl rfl))
        · next hn =>
          obtain rfl := hw.resolve_right hn
          exact ih n [] (Or.inl rfl)
      · rw [if_neg (by simpa using hc), append_cons, append_cons w c s]
        exact ih 0 (w ++ [c]) (Or.inr (by decide))
  exact hgen s 0 [] (Or.inl rfl)

theorem runs_newlines {w z : Text} (hw : ∀ c ∈ w, c = '\n') (hz : ∀ c ∈ z, c = '\n') (s : Text) :
    runs (· != '\n') (w ++ s ++ z) = runs (· != '\n') s := by
  have hleft : ∀ (w s : Text), (∀ c ∈ w, c = '\n') → runs (· != '\n') (w ++ s) = runs (· != '\n') s := by
    intro w s hw
    induction w with
    | nil => rfl
    | cons c w ih =>
      rw [hw c mem_cons_self, cons_append]
      exact ih fun d hd => hw d (mem_cons_of_mem c hd)
  rw [append_assoc, hleft w _ hw]
  cases z with
  | nil => rw [append_nil]
  | cons c z =>
    have hnil : runs (· != '\n') z = [] := by
      have := hleft z [] fun d hd => hz d (mem_cons_of_mem c hd)
      rwa [append_nil] at this
    rw [hz c mem_cons_self, runs_append_cons (by decide), hnil, append_nil]

theorem runs_eq_lines (s : Text) : runs (· != '\n') s = (lines s).filter fun l => !l.isEmpty := by
  unfold runs lines
  congr 2
  simp [bne]

theorem squeeze_short (s : Text) (hn : n ≤ 2) :
    ¬List.replicate (3 - n) '\n' <+: squeeze n s ∧ ¬List.replicate 3 '\n' <:+: squeeze n s := by
  induction s generalizing n with
  | nil =>
    have hlen : ∀ k, 0 < k → ¬List.replicate k '\n' <:+: [] := by
      intro k hk h
      have := h.length_le
      rw [length_replicate, length_nil] at this
      omega
    exact ⟨fun h => hlen (3 - n) (by omega) h.isInfix, hlen 3 (by decide)⟩
  | cons c s ih =>
    rw [squeeze_cons]
    by_cases hc : c = '\n'
    · subst hc
      rw [if_pos (by decide)]
      split
      · next hlt =>
        obtain ⟨ hprefix, hinfix⟩ := ih (show n + 1 ≤ 2 by omega)
        have hfirst : ¬List.replicate (3 - n) '\n' <+: '\n' :: squeeze (n + 1) s := by
          rw [show 3 - n = (3 - (n + 1)) + 1 by omega, replicate_succ, cons_prefix_cons]
          exact fun h => hprefix h.2
        refine ⟨hfirst, fun h => ?_⟩
        rcases List.infix_cons_iff.1 h with h | h
        · refine hfirst (List.IsPrefix.trans ⟨List.replicate n '\n', ?_⟩ h)
          rw [replicate_append_replicate, Nat.sub_add_cancel (by omega)]
        · exact hinfix h
      · exact ih hn
    · rw [if_neg (by simpa using hc)]
      obtain ⟨-, hinfix⟩ := ih (Nat.zero_le 2)
      have hfirst : ∀ k, 0 < k → ¬List.replicate k '\n' <+: c :: squeeze 0 s := by
        intro k hk h
        obtain ⟨j, rfl⟩ := Nat.exists_eq_succ_of_ne_zero (Nat.pos_iff_ne_zero.1 hk)
        rw [replicate_succ, cons_prefix_cons] at h
        exact hc h.1.symm
      refine ⟨hfirst _ (by omega), fun h => ?_⟩
      rcases List.infix_cons_iff.1 h with h | h
      · exact hfirst 3 (by decide) h
      · exact hinfix h

theorem squeeze_eq_self {s : Text} (hn : n ≤ 2) ( hprefix : ¬List.replicate (3 - n) '\n' <+: s)
    ( hinfix : ¬List.replicate 3 '\n' <:+: s) : squeeze n s = s := by
  induction s generalizing n with
  | nil => rfl
  | cons c s ih =>
    have hinfix' : ¬List.replicate 3 '\n' <:+: s := fun h => hinfix (h.trans (suffix_cons c s).isInfix)
    rw [squeeze_cons]
    by_cases hc : c = '\n'
    · subst hc
      have hlt : n < 2 := by
        by_contra hge
        obtain rfl : n = 2 := by omega
        exact hprefix ⟨s, rfl⟩
      rw [if_pos (by decide), if_pos hlt, ih (show n + 1 ≤ 2 by omega) ?_ hinfix']
      intro h
      refine hprefix ?_
      rw [show 3 - n = (3 - (n + 1)) + 1 by omega, replicate_succ, cons_prefix_cons]
      exact ⟨rfl, h⟩
    · rw [if_neg (by simpa using hc), ih (Nat.zero_le 2) (fun h => hinfix' h.isInfix) hinfix']

/-! ## The lines of the result -/

theorem mem_collapse {b : Behind} {s : Text} {c : Char} (h : c ∈ collapse b s) : c ∈ s := by
  induction s generalizing b with
  | nil => exact h
  | cons d s ih =>
    rw [collapse_cons] at h
    split at h
    · next hd =>
      have hcase : c = ' ' ∨ ∃ b', c ∈ collapse b' s := by
        cases b with
        | ink => exact (List.mem_cons.1 h).imp id fun h => ⟨_, h⟩
        | gap => exact Or.inr ⟨_, h⟩
        | other => exact (List.mem_cons.1 h).imp id fun h => ⟨_, h⟩
      rcases hcase with rfl | ⟨b', h⟩
      · rw [beq_iff_eq.1 hd]
        exact mem_cons_self
      · exact mem_cons_of_mem d (ih h)
    · rcases List.mem_cons.1 h with rfl | h
      · exact mem_cons_self
      · exact mem_cons_of_mem d (ih h)

theorem mem_tidySpaces {c : Char} (h : c ∈ tidySpaces l) : c ∈ l := by
  have h := mem_collapse h
  have hstray : c ∈ rstrip l := by
    unfold dropStray at h
    split at h
    · next heq =>
      rw [heq]
      split at h
      · exact h
      · exact mem_cons_of_mem _ h
    · exact h
  exact List.mem_reverse.1 ((dropWhile_suffix isSpace).subset (List.mem_reverse.1 hstray))

theorem tidySpaces_eq_nil (h : isBlank l = true) : tidySpaces l = [] := by
  obtain ⟨w, -, -, hnil, hparts⟩ := tidySpaces_parts l
  have hstrip := List.isEmpty_iff.1 h
  rw [hparts, hnil hstrip, hstrip]
  rfl

theorem mem_keepLines (h : l ∈ keepLines [] ls) : l ∈ ls ∧ isBare l = false := by
  induction ls with
  | nil => cases h
  | cons m ls ih =>
    rw [keepLines_cons] at h
    split at h
    · exact ⟨mem_cons_of_mem m (ih h).1, (ih h).2⟩
    · next hstay =>
      rcases List.mem_cons.1 h with rfl | h
      · refine ⟨mem_cons_self, ?_⟩
        unfold goes at hstay
        rw [Bool.not_eq_true, Bool.or_eq_false_iff] at hstay
        exact hstay.1
      · exact ⟨mem_cons_of_mem m (ih h).1, (ih h).2⟩

theorem mem_dropHeadings (h : l ∈ dropHeadings ls) : l ∈ ls := by
  induction ls with
  | nil => cases h
  | cons m ls ih =>
    rw [dropHeadings_cons] at h
    split at h
    · exact mem_cons_of_mem m (ih h)
    · rcases List.mem_cons.1 h with rfl | h
      · exact mem_cons_self
      · exact mem_cons_of_mem m (ih h)

theorem mem_tidyLines (h : l ∈ tidyLines ls) : (∃ m ∈ ls, l = tidySpaces m) ∧ isBare l = false := by
  obtain ⟨hmem, hbare⟩ := mem_keepLines (mem_dropHeadings h)
  obtain ⟨m, hm, rfl⟩ := List.mem_map.1 hmem
  exact ⟨⟨m, hm, rfl⟩, hbare⟩

variable (text : Text)

theorem tidyAfterCut_eq : tidyAfterCut text = stripOf (· == '\n') (squeeze 0 (unlines (tidyLines (lines text)))) ++
      if text.getLast? == some '\n' && !(stripOf (· == '\n') (squeeze 0 (unlines (tidyLines (lines text))))).isEmpty then ['\n']
      else [] := rfl

theorem tidyAfterCut_parts :
    ∃ t nl, tidyAfterCut text = t ++ nl ∧ Trim (· == '\n') t ∧ (nl = [] ∨ (nl = ['\n'] ∧ t ≠ [])) ∧
      runs (· != '\n') t = (tidyLines (lines text)).filter (fun l => !l.isEmpty) ∧ ¬List.replicate 3 '\n' <:+: t := by
  obtain ⟨w, hw, hall⟩ := stripOf_parts (· == '\n') (squeeze 0 (unlines (tidyLines (lines text))))
  have hnl : ∀ c ∈ (squeeze 0 (unlines (tidyLines (lines text)))).takeWhile (· == '\n'), c = '\n' := fun c hc => by
    have := mem_takeWhile_imp hc
    exact beq_iff_eq.1 this
  refine ⟨_, _, rfl, trim_stripOf _ _, ?_, ?_, fun h => ?_⟩
  · split
    · next hcond =>
      refine Or.inr ⟨rfl, fun hnil => ?_⟩
      rw [hnil] at hcond
      simp at hcond
    · exact Or.inl rfl
  · rw [← runs_newlines hnl fun c hc => beq_iff_eq.1 (hall c hc), ← hw, runs_squeeze, runs_eq_lines]
    cases hls : tidyLines (lines text) with
    | nil => rfl
    | cons l ls =>
      rw [lines_unlines (cons_ne_nil l ls)]
      intro m hm
      obtain ⟨⟨k, hk, rfl⟩, -⟩ := mem_tidyLines (hls ▸ hm)
      exact fun hc => notMem_of_mem_lines hk (mem_tidySpaces hc)
  · refine (squeeze_short (unlines (tidyLines (lines text))) (Nat.zero_le 2)).2 (h.trans ?_)
    exact ⟨_, w, hw.symm⟩

theorem lines_tidyAfterCut :
    (lines (tidyAfterCut text)).filter (fun l => !l.isEmpty) = (tidyLines (lines text)).filter fun l => !l.isEmpty := by
  obtain ⟨t, nl, heq, -, hnl, hruns, -⟩ := tidyAfterCut_parts text
  have hz : ∀ c ∈ nl, c = '\n' := by
    rcases hnl with rfl | ⟨rfl, -⟩ <;> simp
  have := runs_newlines (w := []) (by simp) hz t
  rw [← hruns, ← runs_eq_lines, heq, ← this]
  rfl

theorem mem_lines_tidyAfterCut {text : Text} (h : l ∈ lines (tidyAfterCut text)) : l = [] ∨ l ∈ tidyLines (lines text) := by
  by_cases hl : l = []
  · exact Or.inl hl
  · right
    have hmem : l ∈ (lines (tidyAfterCut text)).filter fun l => !l.isEmpty :=
      List.mem_filter.2 ⟨h, by simpa using hl⟩
    rw [lines_tidyAfterCut] at hmem
    exact (List.mem_filter.1 hmem).1

theorem shown_tidyAfterCut : (lines (tidyAfterCut text)).filter (!isBlank ·) = dropHeadings (shown (lines text)) := by
  have hblank : ∀ {l : Text}, l = [] ∨ l ∈ tidyLines (lines text) → (!isBlank l) = !l.isEmpty := by
    intro l hl
    rcases hl with rfl | hl
    · rfl
    · obtain ⟨⟨m, -, rfl⟩, -⟩ := mem_tidyLines hl
      cases hm : isBlank m with
      | true => rw [tidySpaces_eq_nil hm]; rfl
      | false =>
        have hne : tidySpaces m ≠ [] := by
          intro hnil
          have := isBlank_tidySpaces m
          rw [hnil, hm] at this
          cases this
        rw [isBlank_tidySpaces, hm, List.isEmpty_eq_false_iff.2 hne]
  rw [filter_congr fun l hl => hblank (mem_lines_tidyAfterCut hl), lines_tidyAfterCut,
    ← filter_congr fun l hl => hblank (Or.inr hl)]
  exact filter_dropHeadings _

/-! ## Tidied texts -/

theorem cascades_iff (ls : List Text) : Cascades ls ↔
    ∃ X h Y, dropHeadings (shown ls) = X ++ h :: Y ∧ isHeadingLine h = true ∧ hush (levelOf h) Y = true := by
  have hM : ∀ l ∈ shown ls, isBlank l = false := fun l hl => by simpa using (List.mem_filter.1 hl).2
  rw [emptied_iff hM]
  constructor
  · rintro ⟨X, h, Y, rfl, hheading, hsilent, g, hg, hlevel⟩
    obtain ⟨X', hX'⟩ := shown_append_heading X hheading Y
    refine ⟨X', tidySpaces h, shown Y, hX', by rw [isHeadingLine_tidySpaces, hheading], ?_, tidySpaces g, ?_, ?_⟩
    · rw [levelOf_tidySpaces, ← silent_eq, hsilent]
    · rw [← firstShown_eq, hg]
      rfl
    · rwa [levelOf_tidySpaces, levelOf_tidySpaces]
  · rintro ⟨X, h, Y, heq, hheading, hhush, g, hg, hlevel⟩
    obtain ⟨X', l, Y', rfl, rfl, rfl⟩ := shown_split heq
    rw [isHeadingLine_tidySpaces] at hheading
    rw [levelOf_tidySpaces] at hhush hlevel
    rw [← firstShown_eq] at hg
    obtain ⟨g', hg', rfl⟩ := Option.map_eq_some_iff.1 hg
    rw [levelOf_tidySpaces] at hlevel
    exact ⟨X', l, Y', rfl, hheading, by rw [silent_eq, hhush], g', hg', hlevel⟩

theorem headings_iff :
    (∀ X h Y, lines (tidyAfterCut text) = X ++ h :: Y → isHeadingLine h = true → ¬EmptyBelow (levelOf h) Y) ↔
      ¬Cascades (lines text) := by
  rw [cascades_iff, ← shown_tidyAfterCut]
  constructor
  · rintro hheadings ⟨X, h, Y, heq, hheading, hhush⟩
    obtain ⟨A, B, hls, rfl, hB⟩ := List.filter_eq_append_iff.1 heq
    obtain ⟨C, D, rfl, -, -, rfl⟩ := List.filter_eq_cons_iff.1 hB
    exact hheadings (A ++ C) h D (by rw [hls, append_assoc]) hheading ((emptyBelow_iff _ _).2 hhush)
  · rintro hnot X h Y heq hheading hempty
    refine hnot ⟨X.filter (!isBlank ·), h, Y.filter (!isBlank ·), ?_, hheading, (emptyBelow_iff _ _).1 hempty⟩
    rw [heq, filter_append, filter_cons_of_pos (by rw [(heading_plain hheading).1]; rfl)]

theorem markers_tidyAfterCut {text : Text} (h : l ∈ lines (tidyAfterCut text)) : isBare l = false := by
  rcases mem_lines_tidyAfterCut h with rfl | h
  · rfl
  · exact (mem_tidyLines h).2

theorem gaps_tidyAfterCut : ¬"\n\n\n".toList <:+: tidyAfterCut text := by
  obtain ⟨t, nl, heq, htrim, hnl, -, hgap⟩ := tidyAfterCut_parts text
  rw [heq]
  rcases hnl with rfl | ⟨rfl, -⟩
  · rwa [append_nil]
  · rintro ⟨a, b, hab⟩
    rcases eq_nil_or_concat b with rfl | ⟨b', c, rfl⟩
    · -- the last newline but one would end `t`
      have : t = a ++ ['\n', '\n'] := by
        have hcut : a ++ ['\n', '\n'] ++ ['\n'] = t ++ ['\n'] := by rw [← hab]; simp
        exact (append_cancel_right hcut).symm
      exact absurd (htrim.2 '\n' (by rw [this]; simp)) (by decide)
    · rw [concat_eq_append, ← append_assoc] at hab
      exact hgap ⟨a, b', append_inj_left' hab rfl⟩

theorem tidyAfterCut_again {text : Text}
    (h : ∀ X h Y, lines (tidyAfterCut text) = X ++ h :: Y → isHeadingLine h = true → ¬EmptyBelow (levelOf h) Y) :
    tidyAfterCut (tidyAfterCut text) = tidyAfterCut text := by
  have hlines : tidyLines (lines (tidyAfterCut text)) = lines (tidyAfterCut text) := by
    have hmap : (lines (tidyAfterCut text)).map tidySpaces = lines (tidyAfterCut text) := by
      conv_rhs => rw [← map_id (lines (tidyAfterCut text))]
      refine map_congr_left fun l hl => ?_
      rcases mem_lines_tidyAfterCut hl with rfl | hl
      · rfl
      · obtain ⟨⟨m, -, rfl⟩, -⟩ := mem_tidyLines hl
        exact tidySpaces_tidySpaces m
    unfold tidyLines
    rw [hmap, keepLines_eq_self (fun l hl => markers_tidyAfterCut hl), nil_append]
    refine dropHeadings_eq_self fun X l Y heq hl => ?_
    by_contra hover
    exact h X l Y heq hl (emptyBelow_of_overNothing (by simpa using hover))
  have hgap := gaps_tidyAfterCut text
  rw [tidyAfterCut_eq (tidyAfterCut text), hlines, unlines_lines, squeeze_eq_self (Nat.zero_le 2) (fun h => hgap h.isInfix) hgap]
  obtain ⟨t, nl, heq, htrim, hnl, -, -⟩ := tidyAfterCut_parts text
  have hstrip : stripOf (· == '\n') (tidyAfterCut text) = t := by
    have hz : ∀ c ∈ nl, (c == '\n') = true := by
      rcases hnl with rfl | ⟨rfl, -⟩ <;> simp
    have := stripOf_trim (w := []) (by simp) hz htrim
    rw [heq]
    exact this
  rw [hstrip, heq]
  rcases hnl with rfl | ⟨rfl, hne⟩
  · have hlast : (t.getLast? == some '\n') = false := by
      rw [beq_eq_false_iff_ne]
      intro hlast
      exact absurd (htrim.2 _ hlast) (by decide)
    rw [append_nil, hlast]
    exact append_nil t
  · rw [List.getLast?_concat, List.isEmpty_eq_false_iff.2 hne]
    rfl

/-- The result is tidy exactly where no heading is over a deeper one and nothing else, and no blank line parts a question from its
empty answer. -/
theorem tidy_after_cut_tidies (text : Text) : Tidied text ↔ ¬Cascades (lines text) ∧ ¬Parted (lines text) := by
  constructor
  · intro h
    refine ⟨(headings_iff text).1 h.headings, ?_⟩
    rintro ⟨X, q, Y, a, Z, heq, hq, hY, ⟨l, hl, hblank⟩, ha⟩
    have hsame := h.questions X q Y a Z heq hq hY ha
    rw [questions_iff heq hq hY ha, any_eq_false] at hsame
    exact hsame l hl hblank
  · rintro ⟨hcascades, hparted⟩
    have hheadings := (headings_iff text).2 hcascades
    refine ⟨hheadings, fun l hl => markers_tidyAfterCut hl, ?_, gaps_tidyAfterCut text, tidyAfterCut_again hheadings⟩
    intro X q Y a Z heq hq hY ha
    rw [questions_iff heq hq hY ha, any_eq_false]
    exact fun l hl hblank => hparted ⟨X, q, Y, a, Z, heq, hq, hY, ⟨l, hl, hblank⟩, ha⟩

/-- The heading over the one that goes is left over nothing, and goes when the text is tidied again. -/
theorem tidy_leaves_heading :
    tidyAfterCut "# A\n## B".toList = "# A".toList ∧ tidyAfterCut "# A".toList = [] ∧ ¬Tidied "# A\n## B".toList := by
  have hone : tidyAfterCut "# A\n## B".toList = "# A".toList := by decide
  have htwo : tidyAfterCut "# A".toList = [] := by decide
  refine ⟨hone, htwo, fun h => ?_⟩
  have := h.again
  rw [hone, htwo] at this
  cases this

end CisApp.Hygiene
