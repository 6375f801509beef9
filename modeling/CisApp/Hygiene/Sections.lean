import CisApp.Hygiene.Tidy

/-! Which lines of a text stay when it is tidied.

Bare lines go, with the questions right above a bare answer: `keepLines_cons` says so of the first line by what follows it.  A
heading is then looked at once, against the lines below it that were kept.  A heading over a deeper one stays, and where the
deeper one goes it is left over nothing: `emptied_iff`. -/

namespace CisApp.Hygiene

open Lib Repair List Option

/-! ## Questions and answers -/

/-- A bare answer comes for the question that has `depth` questions right below it. -/
def answerGoes : Nat → List Text → Bool
  | _, [] => false
  | depth, l :: r =>
    if isBareAnswer l then
      match depth with
      | 0 => true
      | d + 1 => answerGoes d r
    else if isBare l then answerGoes depth r
    else isQuestion l && answerGoes (depth + 1) r

def goes (l : Text) (r : List Text) : Bool := isBare l || isQuestion l && answerGoes 0 r

theorem isBare_of_answer {l : Text} (h : isBareAnswer l = true) : isBare l = true := by
  unfold isBare
  rw [h]
  rfl

theorem heading_plain {l : Text} (h : isHeadingLine l = true) :
    isBlank l = false ∧ isBare l = false ∧ isQuestion l = false := by
  obtain ⟨s, hs⟩ : ∃ s, strip l = '#' :: s := by
    unfold isHeadingLine isHeading at h
    cases hl : strip l with
    | nil => rw [hl] at h; cases h
    | cons c s =>
      by_cases hc : c = '#'
      · exact ⟨s, by rw [hc]⟩
      · simp [hl, hc] at h
  unfold isBlank isBare isBareAnswer isQuestion
  rw [hs]
  exact ⟨rfl, rfl, rfl⟩

theorem keepLines_step (S : List Text) (l : Text) (r : List Text) : keepLines S (l :: r) =
    if isBare l then keepLines (if isBareAnswer l && S.getLast?.any isQuestion then S.dropLast else S) r
    else keepLines (S ++ [l]) r := rfl

theorem keepLines_append (S X Z : List Text) : keepLines S (X ++ Z) = keepLines (keepLines S X) Z := by
  induction X generalizing S with
  | nil => rfl
  | cons l X ih =>
    rw [cons_append, keepLines_step, keepLines_step]
    split
    · exact ih _
    · exact ih _

theorem keepLines_wall {S : List Text} (hS : S.getLast?.any isQuestion = false) (R r : List Text) :
    keepLines (S ++ R) r = S ++ keepLines R r := by
  induction r generalizing R with
  | nil => rfl
  | cons l r ih =>
    unfold keepLines
    split
    · cases hR : R.getLast? with
      | none =>
        obtain rfl := List.getLast?_eq_none_iff.1 hR
        rw [append_nil, hS, Bool.and_false, if_neg Bool.false_ne_true]
        have := ih []
        simpa using this
      | some t =>
        have hne : R ≠ [] := by
          rintro rfl
          cases hR
        rw [List.getLast?_append_of_ne_nil S hne, hR]
        split
        · rw [dropLast_append_of_ne_nil hne]
          exact ih _
        · exact ih R
    · rw [append_assoc]
      exact ih _

theorem keepLines_question {q : Text} (hq : isQuestion q = true) {R : List Text} (hR : ∀ l ∈ R, isQuestion l = true)
    (r : List Text) : keepLines (q :: R) r = (if answerGoes R.length r then [] else [q]) ++ keepLines R r := by
  induction r generalizing R with
  | nil => rfl
  | cons l r ih =>
    by_cases hanswer : isBareAnswer l = true
    · have hbare := isBare_of_answer hanswer
      unfold keepLines answerGoes
      rw [hbare, hanswer, Bool.true_and, Bool.true_and]
      rcases eq_nil_or_concat R with rfl | ⟨R', t, rfl⟩
      · simp [hq]
      · rw [concat_eq_append] at hR ⊢
        have ht : isQuestion t = true := hR t (by simp)
        rw [← cons_append, List.getLast?_concat, List.getLast?_concat, dropLast_concat, dropLast_concat,
          any_some, ht, if_pos rfl, length_append, length_singleton]
        exact ih fun l hl => hR l (mem_append_left _ hl)
    · by_cases hbare : isBare l = true
      · unfold keepLines answerGoes
        simp only [hbare, Bool.eq_false_iff.2 hanswer, Bool.false_and, if_true, Bool.false_eq_true, if_false]
        exact ih hR
      · unfold keepLines answerGoes
        simp only [Bool.eq_false_iff.2 hbare, Bool.eq_false_iff.2 hanswer, Bool.false_eq_true, if_false]
        by_cases hquestion : isQuestion l = true
        · rw [hquestion, Bool.true_and, cons_append]
          have := @ih (R ++ [l]) fun m hm => by
            rcases mem_append.1 hm with hm | hm
            · exact hR m hm
            · rw [mem_singleton.1 hm, hquestion]
          rwa [length_append, length_singleton] at this
        · have hlast : ∀ S : List Text, (S ++ [l]).getLast?.any isQuestion = false := by
            intro S
            rw [List.getLast?_concat]
            exact Bool.eq_false_iff.2 hquestion
          have hone := keepLines_wall (hlast (q :: R)) [] r
          have htwo := keepLines_wall (hlast R) [] r
          rw [append_nil] at hone htwo
          rw [hone, htwo, Bool.eq_false_iff.2 hquestion, Bool.false_and, if_neg Bool.false_ne_true]
          simp

theorem keepLines_cons (l : Text) (r : List Text) :
    keepLines [] (l :: r) = if goes l r then keepLines [] r else l :: keepLines [] r := by
  unfold goes
  by_cases hbare : isBare l = true
  · rw [hbare, Bool.true_or, if_pos rfl]
    rw [keepLines_step, if_pos hbare, List.getLast?_nil, any_none, Bool.and_false, if_neg Bool.false_ne_true]
  · have hpush : keepLines [] (l :: r) = keepLines [l] r := by
      rw [keepLines_step, if_neg hbare]
      rfl
    rw [hpush, Bool.eq_false_iff.2 hbare, Bool.false_or]
    by_cases hquestion : isQuestion l = true
    · rw [keepLines_question hquestion (by simp), hquestion, Bool.true_and, length_nil]
      split
      · rfl
      · rfl
    · rw [Bool.eq_false_iff.2 hquestion, Bool.false_and, if_neg Bool.false_ne_true]
      have := keepLines_wall (S := [l]) (by simpa using hquestion) [] r
      rwa [append_nil] at this

theorem keepLines_eq_self {ls : List Text} (h : ∀ l ∈ ls, isBare l = false) (S : List Text) : keepLines S ls = S ++ ls := by
  induction ls generalizing S with
  | nil => exact (append_nil S).symm
  | cons l ls ih =>
    unfold keepLines
    rw [h l mem_cons_self, if_neg Bool.false_ne_true, ih fun m hm => h m (mem_cons_of_mem l hm), append_assoc]
    rfl

/-! ## The lines that show -/

def shown (ls : List Text) : List Text := (keepLines [] (ls.map tidySpaces)).filter (!isBlank ·)

theorem answerGoes_map (depth : Nat) (r : List Text) : answerGoes depth (r.map tidySpaces) = answerGoes depth r := by
  induction r generalizing depth with
  | nil => rfl
  | cons l r ih =>
    rw [map_cons]
    unfold answerGoes
    rw [isBareAnswer_tidySpaces, isBare_tidySpaces, isQuestion_tidySpaces, ih, ih]
    cases depth with
    | zero => rfl
    | succ d => dsimp only; rw [ih]

theorem goes_map (l : Text) (r : List Text) : goes (tidySpaces l) (r.map tidySpaces) = goes l r := by
  unfold goes
  rw [isBare_tidySpaces, isQuestion_tidySpaces, answerGoes_map]

theorem shown_cons (l : Text) (r : List Text) :
    shown (l :: r) = if isBlank l || goes l r then shown r else tidySpaces l :: shown r := by
  unfold shown
  rw [map_cons, keepLines_cons, goes_map]
  cases goes l r with
  | true =>
    rw [if_pos rfl, Bool.or_true, if_pos rfl]
  | false =>
    rw [if_neg Bool.false_ne_true, Bool.or_false, filter_cons, isBlank_tidySpaces]
    cases isBlank l <;> rfl

variable {Y : List Text} {h : Text}

theorem shown_split {ls X : List Text} (heq : shown ls = X ++ h :: Y) :
    ∃ X' l Y', ls = X' ++ l :: Y' ∧ h = tidySpaces l ∧ shown Y' = Y := by
  induction ls generalizing X with
  | nil =>
    have := congrArg List.length heq
    simp [shown, keepLines] at this
  | cons l ls ih =>
    rw [shown_cons] at heq
    split at heq
    · obtain ⟨X', m, Y', rfl, hm, hY⟩ := ih heq
      exact ⟨l :: X', m, Y', rfl, hm, hY⟩
    · cases X with
      | nil =>
        obtain ⟨rfl, rfl⟩ := List.cons.inj heq
        exact ⟨[], l, ls, rfl, rfl, rfl⟩
      | cons x X =>
        obtain ⟨X', m, Y', rfl, hm, hY⟩ := ih (List.cons.inj heq).2
        exact ⟨l :: X', m, Y', rfl, hm, hY⟩

theorem shown_append_heading (X : List Text) (hh : isHeadingLine h = true) (Y : List Text) :
    ∃ X', shown (X ++ h :: Y) = X' ++ tidySpaces h :: shown Y := by
  induction X with
  | nil =>
    refine ⟨[], ?_⟩
    obtain ⟨hblank, hbare, hquestion⟩ := heading_plain hh
    rw [nil_append, shown_cons, hblank, Bool.false_or]
    unfold goes
    rw [hbare, hquestion, Bool.false_or, Bool.false_and, if_neg Bool.false_ne_true]
    rfl
  | cons x X ih =>
    obtain ⟨X', hX'⟩ := ih
    rw [cons_append, shown_cons]
    split
    · exact ⟨X', hX'⟩
    · exact ⟨tidySpaces x :: X', by rw [hX']; rfl⟩

/-! ## Headings over nothing -/

def hush (n : Nat) : List Text → Bool
  | [] => true
  | l :: r => isHeadingLine l && (decide (levelOf l ≤ n) || hush n r)

/-- Of the lines below a heading, those that show are headings until the section ends. -/
def silent (n : Nat) : List Text → Bool
  | [] => true
  | l :: r =>
    if isBlank l || goes l r then silent n r else isHeadingLine l && (decide (levelOf l ≤ n) || silent n r)

def firstShown : List Text → Option Text
  | [] => none
  | l :: r => if isBlank l || goes l r then firstShown r else some l

theorem silent_eq (n : Nat) (ls : List Text) : silent n ls = hush n (shown ls) := by
  induction ls with
  | nil => rfl
  | cons l r ih =>
    rw [shown_cons]
    unfold silent
    split
    · exact ih
    · unfold hush
      rw [isHeadingLine_tidySpaces, levelOf_tidySpaces, ih]

theorem firstShown_eq (ls : List Text) : (firstShown ls).map tidySpaces = (shown ls).head? := by
  induction ls with
  | nil => rfl
  | cons l r ih =>
    rw [shown_cons]
    unfold firstShown
    split
    · exact ih
    · rfl

theorem overNothing_eq {n : Nat} {r : List Text} (hr : ∀ l ∈ r, isBlank l = false) :
    overNothing n r = r.head?.all fun l => isHeadingLine l && decide (levelOf l ≤ n) := by
  unfold overNothing
  cases r with
  | nil => rfl
  | cons l r =>
    rw [List.find?_cons_of_pos (by rw [hr l mem_cons_self]; rfl)]
    rfl

theorem overNothing_filter (n : Nat) (r : List Text) : overNothing n (r.filter (!isBlank ·)) = overNothing n r := by
  unfold overNothing
  rw [List.find?_filter]
  congr 2
  simp

theorem dropHeadings_cons (l : Text) (ls : List Text) : dropHeadings (l :: ls) =
    if isHeadingLine l && overNothing (levelOf l) ls then dropHeadings ls else l :: dropHeadings ls := rfl

theorem filter_dropHeadings (ls : List Text) :
    (dropHeadings ls).filter (!isBlank ·) = dropHeadings (ls.filter (!isBlank ·)) := by
  induction ls with
  | nil => rfl
  | cons l ls ih =>
    by_cases hblank : isBlank l = true
    · have hheading : isHeadingLine l = false := by
        by_contra hh
        rw [Bool.not_eq_false] at hh
        rw [(heading_plain hh).1] at hblank
        cases hblank
      rw [dropHeadings_cons, hheading, Bool.false_and, if_neg Bool.false_ne_true, filter_cons_of_neg (by simp [hblank]),
        filter_cons_of_neg (by simp [hblank]), ih]
    · rw [filter_cons_of_pos (by simp [hblank]), dropHeadings_cons, dropHeadings_cons, overNothing_filter]
      split
      · exact ih
      · rw [filter_cons_of_pos (by simp [hblank]), ih]

variable {M : List Text}

theorem hush_dropHeadings (n : Nat) (hM : ∀ l ∈ M, isBlank l = false) : hush n (dropHeadings M) = hush n M := by
  induction M with
  | nil => rfl
  | cons l r ih =>
    have hr : ∀ m ∈ r, isBlank m = false := fun m hm => hM m (mem_cons_of_mem l hm)
    have ih := ih hr
    unfold dropHeadings
    split
    · next hdrop =>
      obtain ⟨hheading, hover⟩ := Bool.and_eq_true_iff.1 hdrop
      rw [ih]
      conv_rhs => unfold hush
      rw [hheading, Bool.true_and]
      by_cases hlevel : levelOf l ≤ n
      · rw [decide_eq_true hlevel, Bool.true_or]
        rw [overNothing_eq hr] at hover
        cases r with
        | nil => rfl
        | cons g r =>
          obtain ⟨hg, hglevel⟩ := Bool.and_eq_true_iff.1 hover
          have hle : levelOf g ≤ n := (of_decide_eq_true hglevel).trans hlevel
          unfold hush
          rw [hg, decide_eq_true hle]
          rfl
      · rw [decide_eq_false hlevel, Bool.false_or]
    · unfold hush
      rw [ih]

theorem dropHeadings_split {X : List Text} (heq : dropHeadings M = X ++ h :: Y) :
    ∃ X' Y', M = X' ++ h :: Y' ∧ Y = dropHeadings Y' ∧ (isHeadingLine h && overNothing (levelOf h) Y') = false := by
  induction M generalizing X with
  | nil => exact absurd heq (by simp [dropHeadings])
  | cons l M ih =>
    unfold dropHeadings at heq
    split at heq
    · obtain ⟨X', Y', rfl, hY, hstay⟩ := ih heq
      exact ⟨l :: X', Y', rfl, hY, hstay⟩
    · next hstay =>
      cases X with
      | nil =>
        obtain ⟨rfl, rfl⟩ := List.cons.inj heq
        exact ⟨[], M, rfl, rfl, Bool.eq_false_iff.2 hstay⟩
      | cons x X =>
        obtain ⟨X', Y', rfl, hY, hstay⟩ := ih (List.cons.inj heq).2
        exact ⟨l :: X', Y', rfl, hY, hstay⟩

theorem dropHeadings_append (X : List Text) (hstay : (isHeadingLine h && overNothing (levelOf h) Y) = false) :
    ∃ X', dropHeadings (X ++ h :: Y) = X' ++ h :: dropHeadings Y := by
  induction X with
  | nil =>
    refine ⟨[], ?_⟩
    rw [nil_append, dropHeadings_cons, hstay, if_neg Bool.false_ne_true]
    rfl
  | cons x X ih =>
    obtain ⟨X', hX'⟩ := ih
    rw [cons_append, dropHeadings_cons]
    split
    · exact ⟨X', hX'⟩
    · exact ⟨x :: X', by rw [hX']; rfl⟩

theorem emptied_iff (hM : ∀ l ∈ M, isBlank l = false) :
    (∃ X h Y, dropHeadings M = X ++ h :: Y ∧ isHeadingLine h = true ∧ hush (levelOf h) Y = true) ↔
      ∃ X h Y, M = X ++ h :: Y ∧ isHeadingLine h = true ∧ hush (levelOf h) Y = true ∧
        ∃ g, Y.head? = some g ∧ levelOf h < levelOf g := by
  constructor
  · rintro ⟨X, h, Y, heq, hheading, hhush⟩
    obtain ⟨X', Y', rfl, rfl, hstay⟩ := dropHeadings_split heq
    have hY : ∀ l ∈ Y', isBlank l = false := fun l hl => hM l (by simp [hl])
    rw [hush_dropHeadings _ hY] at hhush
    refine ⟨X', h, Y', rfl, hheading, hhush, ?_⟩
    rw [hheading, Bool.true_and, overNothing_eq hY] at hstay
    cases Y' with
    | nil => cases hstay
    | cons g Y' =>
      refine ⟨g, rfl, ?_⟩
      rw [List.head?_cons, all_some, (Bool.and_eq_true_iff.1 hhush).1, Bool.true_and, decide_eq_false_iff_not] at hstay
      omega
  · rintro ⟨X, h, Y, rfl, hheading, hhush, g, hg, hlevel⟩
    have hY : ∀ l ∈ Y, isBlank l = false := fun l hl => hM l (by simp [hl])
    have hstay : (isHeadingLine h && overNothing (levelOf h) Y) = false := by
      rw [overNothing_eq hY, hg, all_some, decide_eq_false (by omega), Bool.and_false, Bool.and_false]
    obtain ⟨X', hX'⟩ := dropHeadings_append X hstay
    exact ⟨X', h, dropHeadings Y, hX', hheading, by rw [hush_dropHeadings _ hY]; exact hhush⟩

end CisApp.Hygiene
