import CisApp.Hygiene.Boundaries

/-! Lines of hashtags, by the scans and by the patterns.

`_HASHTAG_LINE_RE` is read off from the left without going back (`isHashtagLine`), since each hashtag ends where the letters
and digits do.  A newline is one of the gaps between hashtags, so that a block of hashtags at the end of a piece is one match
and its lines can be looked at one by one. -/

namespace CisApp.Hygiene

open Lib Repair Regex List

/-! ## One line -/

/-- `#[A-Za-z][A-Za-z0-9]+[\s,]*`. -/
def hashtagRe : Regex :=
  seq (one (· == '#')) (seq (one Char.isAlpha) (seq (plus (one Char.isAlphanum)) (star (one tagGap))))

def hashtagLineRe : Regex := plus hashtagRe

def IsHashtag (w : Text) : Prop :=
  ∃ c body gap, w = '#' :: c :: (body ++ gap) ∧ c.isAlpha = true ∧ (body ≠ [] ∧ ∀ d ∈ body, d.isAlphanum = true) ∧
    ∀ d ∈ gap, tagGap d = true

variable {l w s : Text}

theorem takes_hashtagRe : Takes hashtagRe l w s ↔ IsHashtag w := by
  constructor
  · intro h
    obtain ⟨a, w, rfl, ha, h⟩ := takes_seq.1 h
    obtain ⟨b, w, rfl, hb, h⟩ := takes_seq.1 h
    obtain ⟨body, gap, rfl, hbody, hgap⟩ := takes_seq.1 h
    obtain ⟨d, rfl, hd⟩ := takes_one.1 ha
    obtain ⟨c, rfl, hc⟩ := takes_one.1 hb
    refine ⟨c, body, gap, ?_, hc, takes_plus_one.1 hbody, takes_star_one.1 hgap⟩
    rw [beq_iff_eq.1 hd]
    rfl
  · rintro ⟨c, body, gap, rfl, hc, hbody, hgap⟩
    refine takes_seq.2 ⟨['#'], c :: (body ++ gap), rfl, takes_one.2 ⟨'#', rfl, rfl⟩, ?_⟩
    refine takes_seq.2 ⟨[c], body ++ gap, rfl, takes_one.2 ⟨c, rfl, hc⟩, ?_⟩
    exact takes_seq.2 ⟨body, gap, rfl, takes_plus_one.2 hbody, takes_star_one.2 hgap⟩

theorem IsHashtag.ne_nil (h : IsHashtag w) : w ≠ [] := by
  obtain ⟨c, body, gap, rfl, -⟩ := h
  exact cons_ne_nil _ _

def Hashtags (w : Text) : Prop := ∃ ws : List Text, ws ≠ [] ∧ w = ws.flatten ∧ ∀ x ∈ ws, IsHashtag x

theorem takes_hashtagLineRe : Takes hashtagLineRe l w s ↔ Hashtags w :=
  takes_plus_flatten (fun _ _ _ => takes_hashtagRe) fun _ => IsHashtag.ne_nil

theorem hashtagsFrom_hash (n : Nat) (c : Char) (rest : Text) : hashtagsFrom (n + 1) ('#' :: c :: rest) =
    (c.isAlpha && (rest.dropWhile Char.isAlphanum).length < rest.length &&
      (((rest.dropWhile Char.isAlphanum).dropWhile tagGap).isEmpty ||
        hashtagsFrom n ((rest.dropWhile Char.isAlphanum).dropWhile tagGap))) := rfl

theorem hashtagsFrom_other {n : Nat} (h : ∀ c rest, s ≠ '#' :: c :: rest) : hashtagsFrom n s = false := by
  unfold hashtagsFrom
  split
  · next c rest => exact absurd rfl (h c rest)
  · rfl

theorem next_length (rest : Text) : ((rest.dropWhile Char.isAlphanum).dropWhile tagGap).length ≤ rest.length :=
  ((dropWhile_suffix _).trans (dropWhile_suffix _)).length_le

theorem hashtagsFrom_of_le {n : Nat} (h : s.length ≤ n) : hashtagsFrom n s = isHashtagLine s := by
  unfold isHashtagLine
  induction n using Nat.strong_induction_on generalizing s with
  | _ n ih =>
    by_cases hs : ∃ c rest, s = '#' :: c :: rest
    · obtain ⟨c, rest, rfl⟩ := hs
      have hnext := next_length rest
      simp only [length_cons] at h ⊢
      obtain ⟨m, rfl⟩ : ∃ m, n = m + 1 := ⟨n - 1, by omega⟩
      rw [hashtagsFrom_hash, hashtagsFrom_hash, ih m (by omega) (by omega), ih (rest.length + 1) (by omega) (by omega)]
    · have hno : ∀ c rest, s ≠ '#' :: c :: rest := fun c rest heq => hs ⟨c, rest, heq⟩
      rw [hashtagsFrom_other hno, hashtagsFrom_other hno]

theorem isHashtagLine_hash (c : Char) (rest : Text) : isHashtagLine ('#' :: c :: rest) =
    (c.isAlpha && (rest.dropWhile Char.isAlphanum).length < rest.length &&
      (((rest.dropWhile Char.isAlphanum).dropWhile tagGap).isEmpty ||
        isHashtagLine ((rest.dropWhile Char.isAlphanum).dropWhile tagGap))) := by
  have hnext := next_length rest
  rw [← hashtagsFrom_of_le (n := rest.length + 2) (by simp), hashtagsFrom_hash, hashtagsFrom_of_le (by omega)]

theorem isHashtagLine_other (h : ∀ c rest, s ≠ '#' :: c :: rest) : isHashtagLine s = false :=
  hashtagsFrom_other h

theorem dropWhile_lt_iff (p : Char → Bool) (s : Text) : (s.dropWhile p).length < s.length ↔ s.takeWhile p ≠ [] := by
  have h := congrArg List.length (takeWhile_append_dropWhile (p := p) (l := s))
  rw [length_append] at h
  rw [← length_pos_iff]
  omega

theorem tagGap_not_alphanum {c : Char} (h : tagGap c = true) : c.isAlphanum = false := by
  unfold tagGap at h
  rw [Bool.or_eq_true, beq_iff_eq] at h
  rcases h with h | rfl
  · refine not_alphanum_of_breaks ?_
    unfold breaks
    rw [h]
    rfl
  · decide

theorem next_eq {body gap rest : Text} (hbody : ∀ d ∈ body, d.isAlphanum = true) (hgap : ∀ d ∈ gap, tagGap d = true)
    (hrest : rest.head?.any (fun c => c.isAlphanum || tagGap c) = false) :
    (body ++ (gap ++ rest)).takeWhile Char.isAlphanum = body ∧
      ((body ++ (gap ++ rest)).dropWhile Char.isAlphanum).dropWhile tagGap = rest := by
  have hrest' : rest.head?.any Char.isAlphanum = false ∧ rest.head?.any tagGap = false := by
    cases hr : rest.head? with
    | none => exact ⟨rfl, rfl⟩
    | some c =>
      rw [hr] at hrest
      exact Bool.or_eq_false_iff.1 hrest
  have hhead : (gap ++ rest).head?.any Char.isAlphanum = false := by
    cases gap with
    | nil => exact hrest'.1
    | cons c gap => exact tagGap_not_alphanum (hgap c (mem_cons_self ..))
  obtain ⟨htake, hdrop⟩ := run_parts hbody hhead
  rw [htake, hdrop]
  exact ⟨rfl, (run_parts hgap hrest'.2).2⟩

theorem isHashtagLine_iff : isHashtagLine s = true ↔ Hashtags s := by
  constructor
  · intro h
    induction hn : s.length using Nat.strong_induction_on generalizing s with
    | _ n ih =>
      by_cases hs : ∃ c rest, s = '#' :: c :: rest
      · obtain ⟨c, rest, rfl⟩ := hs
        have hlen := next_length rest
        rw [isHashtagLine_hash, Bool.and_eq_true, Bool.and_eq_true, decide_eq_true_iff, dropWhile_lt_iff,
          Bool.or_eq_true, List.isEmpty_iff] at h
        obtain ⟨⟨hc, hbody⟩, hnext⟩ := h
        have hparts := takeWhile_append_dropWhile (p := Char.isAlphanum) (l := rest)
        have hparts' := takeWhile_append_dropWhile (p := tagGap) (l := rest.dropWhile Char.isAlphanum)
        have htag : IsHashtag ('#' :: c :: (rest.takeWhile Char.isAlphanum ++
            (rest.dropWhile Char.isAlphanum).takeWhile tagGap)) :=
          ⟨c, _, _, rfl, hc, ⟨hbody, fun d hd => mem_takeWhile_imp hd⟩, fun d hd => mem_takeWhile_imp hd⟩
        have hsplit : '#' :: c :: rest = '#' :: c :: (rest.takeWhile Char.isAlphanum ++
            (rest.dropWhile Char.isAlphanum).takeWhile tagGap) ++ (rest.dropWhile Char.isAlphanum).dropWhile tagGap := by
          rw [cons_append, cons_append, append_assoc, hparts', hparts]
        rw [hsplit]
        rcases hnext with hnext | hnext
        · rw [hnext, append_nil]
          exact ⟨[_], cons_ne_nil _ _, flatten_singleton.symm, forall_mem_singleton.2 htag⟩
        · simp only [length_cons] at hn
          obtain ⟨ws, -, heq, hall⟩ := ih _ (by omega) hnext rfl
          exact ⟨_ :: ws, by simp, by rw [heq]; rfl, forall_mem_cons.2 ⟨htag, hall⟩⟩
      · rw [isHashtagLine_other fun c rest heq => hs ⟨c, rest, heq⟩] at h
        cases h
  · rintro ⟨ws, hne, rfl, hall⟩
    induction ws with
    | nil => exact absurd rfl hne
    | cons x ws ih =>
      obtain ⟨⟨c, body, gap, rfl, hc, hbody, hgap⟩, hmore⟩ := forall_mem_cons.1 hall
      have hrest : ws.flatten.head?.any (fun c => c.isAlphanum || tagGap c) = false := by
        cases ws with
        | nil => rfl
        | cons y ws =>
          obtain ⟨⟨c', body', gap', rfl, -⟩, -⟩ := forall_mem_cons.1 hmore
          show ('#'.isAlphanum || tagGap '#') = false
          decide
      obtain ⟨htake, hdrop⟩ := next_eq hbody.2 hgap hrest
      rw [flatten_cons, cons_append, cons_append, append_assoc, isHashtagLine_hash, hdrop,
        Bool.and_eq_true, Bool.and_eq_true, decide_eq_true_iff, dropWhile_lt_iff, htake, Bool.or_eq_true, List.isEmpty_iff]
      refine ⟨⟨hc, hbody.1⟩, ?_⟩
      cases ws with
      | nil => exact Or.inl rfl
      | cons y ws => exact Or.inr (ih (cons_ne_nil _ _) hmore)

/-! ## A block of lines -/

theorem dropWhile_newline {p : Char → Bool} (hp : p '\n' = false) (a b : Text) :
    (a ++ '\n' :: b).dropWhile p = a.dropWhile p ++ '\n' :: b := by
  rw [dropWhile_append, dropWhile_cons_of_neg (by rw [hp]; exact Bool.false_ne_true)]
  split
  · next hnil => rw [List.isEmpty_iff.1 hnil, nil_append]
  · rfl

theorem dropWhile_gap (a b : Text) : (a ++ '\n' :: b).dropWhile tagGap =
    if (a.dropWhile tagGap).isEmpty then b.dropWhile tagGap else a.dropWhile tagGap ++ '\n' :: b := by
  rw [dropWhile_append, dropWhile_cons_of_pos (by decide)]

theorem isHashtagLine_newline (a b : Text) : isHashtagLine (a ++ '\n' :: b) = (isHashtagLine a && isTailLine b) := by
  induction hn : a.length using Nat.strong_induction_on generalizing a with
  | _ n ih =>
    by_cases ha : ∃ c rest, a = '#' :: c :: rest
    · obtain ⟨c, rest, rfl⟩ := ha
      have hlen := next_length rest
      have hlt : decide ((rest.dropWhile Char.isAlphanum ++ '\n' :: b).length < (rest ++ '\n' :: b).length) =
          decide ((rest.dropWhile Char.isAlphanum).length < rest.length) := by
        rw [length_append, length_append]
        exact decide_eq_decide.2 (Nat.add_lt_add_iff_right)
      rw [cons_append, cons_append, isHashtagLine_hash, isHashtagLine_hash,
        dropWhile_newline (by decide), dropWhile_gap, hlt]
      cases hnext : ((rest.dropWhile Char.isAlphanum).dropWhile tagGap).isEmpty with
      | true =>
        rw [if_pos rfl, Bool.true_or, Bool.and_true]
        rfl
      | false =>
        simp only [length_cons] at hn
        rw [if_neg Bool.false_ne_true, ih _ (by omega) _ rfl, Bool.false_or]
        have hne : ((rest.dropWhile Char.isAlphanum).dropWhile tagGap ++ '\n' :: b).isEmpty = false := by simp
        rw [hne, Bool.false_or, Bool.and_assoc (_ && _)]
    · rw [isHashtagLine_other fun c rest heq => ha ⟨c, rest, heq⟩, Bool.false_and]
      cases a with
      | nil => exact isHashtagLine_other (by simp)
      | cons d a =>
        cases a with
        | nil =>
          by_cases hd : d = '#'
          · subst hd
            exact isHashtagLine_hash '\n' b
          · exact isHashtagLine_other fun c rest heq => hd (List.cons.inj heq).1
        | cons c rest =>
          refine isHashtagLine_other fun c' rest' heq => ha ⟨c, rest, ?_⟩
          rw [(List.cons.inj heq).1]

theorem isTailLine_newline (a b : Text) : isTailLine (a ++ '\n' :: b) = (isTailLine a && isTailLine b) := by
  unfold isTailLine
  rw [dropWhile_gap]
  cases hnil : (a.dropWhile tagGap).isEmpty with
  | true =>
    rw [if_pos rfl, Bool.true_or, Bool.true_and]
  | false =>
    have hne : (a.dropWhile tagGap ++ '\n' :: b).isEmpty = false := by simp
    rw [if_neg Bool.false_ne_true, hne, Bool.false_or, Bool.false_or, isHashtagLine_newline]
    rfl

theorem isTailFirst_newline (a b : Text) : isTailFirst (a ++ '\n' :: b) = (isTailFirst a && isTailLine b) := by
  unfold isTailFirst
  rw [dropWhile_newline (by decide), isHashtagLine_newline]

theorem isTailLine_linesAfter (l : Text) (ls : List Text) :
    isTailLine (l ++ linesAfter ls) = (isTailLine l && ls.all isTailLine) := by
  induction ls generalizing l with
  | nil => simp [linesAfter]
  | cons k ls ih =>
    show isTailLine (l ++ '\n' :: (k ++ linesAfter ls)) = _
    rw [isTailLine_newline, ih, all_cons]

theorem isTailFirst_linesAfter (l : Text) (ls : List Text) :
    isTailFirst (l ++ linesAfter ls) = (isTailFirst l && ls.all isTailLine) := by
  cases ls with
  | nil => simp [linesAfter]
  | cons k ls =>
    show isTailFirst (l ++ '\n' :: (k ++ linesAfter ls)) = _
    rw [isTailFirst_newline, isTailLine_linesAfter, all_cons]

theorem isTailLine_of_first (h : isTailFirst l = true) : isTailLine l = true := by
  unfold isTailFirst at h
  unfold isTailLine
  have hparts := takeWhile_append_dropWhile (p := fun c => c == ' ' || c == '\t') (l := l)
  have hblank : ∀ c ∈ l.takeWhile (fun c => c == ' ' || c == '\t'), tagGap c = true := by
    intro c hc
    have := mem_takeWhile_imp hc
    rw [Bool.or_eq_true, beq_iff_eq, beq_iff_eq] at this
    rcases this with rfl | rfl <;> decide
  generalize l.dropWhile (fun c => c == ' ' || c == '\t') = x at hparts h
  obtain ⟨c, rest, rfl⟩ : ∃ c rest, x = '#' :: c :: rest := by
    by_contra hx
    rw [isHashtagLine_other fun c rest heq => hx ⟨c, rest, heq⟩] at h
    cases h
  have hhead : ('#' :: c :: rest).head?.any tagGap = false := by
    show tagGap '#' = false
    decide
  rw [← hparts, (run_parts hblank hhead).2, h, Bool.or_true]

/-! ## The block at the end -/

/-- `[ \t]`. -/
def blank (c : Char) : Bool := c == ' ' || c == '\t'

/-- `\n[ \t]*(?:#T[\s,]*)+[ \t]*`. -/
def tailGroupRe : Regex :=
  seq (one (· == '\n')) (seq (star (one blank)) (seq hashtagLineRe (star (one blank))))

/-- `(?:\n[ \t]*(?:#T[\s,]*)+[ \t]*)+\s*$`. -/
def hashtagTailRe : Regex := seq (plus tailGroupRe) (seq (star (one isSpace)) last)

def IsGroup (w : Text) : Prop :=
  ∃ a x b, w = '\n' :: (a ++ (x ++ b)) ∧ (∀ c ∈ a, blank c = true) ∧ Hashtags x ∧ ∀ c ∈ b, blank c = true

theorem takes_tailGroupRe : Takes tailGroupRe l w s ↔ IsGroup w := by
  constructor
  · intro h
    obtain ⟨n, w, rfl, hn, h⟩ := takes_seq.1 h
    obtain ⟨a, w, rfl, ha, h⟩ := takes_seq.1 h
    obtain ⟨x, b, rfl, hx, hb⟩ := takes_seq.1 h
    obtain ⟨c, rfl, hc⟩ := takes_one.1 hn
    refine ⟨a, x, b, ?_, takes_star_one.1 ha, takes_hashtagLineRe.1 hx, takes_star_one.1 hb⟩
    rw [beq_iff_eq.1 hc]
    rfl
  · rintro ⟨a, x, b, rfl, ha, hx, hb⟩
    refine takes_seq.2 ⟨['\n'], a ++ (x ++ b), rfl, takes_one.2 ⟨'\n', rfl, rfl⟩, ?_⟩
    refine takes_seq.2 ⟨a, x ++ b, rfl, takes_star_one.2 ha, ?_⟩
    exact takes_seq.2 ⟨x, b, rfl, takes_hashtagLineRe.2 hx, takes_star_one.2 hb⟩

theorem takes_tailGroups : Takes (plus tailGroupRe) l w s ↔
    ∃ ws : List Text, ws ≠ [] ∧ w = ws.flatten ∧ ∀ x ∈ ws, IsGroup x := by
  refine takes_plus_flatten (fun _ _ _ => takes_tailGroupRe) ?_
  rintro w ⟨a, x, b, rfl, -⟩
  exact cons_ne_nil _ _

theorem blank_gap {c : Char} (h : blank c = true) : tagGap c = true := by
  unfold blank at h
  rw [Bool.or_eq_true, beq_iff_eq, beq_iff_eq] at h
  rcases h with rfl | rfl <;> decide

theorem space_gap {c : Char} (h : isSpace c = true) : tagGap c = true := by
  unfold tagGap
  rw [h]
  rfl

variable {x : Text}

theorem Hashtags.hash (h : Hashtags x) : ∃ c rest, x = '#' :: c :: rest := by
  by_contra hx
  have := isHashtagLine_iff.2 h
  rw [isHashtagLine_other fun c rest heq => hx ⟨c, rest, heq⟩] at this
  cases this

theorem Hashtags.append_gap {g : Text} (h : Hashtags x) (hg : ∀ c ∈ g, tagGap c = true) : Hashtags (x ++ g) := by
  obtain ⟨ws, hne, rfl, hall⟩ := h
  obtain ⟨ws, y, rfl⟩ : ∃ ys y, ws = ys ++ [y] := ⟨_, _, (dropLast_append_getLast hne).symm⟩
  obtain ⟨c, body, gap, rfl, hc, hbody, hgap⟩ := hall y (mem_append_right _ (mem_singleton_self _))
  refine ⟨ws ++ ['#' :: c :: (body ++ (gap ++ g))], by simp, by simp, fun z hz => ?_⟩
  rcases mem_append.1 hz with hz | hz
  · exact hall z (mem_append_left _ hz)
  · rw [mem_singleton.1 hz]
    refine ⟨c, body, gap ++ g, rfl, hc, hbody, fun d hd => ?_⟩
    exact (mem_append.1 hd).elim (hgap d) (hg d)

theorem isTailFirst_group {a : Text} (ha : ∀ c ∈ a, blank c = true) (hx : Hashtags x) : isTailFirst (a ++ x) = true := by
  obtain ⟨c, rest, rfl⟩ := hx.hash
  have hhead : ('#' :: c :: rest).head?.any blank = false := by
    show blank '#' = false
    decide
  show isHashtagLine ((a ++ '#' :: c :: rest).dropWhile blank) = true
  rw [(run_parts ha hhead).2]
  exact isHashtagLine_iff.2 hx

theorem isTailFirst_groups {ws : List Text} (hne : ws ≠ []) (hall : ∀ x ∈ ws, IsGroup x) {g : Text}
    (hg : ∀ c ∈ g, tagGap c = true) : ∃ rest, ws.flatten ++ g = '\n' :: rest ∧ isTailFirst rest = true := by
  induction ws with
  | nil => exact absurd rfl hne
  | cons w ws ih =>
    obtain ⟨⟨a, x, b, rfl, ha, hx, hb⟩, hmore⟩ := forall_mem_cons.1 hall
    by_cases hws : ws = []
    · subst hws
      refine ⟨a ++ (x ++ (b ++ g)), by simp, isTailFirst_group ha (hx.append_gap fun c hc => ?_)⟩
      exact (mem_append.1 hc).elim (fun hc => blank_gap (hb c hc)) (hg c)
    · obtain ⟨rest, heq, hrest⟩ := ih hws hmore
      refine ⟨a ++ (x ++ b) ++ '\n' :: rest, ?_, ?_⟩
      · rw [flatten_cons, append_assoc, heq]
        rfl
      · rw [isTailFirst_newline, isTailLine_of_first hrest, Bool.and_true]
        exact isTailFirst_group ha (hx.append_gap fun c hc => blank_gap (hb c hc))

theorem ends_hashtagTailRe {t : Text} :
    hashtagTailRe.ends (l, t) ≠ [] ↔ ∃ rest, t = '\n' :: rest ∧ isTailFirst rest = true := by
  rw [ends_ne_nil_iff]
  constructor
  · rintro ⟨w, s, rfl, h⟩
    obtain ⟨g, w, rfl, hgroups, h⟩ := takes_seq.1 h
    obtain ⟨sp, e, rfl, hsp, he⟩ := takes_seq.1 h
    obtain ⟨rfl, hs⟩ := takes_last.1 he
    obtain ⟨ws, hne, rfl, hall⟩ := takes_tailGroups.1 hgroups
    rw [append_nil, append_assoc]
    refine isTailFirst_groups hne hall fun c hc => ?_
    rcases mem_append.1 hc with hc | hc
    · exact space_gap (takes_star_one.1 hsp c hc)
    · rcases hs with rfl | rfl
      · cases hc
      · rw [mem_singleton.1 hc]
        decide
  · rintro ⟨rest, rfl, hrest⟩
    have hgroup : IsGroup ('\n' :: rest) := by
      refine ⟨rest.takeWhile blank, rest.dropWhile blank, [], ?_, fun c hc => mem_takeWhile_imp hc,
        isHashtagLine_iff.1 hrest, by simp⟩
      rw [append_nil, takeWhile_append_dropWhile]
    refine ⟨'\n' :: rest, [], (append_nil _).symm, takes_seq.2 ⟨'\n' :: rest, [], (append_nil _).symm, ?_, ?_⟩⟩
    · exact takes_tailGroups.2 ⟨['\n' :: rest], by simp, by simp, forall_mem_singleton.2 hgroup⟩
    · exact takes_seq.2 ⟨[], [], rfl, takes_star_one.2 (by simp), takes_last.2 ⟨rfl, Or.inl rfl⟩⟩

theorem search_line (hx : '\n' ∉ x) (l t : Text) :
    search hashtagTailRe l (x ++ t) = search hashtagTailRe (x.reverse ++ l) t := by
  refine search_append fun a b heq hlt => ?_
  by_contra hne
  obtain ⟨rest, rfl, -⟩ := ends_hashtagTailRe.1 hne
  obtain ⟨u, hu, rfl, hb⟩ := suffix_split heq hlt
  obtain ⟨d, u, rfl⟩ := exists_cons_of_ne_nil hu
  obtain ⟨rfl, -⟩ := List.cons.inj hb
  exact hx (mem_append_right _ (mem_cons_self ..))

/-- Where the first line is from which on there are only hashtags; `p` is where the lines start. -/
def firstTail : Nat → List Text → Option Nat
  | _, [] => none
  | p, l :: ls => if isTailFirst l && ls.all isTailLine then some p else firstTail (p + l.length + 1) ls

theorem firstTail_cons (p : Nat) (l : Text) (ls : List Text) : firstTail p (l :: ls) =
    if isTailFirst l && ls.all isTailLine then some p else firstTail (p + l.length + 1) ls := rfl

theorem search_hashtagTailRe {ls : List Text} (hls : ∀ x ∈ ls, '\n' ∉ x) (l : Text) :
    (search hashtagTailRe l (linesAfter ls)).map (·.1.1.length) = firstTail l.length ls := by
  induction ls generalizing l with
  | nil =>
    show ((hashtagTailRe.ends (l, [])).head?.map _).map _ = none
    rfl
  | cons x ls ih =>
    obtain ⟨hx, hls⟩ := forall_mem_cons.1 hls
    have hfirst := isTailFirst_linesAfter x ls
    show (search hashtagTailRe l ('\n' :: (x ++ linesAfter ls))).map _ = _
    rw [firstTail_cons, ← hfirst]
    split
    · next hhere =>
      have hne := ends_hashtagTailRe (l := l).2 ⟨_, rfl, hhere⟩
      obtain ⟨z, zs, hz⟩ := exists_cons_of_ne_nil hne
      rw [search_of_head? (by rw [hz]; rfl)]
      rfl
    · next hhere =>
      have hnone : hashtagTailRe.ends (l, '\n' :: (x ++ linesAfter ls)) = [] := by
        by_contra hne
        obtain ⟨rest, hrest, htail⟩ := ends_hashtagTailRe.1 hne
        rw [← (List.cons.inj hrest).2] at htail
        exact hhere htail
      rw [search_cons_of_nil hnone, search_line hx, ih hls]
      congr 1
      simp only [length_append, length_reverse, length_cons]
      omega

theorem firstTail_concat (p : Nat) (A : List Text) (l : Text) : firstTail p (A ++ [l]) =
    if isTailLine l then (firstTail p A).or (if isTailFirst l then some (p + (linesAfter A).length) else none) else none := by
  induction A generalizing p with
  | nil =>
    show (if isTailFirst l && true then some p else none) = _
    cases hfirst : isTailFirst l with
    | true => rw [isTailLine_of_first hfirst]; rfl
    | false => simp [firstTail]
  | cons k A ih =>
    have hlen : p + k.length + 1 + (linesAfter A).length = p + (linesAfter (k :: A)).length := by
      show _ = p + ('\n' :: (k ++ linesAfter A)).length
      rw [length_cons, length_append]
      omega
    rw [cons_append, firstTail_cons, firstTail_cons, ih, hlen, all_append, all_cons, all_nil, Bool.and_true]
    cases isTailLine l with
    | false => simp
    | true =>
      rw [Bool.and_true, if_pos rfl, if_pos rfl]
      split
      · rfl
      · rfl

theorem tailFrom_eq (p : Nat) (A : List Text) (start : Option Nat) :
    tailFrom A.reverse (p + (linesAfter A).length) start = (firstTail p A).or start := by
  induction A using List.reverseRecOn generalizing start with
  | nil => rfl
  | append_singleton A l ih =>
    have hpos : p + (linesAfter (A ++ [l])).length - (l.length + 1) = p + (linesAfter A).length := by
      have : linesAfter (A ++ [l]) = linesAfter A ++ '\n' :: l := by simp [linesAfter]
      rw [this, length_append, length_cons]
      omega
    rw [reverse_concat]
    unfold tailFrom
    rw [hpos, ih, firstTail_concat]
    cases isTailLine l with
    | false => rfl
    | true =>
      rw [if_pos rfl, if_pos rfl, Option.or_assoc]
      cases isTailFirst l <;> rfl

theorem hashtag_tail_start_eq (body : Text) :
    hashtagTailStart body = (search hashtagTailRe [] body).map (·.1.1.length) := by
  obtain ⟨first, ls, hlines⟩ := exists_cons_of_ne_nil (lines_ne_nil body)
  have hbody : body = first ++ linesAfter ls := lines_insert (A := []) hlines
  have hnot : ∀ x ∈ first :: ls, '\n' ∉ x := fun x hx => notMem_of_mem_lines (hlines ▸ hx)
  obtain ⟨hfirst, hls⟩ := forall_mem_cons.1 hnot
  unfold hashtagTailStart
  rw [hlines, tail_cons]
  rw [hbody, search_line hfirst, search_hashtagTailRe hls, length_append, tailFrom_eq, Option.or_none,
    append_nil, length_reverse]

/-- The scans find what the patterns that they replaced find. -/
theorem boundary_scans_eq_patterns :
    (∀ (text : Text) (i : Nat), i ≤ text.length →
      wordBeforeDot text i = ((search wordBeforeDotRe [] (text.take i)).map matched).getD []) ∧
    (∀ (line : Text) (pos : Nat), '\n' ∉ line → pos ≤ line.length →
      endMatches line line.length pos = finditer sentenceEndRe (line.length + 1) (line.take pos).reverse (line.drop pos)) ∧
    ∀ body : Text, hashtagTailStart body = (search hashtagTailRe [] body).map (·.1.1.length) := by
  refine ⟨fun text i hi => ?_, fun line pos hline hpos => ?_, hashtag_tail_start_eq⟩
  · have h := word_before_dot_eq (text.take i) (text.drop i)
    rw [take_append_drop, length_take_of_le hi] at h
    exact h
  · exact endMatches_eq hline line.length hpos (Nat.sub_le _ _) (Nat.lt_succ_of_le (Nat.sub_le _ _))

end CisApp.Hygiene
