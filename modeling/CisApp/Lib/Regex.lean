import CisApp.Lib.Text

/-!
# Backtracking regular expressions

`ends r z` are the places where a match of `r` that starts at `z` can end, in the order in which a backtracking
matcher finds them: the first alternative first, and as many repetitions as possible first.  The match is the
first of them, `search` takes the leftmost place that has one, and `finditer` goes on behind each match.

A place holds the text before it and the text after it, so that anchors, a look-behind and a look-ahead need no
more than the place.

* `Takes r l w s`: `r` matches `w` between `l` and `s`, in some way.  The lemmas `takes_…` say what that means for
  each construct, so that what a pattern matches becomes a statement about words.
* `ends_star_one`: a repeated class ends behind its whole run first, and otherwise before another character of the
  class.  `ends_star_toList`: a pattern with one end at most, repeated, ends behind each of its rounds, the last one
  first.
-/

namespace CisApp.Lib

open List Option

/-- A place in a text: what stands before it, the last character first, and what stands after it. -/
abbrev Place := Text × Text

inductive Regex where
  | empty
  | one (p : Char → Bool)
  | seq (r r' : Regex)
  | alt (r r' : Regex)
  | star (r : Regex)
  /-- `^`. -/
  | first
  /-- `$`: the end of the text, or the place before a newline that ends it. -/
  | last
  /-- `(?<![…])`. -/
  | notAfter (p : Char → Bool)
  /-- `(?=…)`. -/
  | ahead (r : Regex)

namespace Regex

/-- `r+`. -/
def plus (r : Regex) : Regex := seq r (star r)

/-- `r?`. -/
def opt (r : Regex) : Regex := alt r empty

/-- The characters of a word, each up to `eq`. -/
def word (eq : Char → Char → Bool) : Text → Regex
  | [] => empty
  | c :: w => seq (one (eq c)) (word eq w)

/-- `r₁|r₂|…`. -/
def choice : List Regex → Regex
  | [] => one fun _ => false
  | r :: rs => alt r (choice rs)

/-- As many rounds of `f` as possible first; a round takes at least one character. -/
def rounds (f : Place → List Place) : Nat → Place → List Place
  | 0, z => [z]
  | n + 1, z => ((f z).filter fun z' => z'.2.length < z.2.length).flatMap (rounds f n) ++ [z]

def ends : Regex → Place → List Place
  | empty => fun z => [z]
  | one p => fun z =>
    match z.2 with
    | [] => []
    | c :: s => if p c then [(c :: z.1, s)] else []
  | seq r r' => fun z => (r.ends z).flatMap r'.ends
  | alt r r' => fun z => r.ends z ++ r'.ends z
  | star r => fun z => rounds r.ends z.2.length z
  | first => fun z => if z.1 = [] then [z] else []
  | last => fun z => if z.2 = [] ∨ z.2 = ['\n'] then [z] else []
  | notAfter p => fun z => if !z.1.head?.any p then [z] else []
  | ahead r => fun z => if r.ends z ≠ [] then [z] else []

/-- `re.search` from a place on: where the match starts and where it ends. -/
def search (r : Regex) : Text → Text → Option (Place × Place)
  | l, [] => (r.ends (l, [])).head?.map fun z => ((l, []), z)
  | l, c :: s =>
    match (r.ends (l, c :: s)).head? with
    | some z => some ((l, c :: s), z)
    | none => search r (c :: l) s

def matched (m : Place × Place) : Text := m.1.2.take (m.1.2.length - m.2.2.length)

/-- `re.finditer` from a place on, as positions. -/
def finditer (r : Regex) : Nat → Text → Text → List (Nat × Nat)
  | 0, _, _ => []
  | fuel + 1, l, s =>
    match search r l s with
    | none => []
    | some (z, z') =>
      (z.1.length, z'.1.length) ::
        if z'.2.length < z.2.length then finditer r fuel z'.1 z'.2
        else
          match z.2 with
          | [] => []
          | c :: s => finditer r fuel (c :: z.1) s

/-- `re.fullmatch`. -/
def fullmatch (r : Regex) (s : Text) : Bool := (r.ends ([], s)).any fun z => z.2.isEmpty

/-- Group 1 of the first match of `(r)r'`. -/
def group (r r' : Regex) (t : Text) : Option Text :=
  (search (seq r r') [] t).bind fun m => ((r.ends m.1).find? fun y => r'.ends y ≠ []).map fun y => matched (m.1, y)

/-! ## What a pattern matches -/

/-- The pattern matches `w` between `l` and `s`. -/
def Takes (r : Regex) (l w s : Text) : Prop := (w.reverse ++ l, s) ∈ r.ends (l, w ++ s)

/-- `z'` is behind a word that starts at `z`. -/
def Behind (z z' : Place) : Prop := ∃ w, z.2 = w ++ z'.2 ∧ z'.1 = w.reverse ++ z.1

theorem behind_refl (z : Place) : Behind z z := ⟨[], rfl, rfl⟩

theorem Behind.trans {z z' z'' : Place} (h : Behind z z') (h' : Behind z' z'') : Behind z z'' := by
  obtain ⟨w, hw, hl⟩ := h
  obtain ⟨w', hw', hl'⟩ := h'
  refine ⟨w ++ w', ?_, ?_⟩
  · rw [hw, hw', append_assoc]
  · rw [hl', hl, reverse_append, append_assoc]

theorem behind_rounds {f : Place → List Place} (hf : ∀ z, ∀ z' ∈ f z, Behind z z') (n : Nat) (z : Place) :
    ∀ z' ∈ rounds f n z, Behind z z' := by
  induction n generalizing z with
  | zero =>
    intro z' hz'
    rw [mem_singleton.1 hz']
    exact behind_refl z
  | succ n ih =>
    intro z' hz'
    rcases mem_append.1 hz' with hz' | hz'
    · obtain ⟨y, hy, hz'⟩ := mem_flatMap.1 hz'
      exact (hf z y (mem_filter.1 hy).1).trans (ih y z' hz')
    · rw [mem_singleton.1 hz']
      exact behind_refl z

theorem mem_check {c : Prop} [Decidable c] {z z' : Place} : z' ∈ (if c then [z] else []) ↔ c ∧ z' = z := by
  split
  · next hc => simp [hc]
  · next hc => simp [hc]

theorem behind_of_mem_ends (r : Regex) (z : Place) : ∀ z' ∈ r.ends z, Behind z z' := by
  induction r generalizing z with
  | empty =>
    intro z' hz'
    rw [mem_singleton.1 hz']
    exact behind_refl z
  | one p =>
    intro z' hz'
    obtain ⟨l, s⟩ := z
    cases s with
    | nil => cases hz'
    | cons c s =>
      unfold ends at hz'
      dsimp only at hz'
      split at hz'
      · rw [mem_singleton.1 hz']
        exact ⟨[c], rfl, rfl⟩
      · cases hz'
  | seq r r' ih ih' =>
    intro z' hz'
    obtain ⟨y, hy, hz'⟩ := mem_flatMap.1 hz'
    exact (ih z y hy).trans (ih' y z' hz')
  | alt r r' ih ih' =>
    intro z' hz'
    rcases mem_append.1 hz' with hz' | hz'
    · exact ih z z' hz'
    · exact ih' z z' hz'
  | star r ih => exact behind_rounds ih _ z
  | first =>
    intro z' hz'
    rw [(mem_check.1 hz').2]
    exact behind_refl z
  | last =>
    intro z' hz'
    rw [(mem_check.1 hz').2]
    exact behind_refl z
  | notAfter p =>
    intro z' hz'
    rw [(mem_check.1 hz').2]
    exact behind_refl z
  | ahead r _ =>
    intro z' hz'
    rw [(mem_check.1 hz').2]
    exact behind_refl z

theorem mem_ends_iff {r : Regex} {l t : Text} {z : Place} :
    z ∈ r.ends (l, t) ↔ ∃ w s, t = w ++ s ∧ z = (w.reverse ++ l, s) ∧ Takes r l w s := by
  constructor
  · intro hz
    obtain ⟨w, ht, hl⟩ := behind_of_mem_ends r (l, t) z hz
    refine ⟨w, z.2, ht, Prod.ext hl rfl, ?_⟩
    unfold Takes
    rw [← ht, ← hl]
    exact hz
  · rintro ⟨w, s, rfl, rfl, h⟩
    exact h

theorem ends_ne_nil_iff {r : Regex} {l t : Text} : r.ends (l, t) ≠ [] ↔ ∃ w s, t = w ++ s ∧ Takes r l w s := by
  constructor
  · intro hne
    obtain ⟨z, hz⟩ := exists_mem_of_ne_nil _ hne
    obtain ⟨w, s, ht, -, h⟩ := mem_ends_iff.1 hz
    exact ⟨w, s, ht, h⟩
  · rintro ⟨w, s, rfl, h⟩
    exact ne_nil_of_mem h

section takes

variable {r r' : Regex} {p : Char → Bool} {l w s : Text}

theorem behind_eq_iff : ((w.reverse ++ l, s) : Place) = (l, w ++ s) ↔ w = [] := by
  rw [Prod.mk.injEq]
  constructor
  · rintro ⟨hl, -⟩
    exact reverse_eq_nil_iff.1 (append_left_eq_self.1 hl)
  · rintro rfl
    exact ⟨rfl, rfl⟩

@[simp] theorem takes_empty : Takes empty l w s ↔ w = [] := mem_singleton.trans behind_eq_iff

@[simp] theorem takes_one : Takes (one p) l w s ↔ ∃ c, w = [c] ∧ p c = true := by
  unfold Takes ends
  constructor
  · intro h
    split at h
    · cases h
    · next c t ht =>
      split at h
      · next hc =>
        obtain ⟨hl, hs⟩ := Prod.mk.inj (mem_singleton.1 h)
        have hw : w.reverse = [c] := append_cancel_right (hl.trans (singleton_append).symm)
        exact ⟨c, by rw [← reverse_reverse w, hw]; rfl, hc⟩
      · cases h
  · rintro ⟨c, rfl, hc⟩
    simp [hc]

theorem takes_seq : Takes (seq r r') l w s ↔
    ∃ a b, w = a ++ b ∧ Takes r l a (b ++ s) ∧ Takes r' (a.reverse ++ l) b s := by
  constructor
  · intro h
    obtain ⟨y, hy, hz⟩ := mem_flatMap.1 h
    obtain ⟨a, t, ht, rfl, ha⟩ := mem_ends_iff.1 hy
    obtain ⟨b, s', rfl, heq, hb⟩ := mem_ends_iff.1 hz
    obtain ⟨hl, rfl⟩ := Prod.mk.inj heq
    have hw : w = a ++ b := by
      rw [← append_assoc] at ht
      exact append_cancel_right ht
    exact ⟨a, b, hw, ha, hb⟩
  · rintro ⟨a, b, rfl, ha, hb⟩
    refine mem_flatMap.2 ⟨(a.reverse ++ l, b ++ s), ?_, ?_⟩
    · rw [append_assoc]
      exact ha
    · rw [reverse_append, append_assoc]
      exact hb

theorem takes_alt : Takes (alt r r') l w s ↔ Takes r l w s ∨ Takes r' l w s := mem_append

theorem takes_opt : Takes (opt r) l w s ↔ Takes r l w s ∨ w = [] := by
  unfold opt
  rw [takes_alt, takes_empty]

@[simp] theorem takes_first : Takes first l w s ↔ w = [] ∧ l = [] := by
  unfold Takes ends
  rw [mem_check, behind_eq_iff, and_comm]

@[simp] theorem takes_last : Takes last l w s ↔ w = [] ∧ (s = [] ∨ s = ['\n']) := by
  unfold Takes ends
  rw [mem_check, behind_eq_iff, and_comm]
  refine and_congr_right fun hw => ?_
  rw [hw]
  exact Iff.rfl

@[simp] theorem takes_notAfter : Takes (notAfter p) l w s ↔ w = [] ∧ l.head?.any p = false := by
  unfold Takes ends
  rw [mem_check, behind_eq_iff, and_comm, Bool.not_eq_true']

theorem takes_word {eq : Char → Char → Bool} {u : Text} :
    Takes (word eq u) l w s ↔ List.Forall₂ (fun c d => eq c d = true) u w := by
  induction u generalizing l w with
  | nil =>
    unfold word
    rw [takes_empty, forall₂_nil_left_iff]
  | cons c u ih =>
    unfold word
    rw [takes_seq, forall₂_cons_left_iff]
    constructor
    · rintro ⟨a, b, rfl, ha, hb⟩
      obtain ⟨d, rfl, hd⟩ := takes_one.1 ha
      exact ⟨d, b, hd, ih.1 hb, rfl⟩
    · rintro ⟨d, b, hd, hb, rfl⟩
      exact ⟨[d], b, rfl, takes_one.2 ⟨d, rfl, hd⟩, ih.2 hb⟩

theorem takes_word_eq {u : Text} : Takes (word (· == ·) u) l w s ↔ w = u := by
  have heq : (fun c d : Char => (c == d) = true) = Eq := by
    funext c d
    rw [beq_iff_eq]
  rw [takes_word, heq, forall₂_eq_eq_eq]
  exact eq_comm

theorem takes_choice {rs : List Regex} : Takes (choice rs) l w s ↔ ∃ r ∈ rs, Takes r l w s := by
  induction rs with
  | nil =>
    unfold choice
    simp
  | cons r rs ih =>
    unfold choice
    rw [takes_alt, ih]
    simp

theorem rounds_of_le {f : Place → List Place} {n : Nat} {z : Place} (h : z.2.length ≤ n) :
    rounds f n z = rounds f z.2.length z := by
  induction n using Nat.strong_induction_on generalizing z with
  | h n ih =>
    cases n with
    | zero =>
      rw [Nat.le_zero.1 h]
    | succ n =>
      cases hlen : z.2.length with
      | zero =>
        -- no round can take a character
        show ((f z).filter _).flatMap _ ++ [z] = [z]
        rw [filter_eq_nil_iff.2]
        · rfl
        · intro z' _
          rw [hlen]
          simp
      | succ m =>
        show ((f z).filter _).flatMap (rounds f n) ++ [z] = ((f z).filter _).flatMap (rounds f m) ++ [z]
        congr 1
        refine flatMap_congr fun z' hz' => ?_
        have hlt : z'.2.length < z.2.length := of_decide_eq_true (mem_filter.1 hz').2
        have hm : z'.2.length ≤ m := by omega
        rw [ih n (Nat.lt_succ_self n) (by omega), ih m (by omega) hm]

theorem takes_star : Takes (star r) l w s ↔
    w = [] ∨ ∃ a b, w = a ++ b ∧ a ≠ [] ∧ Takes r l a (b ++ s) ∧ Takes (star r) (a.reverse ++ l) b s := by
  show (_ : Place) ∈ rounds r.ends (w ++ s).length (l, w ++ s) ↔ _
  constructor
  · intro h
    cases hlen : (w ++ s).length with
    | zero =>
      left
      exact (append_eq_nil_iff.1 (length_eq_zero_iff.1 hlen)).1
    | succ n =>
      rw [hlen] at h
      rcases mem_append.1 h with h | h
      · right
        obtain ⟨y, hy, hz⟩ := mem_flatMap.1 h
        obtain ⟨hy, hlt⟩ := mem_filter.1 hy
        obtain ⟨a, t, ht, rfl, ha⟩ := mem_ends_iff.1 hy
        have hlt' : t.length < (w ++ s).length := of_decide_eq_true hlt
        have hane : a ≠ [] := by
          rintro rfl
          rw [ht] at hlt'
          simp at hlt'
        rw [rounds_of_le (by dsimp only; omega)] at hz
        obtain ⟨b, s', rfl, heq, hb⟩ := (mem_ends_iff (r := star r)).1 hz
        obtain ⟨hl, rfl⟩ := Prod.mk.inj heq
        have hw : w = a ++ b := by
          rw [← append_assoc] at ht
          exact append_cancel_right ht
        exact ⟨a, b, hw, hane, ha, hb⟩
      · left
        exact behind_eq_iff.1 (mem_singleton.1 h)
  · rintro (rfl | ⟨a, b, rfl, hane, ha, hb⟩)
    · cases hlen : s.length with
      | zero =>
        rw [nil_append, hlen]
        exact mem_singleton_self _
      | succ n =>
        rw [nil_append, hlen]
        exact mem_append_right _ (mem_singleton_self _)
    · have hpos : 0 < a.length := length_pos_iff.2 hane
      obtain ⟨n, hn⟩ : ∃ n, (a ++ b ++ s).length = n + 1 := ⟨(a ++ b ++ s).length - 1, by simp; omega⟩
      rw [hn]
      refine mem_append_left _ (mem_flatMap.2 ⟨(a.reverse ++ l, b ++ s), mem_filter.2 ⟨?_, ?_⟩, ?_⟩)
      · rw [append_assoc]
        exact ha
      · simp
        omega
      · rw [rounds_of_le (by simp at hn ⊢; omega), reverse_append, append_assoc]
        exact hb

theorem takes_star_one : Takes (star (one p)) l w s ↔ ∀ c ∈ w, p c = true := by
  induction w generalizing l with
  | nil =>
    rw [takes_star]
    simp
  | cons c w ih =>
    rw [takes_star]
    constructor
    · rintro (h | ⟨a, b, hw, -, ha, hb⟩)
      · cases h
      · obtain ⟨c', rfl, hc⟩ := takes_one.1 ha
        obtain ⟨rfl, rfl⟩ := List.cons.inj hw
        intro d hd
        rcases mem_cons.1 hd with rfl | hd
        · exact hc
        · exact ih.1 hb d hd
    · intro h
      exact Or.inr ⟨[c], w, rfl, by simp, takes_one.2 ⟨c, rfl, h c mem_cons_self⟩,
        ih.2 fun d hd => h d (mem_cons_of_mem _ hd)⟩

theorem takes_plus_one : Takes (plus (one p)) l w s ↔ w ≠ [] ∧ ∀ c ∈ w, p c = true := by
  unfold plus
  rw [takes_seq]
  constructor
  · rintro ⟨a, b, rfl, ha, hb⟩
    obtain ⟨c, rfl, hc⟩ := takes_one.1 ha
    refine ⟨by simp, fun d hd => ?_⟩
    rcases mem_cons.1 hd with rfl | hd
    · exact hc
    · exact takes_star_one.1 hb d hd
  · rintro ⟨hne, hall⟩
    cases w with
    | nil => exact absurd rfl hne
    | cons c w =>
      exact ⟨[c], w, rfl, takes_one.2 ⟨c, rfl, hall c mem_cons_self⟩,
        takes_star_one.2 fun d hd => hall d (mem_cons_of_mem _ hd)⟩

theorem takes_star_flatten {P : Text → Prop} (hr : ∀ l w s, Takes r l w s ↔ P w) (hne : ∀ w, P w → w ≠ []) :
    Takes (star r) l w s ↔ ∃ ws : List Text, w = ws.flatten ∧ ∀ x ∈ ws, P x := by
  constructor
  · intro h
    induction hn : w.length using Nat.strong_induction_on generalizing l w with
    | _ n ih =>
      rcases takes_star.1 h with rfl | ⟨a, b, rfl, hane, ha, hb⟩
      · exact ⟨[], rfl, by simp⟩
      · have hpos := length_pos_iff.2 hane
        rw [length_append] at hn
        obtain ⟨ws, rfl, hws⟩ := ih b.length (by omega) hb rfl
        exact ⟨a :: ws, flatten_cons.symm, forall_mem_cons.2 ⟨(hr _ _ _).1 ha, hws⟩⟩
  · rintro ⟨ws, rfl, hws⟩
    induction ws generalizing l with
    | nil => exact takes_star.2 (Or.inl rfl)
    | cons x ws ih =>
      obtain ⟨hx, hws⟩ := forall_mem_cons.1 hws
      exact takes_star.2 (Or.inr ⟨x, ws.flatten, flatten_cons, hne x hx, (hr _ _ _).2 hx, ih hws⟩)

theorem takes_plus_flatten {P : Text → Prop} (hr : ∀ l w s, Takes r l w s ↔ P w) (hne : ∀ w, P w → w ≠ []) :
    Takes (plus r) l w s ↔ ∃ ws : List Text, ws ≠ [] ∧ w = ws.flatten ∧ ∀ x ∈ ws, P x := by
  unfold plus
  rw [takes_seq]
  constructor
  · rintro ⟨a, b, rfl, ha, hb⟩
    obtain ⟨ws, rfl, hws⟩ := (takes_star_flatten hr hne).1 hb
    exact ⟨a :: ws, by simp, flatten_cons.symm, forall_mem_cons.2 ⟨(hr _ _ _).1 ha, hws⟩⟩
  · rintro ⟨ws, hws, rfl, hall⟩
    cases ws with
    | nil => exact absurd rfl hws
    | cons x ws =>
      obtain ⟨hx, hall⟩ := forall_mem_cons.1 hall
      exact ⟨x, ws.flatten, flatten_cons, (hr _ _ _).2 hx, (takes_star_flatten hr hne).2 ⟨ws, rfl, hall⟩⟩

end takes

/-! ## In which order -/

theorem ends_one_seq (p : Char → Bool) (r : Regex) (l : Text) (c : Char) (s : Text) :
    (seq (one p) r).ends (l, c :: s) = if p c then r.ends (c :: l, s) else [] := by
  show (if p c then [(c :: l, s)] else []).flatMap r.ends = _
  split
  · rw [flatMap_cons, flatMap_nil, append_nil]
  · rfl

theorem ends_one_seq_nil (p : Char → Bool) (r : Regex) (l : Text) : (seq (one p) r).ends (l, []) = [] := rfl

theorem ends_seq_ahead (r r' : Regex) (z : Place) :
    (seq r (ahead r')).ends z = (r.ends z).filter fun y => r'.ends y ≠ [] := by
  show (r.ends z).flatMap (fun y => if r'.ends y ≠ [] then [y] else []) = _
  induction r.ends z with
  | nil => rfl
  | cons y ys ih =>
    rw [flatMap_cons, ih, filter_cons]
    by_cases hy : r'.ends y ≠ []
    · rw [if_pos hy, if_pos (by simpa using hy)]
      rfl
    · rw [if_neg hy, if_neg (by simpa using hy)]
      rfl

theorem ends_star_one (p : Char → Bool) (l s : Text) : ∃ others,
    (star (one p)).ends (l, s) = ((s.takeWhile p).reverse ++ l, s.dropWhile p) :: others ∧
      ∀ y ∈ others, y.2.head?.any p = true := by
  induction s generalizing l with
  | nil => exact ⟨[], rfl, fun y hy => absurd hy not_mem_nil⟩
  | cons c s ih =>
    show ∃ others, (((one p).ends (l, c :: s)).filter _).flatMap (rounds (one p).ends s.length) ++ [(l, c :: s)] = _ ∧ _
    cases hc : p c with
    | false =>
      refine ⟨[], ?_, fun y hy => absurd hy not_mem_nil⟩
      rw [takeWhile_cons_of_neg (by rw [hc]; simp), dropWhile_cons_of_neg (by rw [hc]; simp)]
      show (List.filter _ (if p c then [(c :: l, s)] else [])).flatMap _ ++ _ = _
      rw [if_neg (by rw [hc]; simp)]
      rfl
    | true =>
      obtain ⟨others, heq, hothers⟩ := ih (c :: l)
      refine ⟨others ++ [(l, c :: s)], ?_, fun y hy => ?_⟩
      · rw [takeWhile_cons_of_pos hc, dropWhile_cons_of_pos hc]
        show (List.filter _ (if p c then [(c :: l, s)] else [])).flatMap _ ++ _ = _
        rw [if_pos hc, filter_cons_of_pos (by simp), filter_nil, flatMap_cons, flatMap_nil,
          append_nil]
        rw [show rounds (one p).ends s.length (c :: l, s) = _ from heq, reverse_cons, append_assoc]
        rfl
      · rcases mem_append.1 hy with hy | hy
        · exact hothers y hy
        · rw [mem_singleton.1 hy]
          exact hc

theorem ends_plus_one {p : Char → Bool} {c : Char} (hc : p c = true) (l s : Text) : ∃ others,
    (plus (one p)).ends (l, c :: s) = (((c :: s).takeWhile p).reverse ++ l, (c :: s).dropWhile p) :: others ∧
      ∀ y ∈ others, y.2.head?.any p = true := by
  obtain ⟨others, heq, hothers⟩ := ends_star_one p (c :: l) s
  refine ⟨others, ?_, hothers⟩
  show (if p c then [(c :: l, s)] else []).flatMap (star (one p)).ends = _
  rw [if_pos hc, flatMap_cons, flatMap_nil, append_nil, heq, takeWhile_cons_of_pos hc,
    dropWhile_cons_of_pos hc, reverse_cons, append_assoc]
  rfl

theorem ends_plus_one_of_not {p : Char → Bool} {l s : Text} (hs : s.head?.any p = false) : (plus (one p)).ends (l, s) = [] := by
  cases s with
  | nil => rfl
  | cons c s =>
    have hc : p c = false := hs
    show (if p c then [(c :: l, s)] else []).flatMap (star (one p)).ends = _
    rw [if_neg (by rw [hc]; simp)]
    rfl

theorem ends_star_one_seq {p : Char → Bool} {r : Regex} (hr : ∀ l s, s.head?.any p = true → r.ends (l, s) = []) (l s : Text) :
    (seq (star (one p)) r).ends (l, s) = r.ends ((s.takeWhile p).reverse ++ l, s.dropWhile p) := by
  obtain ⟨others, heq, hothers⟩ := ends_star_one p l s
  show ((star (one p)).ends (l, s)).flatMap r.ends = _
  rw [heq, flatMap_cons, flatMap_eq_nil_iff.2, append_nil]
  exact fun y hy => hr y.1 y.2 (hothers y hy)

theorem ends_plus_one_seq {p : Char → Bool} {r : Regex} (hr : ∀ l s, s.head?.any p = true → r.ends (l, s) = [])
    {c : Char} (hc : p c = true) (l s : Text) :
    (seq (plus (one p)) r).ends (l, c :: s) =
      r.ends (((c :: s).takeWhile p).reverse ++ l, (c :: s).dropWhile p) := by
  obtain ⟨others, heq, hothers⟩ := ends_plus_one hc l s
  show ((plus (one p)).ends (l, c :: s)).flatMap r.ends = _
  rw [heq, flatMap_cons, flatMap_eq_nil_iff.2, append_nil]
  exact fun y hy => hr y.1 y.2 (hothers y hy)

/-- The places that `g` comes through. -/
def places (g : Place → Option Place) : Nat → Place → List Place
  | 0, z => [z]
  | n + 1, z =>
    match g z with
    | none => [z]
    | some z' => z :: places g n z'

theorem places_of_le {g : Place → Option Place} (hshort : ∀ z z', g z = some z' → z'.2.length < z.2.length) {n : Nat}
    {z : Place} (h : z.2.length ≤ n) : places g n z = places g z.2.length z := by
  induction n using Nat.strong_induction_on generalizing z with
  | h n ih =>
    cases n with
    | zero => rw [Nat.le_zero.1 h]
    | succ n =>
      cases hz : g z with
      | none =>
        cases hlen : z.2.length with
        | zero =>
          unfold places
          rw [hz]
        | succ m =>
          unfold places
          rw [hz]
      | some z' =>
        have hlt := hshort z z' hz
        obtain ⟨m, hm⟩ : ∃ m, z.2.length = m + 1 := ⟨z.2.length - 1, by omega⟩
        rw [hm]
        unfold places
        rw [hz]
        dsimp only
        rw [ih n (Nat.lt_succ_self n) (by omega), ih m (by omega) (by omega)]

theorem ends_star_toList {r : Regex} {g : Place → Option Place} (hg : ∀ z, r.ends z = (g z).toList)
    (hshort : ∀ z z', g z = some z' → z'.2.length < z.2.length) (z : Place) :
    (star r).ends z = (places g z.2.length z).reverse := by
  show rounds r.ends z.2.length z = _
  generalize z.2.length = n
  induction n generalizing z with
  | zero => rfl
  | succ n ih =>
    show ((r.ends z).filter _).flatMap (rounds r.ends n) ++ [z] = _
    rw [hg]
    unfold places
    cases hz : g z with
    | none => rfl
    | some z' =>
      rw [toList_some, filter_cons_of_pos (by simpa using hshort z z' hz), filter_nil,
        flatMap_cons, flatMap_nil, append_nil, reverse_cons, ih]

theorem places_last {g : Place → Option Place} {n : Nat} {z y : Place} (hy : y ∈ places g n z) (hnone : g y = none) :
    (places g n z).reverse.head? = some y := by
  rw [List.head?_reverse]
  induction n generalizing z with
  | zero =>
    rw [mem_singleton.1 hy]
    rfl
  | succ n ih =>
    unfold places at hy ⊢
    cases hz : g z with
    | none =>
      rw [hz] at hy
      rw [mem_singleton.1 hy]
      rfl
    | some z' =>
      rw [hz] at hy
      rcases mem_cons.1 hy with rfl | hy
      · rw [hnone] at hz
        cases hz
      · rw [List.getLast?_cons, ih hy]
        rfl

theorem head?_ends_plus {r : Regex} {g : Place → Option Place} (hg : ∀ z, r.ends z = (g z).toList)
    (hshort : ∀ z z', g z = some z' → z'.2.length < z.2.length) {z y : Place} (hy : y ∈ (plus r).ends z)
    (hnone : g y = none) : ((plus r).ends z).head? = some y := by
  have hplus : (plus r).ends z = (g z).toList.flatMap (star r).ends := by
    rw [← hg]
    rfl
  rw [hplus] at hy ⊢
  cases hz : g z with
  | none =>
    rw [hz] at hy
    cases hy
  | some z' =>
    rw [hz, toList_some, flatMap_cons, flatMap_nil, append_nil, ends_star_toList hg hshort] at hy
    rw [toList_some, flatMap_cons, flatMap_nil, append_nil, ends_star_toList hg hshort]
    exact places_last (mem_reverse.1 hy) hnone

theorem head?_ends_seq {r r' : Regex} {z y x : Place} (hy : (r.ends z).head? = some y) (hx : (r'.ends y).head? = some x) :
    ((seq r r').ends z).head? = some x := by
  obtain ⟨ys, hys⟩ := List.head?_eq_some_iff.1 hy
  obtain ⟨xs, hxs⟩ := List.head?_eq_some_iff.1 hx
  show ((r.ends z).flatMap r'.ends).head? = some x
  rw [hys, flatMap_cons, hxs]
  rfl

/-! ## Where it is found -/

theorem search_eq_none_iff {r : Regex} {l t : Text} :
    search r l t = none ↔ ∀ a b, t = a ++ b → r.ends (a.reverse ++ l, b) = [] := by
  induction t generalizing l with
  | nil =>
    unfold search
    rw [map_eq_none_iff, List.head?_eq_none_iff]
    constructor
    · intro h a b hab
      obtain ⟨rfl, rfl⟩ := append_eq_nil_iff.1 hab.symm
      exact h
    · exact fun h => h [] [] rfl
  | cons c t ih =>
    unfold search
    constructor
    · intro h a b hab
      split at h
      · cases h
      · next hnone =>
        cases a with
        | nil =>
          rw [nil_append] at hab
          rw [← hab]
          exact List.head?_eq_none_iff.1 hnone
        | cons d a =>
          obtain ⟨rfl, rfl⟩ := List.cons.inj hab
          have := ih.1 h a b rfl
          rw [reverse_cons, append_assoc]
          exact this
    · intro h
      have hhere := h [] (c :: t) rfl
      rw [reverse_nil, nil_append] at hhere
      rw [hhere]
      refine ih.2 fun a b hab => ?_
      have := h (c :: a) b (by rw [hab]; rfl)
      rw [reverse_cons, append_assoc] at this
      exact this

theorem search_cons_of_nil {r : Regex} {l s : Text} {c : Char} (h : r.ends (l, c :: s) = []) :
    search r l (c :: s) = search r (c :: l) s := by
  conv_lhs => unfold search
  rw [h]
  rfl

theorem search_append {r : Regex} {l a b : Text}
    (h : ∀ a' b', a ++ b = a' ++ b' → a'.length < a.length → r.ends (a'.reverse ++ l, b') = []) :
    search r l (a ++ b) = search r (a.reverse ++ l) b := by
  induction a generalizing l with
  | nil => rfl
  | cons c a ih =>
    have hfirst : r.ends (l, c :: (a ++ b)) = [] := h [] (c :: (a ++ b)) rfl (by simp)
    rw [cons_append, reverse_cons, append_assoc, singleton_append]
    rw [← ih fun a' b' heq hlt => ?_]
    · exact search_cons_of_nil hfirst
    · have := h (c :: a') b' (by rw [cons_append, cons_append, heq]) (by simpa using hlt)
      rw [reverse_cons, append_assoc] at this
      exact this

theorem search_of_head? {r : Regex} {l t : Text} {z : Place} (h : (r.ends (l, t)).head? = some z) :
    search r l t = some ((l, t), z) := by
  cases t with
  | nil =>
    unfold search
    rw [h]
    rfl
  | cons c t =>
    unfold search
    rw [h]

theorem search_eq_some {r : Regex} {l a b : Text} {z : Place} (hhere : (r.ends (a.reverse ++ l, b)).head? = some z)
    (hnone : ∀ a' b', a ++ b = a' ++ b' → a'.length < a.length → r.ends (a'.reverse ++ l, b') = []) :
    search r l (a ++ b) = some ((a.reverse ++ l, b), z) := by
  rw [search_append hnone]
  exact search_of_head? hhere

theorem search_from_isSome_iff {r : Regex} {l t : Text} :
    (search r l t).isSome = true ↔ ∃ a w s, t = a ++ w ++ s ∧ Takes r (a.reverse ++ l) w s := by
  rw [← not_iff_not, Bool.not_eq_true, isSome_eq_false_iff, isNone_iff_eq_none, search_eq_none_iff]
  constructor
  · rintro h ⟨a, w, s, ht, htake⟩
    exact ends_ne_nil_iff.2 ⟨w, s, rfl, htake⟩ (h a (w ++ s) (by rw [ht, append_assoc]))
  · intro h a b hab
    by_contra hne
    obtain ⟨w, s, hb, htake⟩ := ends_ne_nil_iff.1 hne
    exact h ⟨a, w, s, by rw [hab, hb, append_assoc], htake⟩

theorem search_isSome_iff {r : Regex} {t : Text} :
    (search r [] t).isSome = true ↔ ∃ a w s, t = a ++ w ++ s ∧ Takes r a.reverse w s := by
  rw [search_from_isSome_iff]
  simp only [append_nil]

theorem search_eq_none {r : Regex} {t : Text} (h : ∀ a w s, t = a ++ w ++ s → ¬Takes r a.reverse w s) :
    search r [] t = none := by
  rw [← isNone_iff_eq_none, ← isSome_eq_false_iff, ← Bool.not_eq_true]
  intro hsome
  obtain ⟨a, w, s, ht, htake⟩ := search_isSome_iff.1 hsome
  exact h a w s ht htake

theorem search_matched {r : Regex} {a w s : Text} (h : Takes r a.reverse w s)
    (hone : ∀ w' s', w ++ s = w' ++ s' → Takes r a.reverse w' s' → s' = s)
    (hnone : ∀ a' w' s', a ++ w ++ s = a' ++ w' ++ s' → a'.length < a.length → ¬Takes r a'.reverse w' s') :
    search r [] (a ++ w ++ s) = some ((a.reverse, w ++ s), (w.reverse ++ a.reverse, s)) := by
  have hne : r.ends (a.reverse, w ++ s) ≠ [] := ends_ne_nil_iff.2 ⟨w, s, rfl, h⟩
  obtain ⟨z, zs, hz⟩ := exists_cons_of_ne_nil hne
  obtain ⟨w', s', heq, hplace, htake⟩ := mem_ends_iff.1 (hz ▸ mem_cons_self : z ∈ r.ends (a.reverse, w ++ s))
  have hs := hone w' s' heq htake
  subst hs
  obtain rfl : w = w' := append_cancel_right heq
  have hfound := @search_eq_some r [] a (w ++ s') z (by rw [append_nil, hz]; rfl) fun a' b' hab hlt => by
    by_contra hsome
    obtain ⟨w₁, s₁, hb, htake₁⟩ := ends_ne_nil_iff.1 hsome
    rw [append_nil] at htake₁
    exact hnone a' w₁ s₁ (by rw [append_assoc, hab, hb, append_assoc]) hlt htake₁
  rw [append_assoc, hfound, append_nil, hplace]

theorem search_some {r : Regex} {l t : Text} {m : Place × Place} (h : search r l t = some m) :
    ∃ a w s, t = a ++ w ++ s ∧ m = ((a.reverse ++ l, w ++ s), (w.reverse ++ (a.reverse ++ l), s)) ∧
      Takes r (a.reverse ++ l) w s ∧
      ∀ a' w' s', t = a' ++ w' ++ s' → Takes r (a'.reverse ++ l) w' s' → a.length ≤ a'.length := by
  have here : ∀ {l t : Text} {z : Place}, (r.ends (l, t)).head? = some z →
      ∃ w s, t = w ++ s ∧ z = (w.reverse ++ l, s) ∧ Takes r l w s := by
    intro l t z hz
    exact mem_ends_iff.1 (mem_of_head? hz)
  induction t generalizing l with
  | nil =>
    obtain ⟨z, hz, rfl⟩ := map_eq_some_iff.1 h
    obtain ⟨w, s, hws, rfl, htake⟩ := here hz
    refine ⟨[], w, s, hws, ?_, htake, fun a' w' s' _ _ => Nat.zero_le _⟩
    rw [← hws]
    rfl
  | cons c t ih =>
    unfold search at h
    cases hz : (r.ends (l, c :: t)).head? with
    | some z =>
      rw [hz] at h
      obtain rfl := Option.some.inj h
      obtain ⟨w, s, hws, rfl, htake⟩ := here hz
      refine ⟨[], w, s, hws, ?_, htake, fun a' w' s' _ _ => Nat.zero_le _⟩
      rw [hws]
      rfl
    | none =>
      rw [hz] at h
      obtain ⟨a, w, s, rfl, rfl, htake, hleft⟩ := ih h
      refine ⟨c :: a, w, s, rfl, ?_, ?_, ?_⟩
      · rw [reverse_cons, append_assoc, singleton_append]
      · rw [reverse_cons, append_assoc, singleton_append]
        exact htake
      · intro a' w' s' heq htake'
        cases a' with
        | nil =>
          have : r.ends (l, c :: (a ++ w ++ s)) ≠ [] := by
            rw [heq]
            exact ends_ne_nil_iff.2 ⟨w', s', rfl, htake'⟩
          exact absurd (List.head?_eq_none_iff.1 hz) this
        | cons d a' =>
          obtain ⟨rfl, hrest⟩ := List.cons.inj heq
          rw [reverse_cons, append_assoc, singleton_append] at htake'
          exact Nat.succ_le_succ (hleft a' w' s' hrest htake')

theorem matched_eq (l w s : Text) (l' : Text) : matched ((l, w ++ s), (l', s)) = w := by
  unfold matched
  rw [length_append, Nat.add_sub_cancel, take_left']
  rfl

theorem finditer_of_head? {r : Regex} {z z' : Place} (h : (r.ends z).head? = some z') (hlt : z'.2.length < z.2.length)
    (n : Nat) : finditer r (n + 1) z.1 z.2 = (z.1.length, z'.1.length) :: finditer r n z'.1 z'.2 := by
  conv_lhs => unfold finditer
  rw [search_of_head? h]
  dsimp only
  rw [if_pos hlt]

theorem finditer_congr {r : Regex} {l s l' s' : Text} (h : search r l s = search r l' s') (n : Nat) :
    finditer r n l s = finditer r n l' s' := by
  cases n with
  | zero => rfl
  | succ n =>
    unfold finditer
    rw [h]

theorem fullmatch_iff {r : Regex} {t : Text} : fullmatch r t = true ↔ Takes r [] t [] := by
  unfold fullmatch
  rw [List.any_eq_true]
  constructor
  · rintro ⟨z, hz, hnil⟩
    obtain ⟨w, s, ht, rfl, h⟩ := mem_ends_iff.1 hz
    obtain rfl : s = [] := by simpa using hnil
    rw [append_nil] at ht
    rw [ht]
    exact h
  · intro h
    have h' : (t.reverse ++ [], []) ∈ r.ends ([], t ++ []) := h
    rw [append_nil t] at h'
    exact ⟨_, h', rfl⟩

end Regex

end CisApp.Lib
