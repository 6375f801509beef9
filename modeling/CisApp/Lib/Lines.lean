import CisApp.Lib.Text

/-! Lines and runs of a text.

`text.split("\n")` and the runs that `re.findall("[…]+", text)` gives for a class of characters.  Both cut a text at single
characters, so that they are computed part by part: `lines_insert`, `runs_append_cons`. -/

namespace CisApp.Lib

open List

/-! ## Lines -/

/-- `s.split("\n")`. -/
def lines (s : Text) : List Text := s.splitOn '\n'

/-- `"\n".join(ls)`. -/
def unlines (ls : List Text) : Text := List.intercalate ['\n'] ls

/-- What stands before the line that follows `ls`. -/
def linesBefore (ls : List Text) : Text := ls.flatMap (· ++ ['\n'])

/-- What stands after the line that `ls` follow. -/
def linesAfter (ls : List Text) : Text := ls.flatMap ('\n' :: ·)

theorem unlines_lines (s : Text) : unlines (lines s) = s := intercalate_splitOn '\n'

theorem lines_ne_nil (s : Text) : lines s ≠ [] := splitOn_ne_nil '\n' s

theorem lines_append_cons (a b : Text) : lines (a ++ '\n' :: b) = lines a ++ lines b :=
  splitOn_append_cons_self a b

variable {s : Text}

theorem lines_of_notMem (h : '\n' ∉ s) : lines s = [s] := splitOn_eq_singleton h

variable {p : Char → Bool} {c : Char}

theorem not_of_mem_splitOnP {w : Text} (hw : w ∈ s.splitOnP p) (hc : c ∈ w) : p c = false := by
  induction hn : s.length using Nat.strong_induction_on generalizing s with
  | _ n ih =>
    by_cases hs : ∃ d ∈ s, p d = true
    · obtain ⟨d, hd, hpd⟩ := hs
      obtain ⟨a, b, rfl⟩ := append_of_mem hd
      rw [length_append, length_cons] at hn
      rw [splitOnP_append_cons a b hpd, mem_append] at hw
      rcases hw with hw | hw
      · exact ih a.length (by omega) hw rfl
      · exact ih b.length (by omega) hw rfl
    · have hnone : ∀ d ∈ s, p d = false := fun d hd => by
        by_contra hpd
        exact hs ⟨d, hd, by simpa using hpd⟩
      rw [splitOnP_eq_singleton hnone, mem_singleton] at hw
      exact hnone c (hw ▸ hc)

variable {l : Text}

theorem notMem_of_mem_lines (h : l ∈ lines s) : '\n' ∉ l := by
  intro hc
  exact absurd (not_of_mem_splitOnP h hc) (by decide)

theorem unlines_insert (A : List Text) (l : Text) (B : List Text) :
    unlines (A ++ l :: B) = linesBefore A ++ l ++ linesAfter B := by
  have hafter : ∀ (l : Text) (B : List Text), unlines (l :: B) = l ++ linesAfter B := by
    intro l B
    induction B generalizing l with
    | nil => simp [unlines, linesAfter]
    | cons m B ih =>
      have := ih m
      unfold unlines at this ⊢
      rw [intercalate_cons_cons, this]
      simp [linesAfter]
  induction A with
  | nil => exact hafter l B
  | cons a A ih =>
    have hne : A ++ l :: B ≠ [] := by simp
    unfold unlines at ih ⊢
    rw [cons_append, intercalate_cons_of_ne_nil hne, ih]
    simp [linesBefore]

theorem lines_insert {A B : List Text} (h : lines s = A ++ l :: B) : s = linesBefore A ++ l ++ linesAfter B := by
  rw [← unlines_insert, ← h, unlines_lines]

theorem lines_unlines {ls : List Text} (hls : ls ≠ []) (h : ∀ l ∈ ls, '\n' ∉ l) : lines (unlines ls) = ls :=
  splitOn_intercalate '\n' h hls

theorem lines_replace {A B : List Text} {m : Text} (h : lines s = A ++ l :: B) (hm : '\n' ∉ m) :
    lines (linesBefore A ++ m ++ linesAfter B) = A ++ m :: B := by
  rw [← unlines_insert]
  refine lines_unlines (by simp) fun k hk => ?_
  have hmem : ∀ k ∈ A ++ l :: B, '\n' ∉ k := fun k hk => notMem_of_mem_lines (h ▸ hk)
  rcases mem_append.1 hk with hk | hk
  · exact hmem k (mem_append_left _ hk)
  · rcases mem_cons.1 hk with rfl | hk
    · exact hm
    · exact hmem k (mem_append_right _ (mem_cons_of_mem _ hk))

theorem length_linesBefore_concat (A : List Text) (l : Text) :
    (linesBefore (A ++ [l])).length = (linesBefore A).length + l.length + 1 := by
  simp only [linesBefore, flatMap_append, flatMap_singleton, length_append, length_singleton]
  omega

theorem line_at_unique {A A' B B' : List Text} {l' : Text} {a a' : Nat} (h : A ++ l :: B = A' ++ l' :: B')
    (hpos : (linesBefore A).length + a = (linesBefore A').length + a') (ha : a < l.length) (ha' : a' < l'.length) :
    l = l' ∧ a = a' := by
  -- no line starts after another has started and before it ends
  have key : ∀ {C D : List Text} {k : Text} {c c' : Nat}, D = C ++ k :: (D.drop (C.length + 1)) → c < k.length →
      (linesBefore C).length + c = (linesBefore D).length + c' → False := by
    intro C D k c c' hD hc hpos
    have hlen : (linesBefore D).length =
        (linesBefore C).length + k.length + 1 + (linesBefore (D.drop (C.length + 1))).length := by
      conv_lhs => rw [hD]
      simp only [linesBefore, flatMap_append, flatMap_cons, length_append, length_singleton]
      omega
    omega
  rcases append_eq_append_iff.1 h with ⟨as, rfl, hl⟩ | ⟨as, rfl, hl⟩
  · cases as with
    | nil =>
      obtain ⟨rfl, rfl⟩ := List.cons.inj hl
      rw [append_nil] at hpos
      exact ⟨rfl, by omega⟩
    | cons k as =>
      obtain ⟨rfl, rfl⟩ := List.cons.inj hl
      exact (key (by simp) ha hpos).elim
  · cases as with
    | nil =>
      obtain ⟨rfl, rfl⟩ := List.cons.inj hl
      rw [append_nil] at hpos
      exact ⟨rfl, by omega⟩
    | cons k as =>
      obtain ⟨rfl, rfl⟩ := List.cons.inj hl
      exact (key (by simp) ha' hpos.symm).elim

theorem getElem?_line (A : List Text) (l : Text) (B : List Text) {i : Nat} (hi : i < l.length) :
    (linesBefore A ++ l ++ linesAfter B)[(linesBefore A).length + i]? = l[i]? := by
  rw [append_assoc, List.getElem?_append_right (Nat.le_add_right _ _), Nat.add_sub_cancel_left,
    List.getElem?_append_left hi]

/-! ## Space around a text -/

theorem rstripOf_spec (p : Char → Bool) (s : Text) : ∃ w, s = rstripOf p s ++ w ∧ ∀ c ∈ w, p c = true := by
  refine ⟨(s.reverse.takeWhile p).reverse, ?_, fun c hc => mem_takeWhile_imp (mem_reverse.1 hc)⟩
  unfold rstripOf
  rw [← reverse_append, takeWhile_append_dropWhile, reverse_reverse]

theorem stripOf_parts (p : Char → Bool) (s : Text) : ∃ w, s = s.takeWhile p ++ stripOf p s ++ w ∧ ∀ c ∈ w, p c = true := by
  obtain ⟨w, hw, hall⟩ := rstripOf_spec p (s.dropWhile p)
  refine ⟨w, ?_, hall⟩
  conv_lhs => rw [← takeWhile_append_dropWhile (p := p) (l := s), hw]
  exact (append_assoc _ _ _).symm

theorem strip_parts (s : Text) : ∃ w, s = s.takeWhile isSpace ++ strip s ++ w ∧ ∀ c ∈ w, isSpace c = true :=
  stripOf_parts isSpace s

theorem rstripOf_append {z : Text} (hz : ∀ c ∈ z, p c = true) (s : Text) : rstripOf p (s ++ z) = rstripOf p s := by
  unfold rstripOf
  rw [reverse_append, dropWhile_append_of_pos fun c hc => hz c (mem_reverse.1 hc)]

/-- No character of the class stands at either end. -/
def Trim (p : Char → Bool) (s : Text) : Prop :=
  (∀ c, s.head? = some c → p c = false) ∧ ∀ c, s.getLast? = some c → p c = false

theorem head?_dropWhile_class (h : (s.dropWhile p).head? = some c) : p c = false := by
  have := List.head?_dropWhile_not p s
  rw [h] at this
  simpa using this

theorem trim_stripOf (p : Char → Bool) (s : Text) : Trim p (stripOf p s) := by
  unfold stripOf
  constructor
  · intro c hc
    obtain ⟨w, hw, -⟩ := rstripOf_spec p (s.dropWhile p)
    obtain ⟨r, hr⟩ := List.head?_eq_some_iff.1 hc
    refine head?_dropWhile_class (s := s) ?_
    rw [hw, hr]
    rfl
  · intro c hc
    unfold rstripOf at hc
    rw [List.getLast?_reverse] at hc
    exact head?_dropWhile_class hc

theorem rstripOf_trim (hs : ∀ c, s.getLast? = some c → p c = false) : rstripOf p s = s := by
  rcases eq_nil_or_concat s with rfl | ⟨t, c, rfl⟩
  · rfl
  · rw [concat_eq_append] at hs ⊢
    have hc := hs c (by simp)
    unfold rstripOf
    rw [reverse_append, reverse_singleton, singleton_append, dropWhile_cons_of_neg (by rw [hc]; simp),
      reverse_cons, reverse_reverse]

theorem stripOf_trim {w z : Text} (hw : ∀ c ∈ w, p c = true) (hz : ∀ c ∈ z, p c = true) (hs : Trim p s) :
    stripOf p (w ++ s ++ z) = s := by
  unfold stripOf
  rw [append_assoc, dropWhile_append_of_pos hw]
  cases s with
  | nil =>
    rw [nil_append, dropWhile_eq_nil_iff.2 hz]
    rfl
  | cons c s =>
    have hc := hs.1 c rfl
    rw [cons_append, dropWhile_cons_of_neg (by rw [hc]; simp), ← cons_append, rstripOf_append hz,
      rstripOf_trim hs.2]

/-! ## Runs -/

/-- `re.findall("[…]+", s)` for the class `p`. -/
def runs (p : Char → Bool) (s : Text) : List Text := (s.splitOnP fun c => !p c).filter fun w => !w.isEmpty

theorem runs_nil (p : Char → Bool) : runs p [] = [] := rfl

theorem runs_append_cons (hc : p c = false) (a b : Text) : runs p (a ++ c :: b) = runs p a ++ runs p b := by
  unfold runs
  rw [splitOnP_append_cons a b (by rw [hc]; rfl), filter_append]

theorem runs_concat (hc : p c = false) (a : Text) : runs p (a ++ [c]) = runs p a := by
  rw [runs_append_cons hc, runs_nil, append_nil]

theorem runs_apart {gap : Text} (hne : gap ≠ []) (hgap : ∀ c ∈ gap, p c = false) (a b : Text) :
    runs p (a ++ gap ++ b) = runs p a ++ runs p b := by
  induction gap generalizing a with
  | nil => exact absurd rfl hne
  | cons c gap ih =>
    have hc := hgap c mem_cons_self
    cases gap with
    | nil => rw [append_assoc, singleton_append, runs_append_cons hc]
    | cons d gap =>
      have := ih (cons_ne_nil d gap) (fun e he => hgap e (mem_cons_of_mem _ he)) (a ++ [c])
      rw [runs_concat hc] at this
      rw [← this]
      simp

theorem reading_oneLine {β : Type} {F : Text → List β} (hnil : F [] = [])
    (hspace : ∀ (a b : Text) (c : Char), isSpace c = true → F (a ++ c :: b) = F a ++ F b) (s : Text) :
    F (oneLine s) = F s := by
  have hjoin : ∀ ws : List Text, F (List.intercalate [' '] ws) = ws.flatMap F := by
    intro ws
    induction ws with
    | nil => exact hnil
    | cons w ws ih =>
      cases ws with
      | nil => simp
      | cons v ws =>
        rw [intercalate_cons_cons, append_assoc, singleton_append, hspace _ _ _ (by decide), ih]
        rfl
  unfold oneLine words
  rw [hjoin]
  induction hn : s.length using Nat.strong_induction_on generalizing s with
  | _ n ih =>
    by_cases hs : ∃ c ∈ s, isSpace c = true
    · obtain ⟨c, hc, hspacec⟩ := hs
      obtain ⟨a, b, rfl⟩ := append_of_mem hc
      rw [length_append, length_cons] at hn
      rw [splitOnP_append_cons a b hspacec, filter_append, flatMap_append, hspace a b c hspacec,
        ih a.length (by omega) a rfl, ih b.length (by omega) b rfl]
    · have hnone : ∀ c ∈ s, isSpace c = false := fun c hc => by
        by_contra hspacec
        exact hs ⟨c, hc, by simpa using hspacec⟩
      rw [splitOnP_eq_singleton hnone]
      cases s with
      | nil => simp [hnil]
      | cons c s => simp

theorem notMem_oneLine (hspace : isSpace c = true) (hc : c ≠ ' ') (s : Text) : c ∉ oneLine s := by
  have hjoin : ∀ ws : List Text, (∀ w ∈ ws, c ∉ w) → c ∉ List.intercalate [' '] ws := by
    intro ws hws
    induction ws with
    | nil => exact not_mem_nil
    | cons w ws ih =>
      have hw := hws w mem_cons_self
      have ih := ih fun v hv => hws v (mem_cons_of_mem _ hv)
      cases ws with
      | nil => rwa [intercalate_singleton]
      | cons v ws =>
        rw [intercalate_cons_cons]
        simp only [mem_append, mem_singleton, not_or]
        exact ⟨⟨hw, hc⟩, ih⟩
  refine hjoin (words s) fun w hw hmem => ?_
  have := not_of_mem_splitOnP (mem_of_mem_filter hw) hmem
  rw [hspace] at this
  cases this

/-! ## Phrases of runs -/

/-- `f" {' '.join(ws)} "`. -/
def padded (ws : List Text) : Text := ' ' :: (List.intercalate [' '] ws ++ [' '])

theorem padded_eq {ws : List Text} (h : ws ≠ []) : padded ws = ' ' :: ws.flatMap (· ++ [' ']) := by
  unfold padded
  congr 1
  induction ws with
  | nil => exact absurd rfl h
  | cons w ws ih =>
    cases ws with
    | nil => simp
    | cons v ws =>
      rw [intercalate_cons_cons, flatMap_cons, ← ih (cons_ne_nil v ws)]
      simp

theorem join_runs_eq_nil : List.intercalate [' '] (runs p s) = [] ↔ runs p s = [] := by
  constructor
  · intro h
    cases hruns : runs p s with
    | nil => rfl
    | cons w ws =>
      have hw : w ≠ [] := by
        have := (mem_filter.1 (hruns ▸ mem_cons_self : w ∈ runs p s)).2
        simpa using this
      rw [hruns] at h
      cases ws with
      | nil =>
        rw [intercalate_singleton] at h
        exact absurd h hw
      | cons v ws =>
        simp [hw] at h
  · intro h
    rw [h]
    rfl

theorem contains_padded {ws vs : List Text} (hne : ws ≠ []) (h : ws <:+: vs) : contains (padded vs) (padded ws) = true := by
  obtain ⟨a, b, rfl⟩ := h
  unfold contains
  rw [decide_eq_true_eq, padded_eq hne, padded_eq (by simp [hne])]
  rcases eq_nil_or_concat a with rfl | ⟨a, w, rfl⟩
  · exact ⟨[], b.flatMap (· ++ [' ']), by simp⟩
  · exact ⟨' ' :: (a.flatMap (· ++ [' ']) ++ w), b.flatMap (· ++ [' ']), by simp⟩

end CisApp.Lib
