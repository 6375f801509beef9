import CisApp.Hygiene.Boundaries

/-! The citation tags at the end of a text.

`trailing_tags` of `citation_tags.py` walks back from the end, one tag a round.  A tag holds no bracket but its own, so the
tag before a place is the text from the last `[` on, and the walk comes to where the leftmost match of its pattern starts. -/

namespace CisApp.Hygiene

open Lib Repair Regex List

/-- `(?:\s?TAG)+\s*$`. -/
def trailingTagsRe : Regex := seq (plus spacedTagRe) (seq (star (one isSpace)) last)

/-! ## One tag -/

variable {t : Text}

theorem isTag_iff : isTag t = true ↔
    ∃ k ids, t = '[' :: k :: ':' :: (ids ++ [']']) ∧ (k = 'R' ∨ k = 'F') ∧ ids ≠ [] ∧ ∀ c ∈ ids, plainTagChar c = true := by
  constructor
  · intro h
    unfold isTag at h
    split at h
    · next k body =>
      rw [Bool.and_eq_true] at h
      obtain ⟨hk, h⟩ := h
      split at h
      · next ids hids =>
        rw [Bool.and_eq_true, all_eq_true] at h
        refine ⟨k, ids.reverse, ?_, by simpa using hk, ?_, fun c hc => h.2 c (List.mem_reverse.1 hc)⟩
        · rw [← reverse_reverse body, hids, reverse_cons]
        · simpa using h.1
      · cases h
    · cases h
  · rintro ⟨k, ids, rfl, hk, hne, hall⟩
    show ((k == 'R' || k == 'F') && _) = true
    rw [reverse_append]
    simp only [Bool.and_eq_true]
    refine ⟨by simpa using hk, ?_⟩
    show (!ids.reverse.isEmpty && ids.reverse.all plainTagChar) = true
    rw [Bool.and_eq_true, all_eq_true]
    exact ⟨by simpa using hne, fun c hc => hall c (List.mem_reverse.1 hc)⟩

variable {w s : Text}

theorem takes_tagRe {l : Text} : Takes tagRe l w s ↔ isTag w = true := by
  rw [isTag_iff]
  constructor
  · intro h
    obtain ⟨a, w, rfl, ha, h⟩ := takes_seq.1 h
    obtain ⟨b, w, rfl, hb, h⟩ := takes_seq.1 h
    obtain ⟨d, w, rfl, hd, h⟩ := takes_seq.1 h
    obtain ⟨ids, e, rfl, hids, he⟩ := takes_seq.1 h
    obtain ⟨c₁, rfl, h₁⟩ := takes_one.1 ha
    obtain ⟨c₃, rfl, h₃⟩ := takes_one.1 hd
    obtain ⟨c₄, rfl, h₄⟩ := takes_one.1 he
    obtain ⟨k, rfl, hk⟩ : ∃ k, b = [k] ∧ (k = 'R' ∨ k = 'F') := by
      rcases takes_alt.1 hb with hb | hb
      · obtain ⟨k, rfl, hk⟩ := takes_one.1 hb
        exact ⟨k, rfl, Or.inl (beq_iff_eq.1 hk)⟩
      · obtain ⟨k, rfl, hk⟩ := takes_one.1 hb
        exact ⟨k, rfl, Or.inr (beq_iff_eq.1 hk)⟩
    obtain ⟨hne, hall⟩ := takes_plus_one.1 hids
    refine ⟨k, ids, ?_, hk, hne, hall⟩
    rw [beq_iff_eq.1 h₁, beq_iff_eq.1 h₃, beq_iff_eq.1 h₄]
    rfl
  · rintro ⟨k, ids, rfl, hk, hne, hall⟩
    refine takes_seq.2 ⟨['['], _, rfl, takes_one.2 ⟨'[', rfl, rfl⟩, takes_seq.2 ⟨[k], _, rfl, ?_, ?_⟩⟩
    · rcases hk with rfl | rfl
      · exact takes_alt.2 (Or.inl (takes_one.2 ⟨_, rfl, rfl⟩))
      · exact takes_alt.2 (Or.inr (takes_one.2 ⟨_, rfl, rfl⟩))
    · refine takes_seq.2 ⟨[':'], ids ++ [']'], rfl, takes_one.2 ⟨':', rfl, rfl⟩, takes_seq.2 ⟨ids, [']'], rfl, ?_, ?_⟩⟩
      · exact takes_plus_one.2 ⟨hne, hall⟩
      · exact takes_one.2 ⟨']', rfl, rfl⟩

def SpacedTag (w : Text) : Prop :=
  ∃ sp t, w = sp ++ t ∧ (sp = [] ∨ ∃ c, sp = [c] ∧ isSpace c = true) ∧ isTag t = true

theorem takes_spacedTagRe {l : Text} : Takes spacedTagRe l w s ↔ SpacedTag w := by
  unfold spacedTagRe
  rw [takes_seq]
  constructor
  · rintro ⟨sp, t, rfl, hsp, ht⟩
    refine ⟨sp, t, rfl, ?_, takes_tagRe.1 ht⟩
    rcases takes_opt.1 hsp with hsp | hsp
    · exact Or.inr (takes_one.1 hsp)
    · exact Or.inl hsp
  · rintro ⟨sp, t, rfl, hsp, ht⟩
    refine ⟨sp, t, rfl, takes_opt.2 ?_, takes_tagRe.2 ht⟩
    rcases hsp with hsp | hsp
    · exact Or.inr hsp
    · exact Or.inl (takes_one.2 hsp)

theorem isTag_last (h : isTag t = true) (a : Text) : (a ++ t).getLast? = some ']' := by
  obtain ⟨k, ids, rfl, -⟩ := isTag_iff.1 h
  rw [show a ++ '[' :: k :: ':' :: (ids ++ [']']) = (a ++ '[' :: k :: ':' :: ids) ++ [']'] by simp, List.getLast?_concat]

theorem SpacedTag.ne_nil (h : SpacedTag w) : w ≠ [] := by
  obtain ⟨sp, t, rfl, -, ht⟩ := h
  have := isTag_last ht sp
  intro hnil
  rw [hnil] at this
  cases this

variable {ws : List Text}

theorem last_of_tags (hne : ws ≠ []) (hall : ∀ x ∈ ws, SpacedTag x) (a : Text) : (a ++ ws.flatten).getLast? = some ']' := by
  obtain ⟨ws, y, rfl⟩ : ∃ ys y, ws = ys ++ [y] := ⟨_, _, (dropLast_append_getLast hne).symm⟩
  obtain ⟨sp, t, rfl, -, ht⟩ := hall y (mem_append_right _ (mem_singleton_self _))
  rw [flatten_append, flatten_singleton, ← append_assoc, ← append_assoc]
  exact isTag_last ht _

/-! ## The walk back -/

theorem rfind_split {c : Char} {a b : Text} (hb : c ∉ b) : rfind c (a ++ c :: b) = some a.length := by
  have hidx : (a ++ c :: b).reverse.idxOf c = b.length := by
    rw [reverse_append, reverse_cons, append_assoc, singleton_append,
      idxOf_append_of_notMem (by simpa using hb), idxOf_cons_self, length_reverse]
    omega
  unfold rfind
  rw [if_pos (by simp), hidx, length_append, length_cons]
  congr 1
  omega

theorem rfind_eq_some {c : Char} {n : Nat} (h : rfind c s = some n) : n < s.length := by
  unfold rfind at h
  split at h
  · next hmem =>
    have hpos := length_pos_of_mem hmem
    rw [← Option.some.inj h]
    omega
  · cases h

variable {text : Text} {i : Nat}

theorem tagBefore_eq {x : Text} (hi : i ≤ text.length) (h : text.take i = x ++ t) (ht : isTag t = true) :
    tagBefore text i = some x.length := by
  obtain ⟨k, ids, rfl, hk, -, hall⟩ := isTag_iff.1 ht
  have hlen : i = (x ++ '[' :: k :: ':' :: ids).length + 1 := by
    have := congrArg List.length h
    rw [length_take_of_le hi] at this
    simp only [length_append, length_cons, length_nil] at this ⊢
    omega
  have hsplit : text.take i = (x ++ '[' :: k :: ':' :: ids) ++ [']'] := by
    rw [h]
    simp
  have hbefore : text.take (i - 1) = x ++ '[' :: k :: ':' :: ids := by
    have := congrArg (List.take (i - 1)) hsplit
    rw [take_take, min_eq_left (Nat.sub_le _ _), hlen, Nat.add_sub_cancel, take_left' rfl] at this
    rw [hlen, Nat.add_sub_cancel]
    exact this
  have hnot : '[' ∉ k :: ':' :: ids := by
    intro hmem
    rcases List.mem_cons.1 hmem with hmem | hmem
    · rcases hk with rfl | rfl <;> cases hmem
    · rcases List.mem_cons.1 hmem with hmem | hmem
      · cases hmem
      · exact absurd (hall _ hmem) (by decide)
  have hslice : slice text (i - 1) i = [']'] := by
    unfold slice
    rw [hsplit, hlen, Nat.add_sub_cancel, drop_left' rfl]
  have htag : isTag (slice text x.length i) = true := by
    unfold slice
    rw [h, drop_left' rfl]
    exact ht
  unfold tagBefore
  rw [if_pos hslice, hbefore, rfind_split hnot, Option.filter_some, if_pos htag]

theorem tagBefore_eq_some {lb : Nat} (h : tagBefore text i = some lb) :
    lb < i ∧ ∃ t, text.take i = text.take lb ++ t ∧ isTag t = true := by
  unfold tagBefore at h
  split at h
  · obtain ⟨hfind, htag⟩ := Option.filter_eq_some_iff.1 h
    have hlt := rfind_eq_some hfind
    rw [length_take] at hlt
    refine ⟨by omega, slice text lb i, ?_, htag⟩
    unfold slice
    have hle : lb ≤ i := by omega
    rw [← min_eq_left hle, ← take_take, min_eq_left hle, take_append_drop]
  · cases h

theorem space_before {lb : Nat} (h : lb ≤ text.length) :
    ∃ j sp, (if (slice text (lb - 1) lb).any isSpace then lb - 1 else lb) = j ∧ j ≤ lb ∧ text.take lb = text.take j ++ sp ∧
      (sp = [] ∧ (text.take lb).getLast?.any isSpace = false ∨ ∃ c, sp = [c] ∧ isSpace c = true) := by
  rcases eq_nil_or_concat (text.take lb) with hnil | ⟨x, c, hx⟩
  · refine ⟨lb, [], ?_, le_rfl, (append_nil _).symm, Or.inl ⟨rfl, by rw [hnil]; rfl⟩⟩
    unfold slice
    rw [hnil]
    simp
  · rw [concat_eq_append] at hx
    have hlen : lb = x.length + 1 := by
      have := congrArg List.length hx
      rw [length_take_of_le h, length_append] at this
      exact this
    have hslice : slice text (lb - 1) lb = [c] := by
      unfold slice
      rw [hx, hlen, Nat.add_sub_cancel, drop_left' rfl]
    have htake : text.take (lb - 1) = x := by
      have := congrArg (List.take (lb - 1)) hx
      rw [take_take, min_eq_left (Nat.sub_le _ _), hlen, Nat.add_sub_cancel, take_left' rfl] at this
      rw [hlen, Nat.add_sub_cancel]
      exact this
    rw [hslice, any_cons, any_nil, Bool.or_false]
    by_cases hc : isSpace c = true
    · refine ⟨lb - 1, [c], if_pos hc, Nat.sub_le _ _, by rw [htake, hx], Or.inr ⟨c, rfl, hc⟩⟩
    · refine ⟨lb, [], if_neg hc, le_rfl, (append_nil _).symm, Or.inl ⟨rfl, ?_⟩⟩
      rw [hx, List.getLast?_concat]
      simpa using hc

theorem tagsFrom_stop (h : tagBefore text i = none) (fuel : Nat) (start : Option Nat) :
    tagsFrom text fuel i start = start := by
  cases fuel with
  | zero => rfl
  | succ fuel =>
    unfold tagsFrom
    rw [h]

theorem tagsFrom_step {lb : Nat} (hi : i ≤ text.length) (h : tagBefore text i = some lb) (fuel : Nat)
    (start : Option Nat) : ∃ j sp t, tagsFrom text (fuel + 1) i start = tagsFrom text fuel j (some j) ∧ j < i ∧
      text.take i = text.take j ++ (sp ++ t) ∧ isTag t = true ∧
      (sp = [] ∧ (text.take j).getLast?.any isSpace = false ∨ ∃ c, sp = [c] ∧ isSpace c = true) := by
  obtain ⟨hlt, t, ht, htag⟩ := tagBefore_eq_some h
  obtain ⟨j, sp, hj, hle, hsplit, hsp⟩ := @space_before text lb (by omega)
  refine ⟨j, sp, t, ?_, by omega, by rw [ht, hsplit, append_assoc], htag, ?_⟩
  · conv_lhs => unfold tagsFrom
    rw [h]
    dsimp only
    rw [hj]
  · rcases hsp with ⟨rfl, hno⟩ | hsp
    · rw [append_nil] at hsplit
      rw [hsplit] at hno
      exact Or.inl ⟨rfl, hno⟩
    · exact Or.inr hsp

theorem tagsFrom_tags (fuel : Nat) (hi : i ≤ text.length) {start : Option Nat} {st : Nat}
    (h : tagsFrom text fuel i start = some st) :
    start = some st ∨ ∃ ws, ws ≠ [] ∧ text.take i = text.take st ++ ws.flatten ∧ (∀ x ∈ ws, SpacedTag x) ∧ st < i := by
  induction fuel generalizing i start with
  | zero => exact Or.inl h
  | succ fuel ih =>
    cases hlb : tagBefore text i with
    | none =>
      rw [tagsFrom_stop hlb] at h
      exact Or.inl h
    | some lb =>
      right
      obtain ⟨j, sp, t, hstep, hlt, hsplit, htag, hsp⟩ := tagsFrom_step hi hlb fuel start
      have hspaced : SpacedTag (sp ++ t) := ⟨sp, t, rfl, hsp.imp_left (·.1), htag⟩
      rw [hstep] at h
      rcases ih (by omega) h with hst | ⟨ws, hne, hws, hall, hlt'⟩
      · rw [← Option.some.inj hst]
        exact ⟨[sp ++ t], cons_ne_nil _ _, by rw [flatten_singleton, hsplit],
          List.forall_mem_singleton.2 hspaced, hlt⟩
      · refine ⟨ws ++ [sp ++ t], by simp, ?_, ?_, by omega⟩
        · rw [flatten_append, flatten_singleton, ← append_assoc, ← hws, hsplit]
        · intro x hx
          rcases List.mem_append.1 hx with hx | hx
          · exact hall x hx
          · rw [List.mem_singleton.1 hx]
            exact hspaced

theorem tagsFrom_le (text : Text) (fuel : Nat) {j : Nat} (hj : j ≤ text.length) :
    ∃ st, tagsFrom text fuel j (some j) = some st ∧ st ≤ j := by
  have hsome : ∀ (fuel i k : Nat), ∃ st, tagsFrom text fuel i (some k) = some st := by
    intro fuel
    induction fuel with
    | zero => exact fun i k => ⟨k, rfl⟩
    | succ fuel ih =>
      intro i k
      unfold tagsFrom
      split
      · exact ⟨k, rfl⟩
      · exact ih _ _
  obtain ⟨st, hst⟩ := hsome fuel j j
  refine ⟨st, hst, ?_⟩
  rcases tagsFrom_tags fuel hj hst with heq | ⟨ws, -, -, -, hlt⟩
  · exact (Option.some.inj heq).ge
  · exact hlt.le

theorem before_tag {b x sp sp' t' : Text} (h : b ++ (sp ++ t) = x ++ (sp' ++ t')) (hlen : (b ++ sp).length = (x ++ sp').length)
    (hsp : sp = [] ∧ b.getLast?.any isSpace = false ∨ ∃ c, sp = [c] ∧ isSpace c = true)
    (hsp' : sp' = [] ∨ ∃ c, sp' = [c] ∧ isSpace c = true) : b = x ∨ sp' = [] ∧ ∃ c, x = b ++ [c] ∧ isSpace c = true := by
  have heq : b ++ sp = x ++ sp' := by
    rw [← append_assoc, ← append_assoc] at h
    exact (append_inj h hlen).1
  rcases hsp with ⟨rfl, hno⟩ | ⟨c, rfl, hc⟩
  · rcases hsp' with rfl | ⟨c', rfl, hc'⟩
    · left
      simpa using heq
    · rw [append_nil] at heq
      rw [heq, List.getLast?_concat, Option.any_some, hc'] at hno
      cases hno
  · rcases hsp' with rfl | ⟨c', rfl, -⟩
    · right
      rw [append_nil] at heq
      exact ⟨rfl, c, heq.symm, hc⟩
    · left
      exact (append_inj' heq rfl).1

theorem tagsFrom_leftmost (fuel : Nat) (hi : i ≤ text.length) (hfuel : i ≤ fuel)
    (start : Option Nat) {a : Text} (hne : ws ≠ []) (hall : ∀ x ∈ ws, SpacedTag x)
    (h : text.take i = a ++ ws.flatten) : ∃ st, tagsFrom text fuel i start = some st ∧ st ≤ a.length := by
  induction fuel generalizing i start ws with
  | zero =>
    have := last_of_tags hne hall a
    rw [← h, Nat.le_zero.1 hfuel] at this
    cases this
  | succ fuel ih =>
    obtain ⟨ws, y, rfl⟩ : ∃ ys y, ws = ys ++ [y] := ⟨_, _, (dropLast_append_getLast hne).symm⟩
    obtain ⟨sp', t', rfl, hsp', htag'⟩ := hall y (mem_append_right _ (mem_singleton_self _))
    have hmore : ∀ x ∈ ws, SpacedTag x := fun x hx => hall x (mem_append_left _ hx)
    rw [flatten_append, flatten_singleton, ← append_assoc] at h
    have hlb := tagBefore_eq hi (h.trans (append_assoc _ _ _).symm) htag'
    obtain ⟨j, sp, t, hstep, hlt, hsplit, htag, hsp⟩ := tagsFrom_step hi hlb fuel start
    have hlen := tagBefore_eq hi (hsplit.trans (append_assoc _ _ _).symm) htag
    rw [hlb, Option.some.injEq] at hlen
    obtain ⟨st, hst, hle⟩ := tagsFrom_le text fuel (show j ≤ text.length by omega)
    have hj : (text.take j).length = j := length_take_of_le (by omega)
    rw [hstep]
    -- what is left ends in a tag again, or there is none left of these
    rcases before_tag (hsplit.symm.trans h) hlen.symm hsp hsp' with heq | ⟨-, c, heq, hc⟩
    · by_cases hws : ws = []
      · subst hws
        rw [flatten_nil, append_nil] at heq
        rw [heq] at hj
        exact ⟨st, hst, by omega⟩
      · exact ih (by omega) (by omega) (some j) hws hmore heq
    · by_cases hws : ws = []
      · subst hws
        rw [flatten_nil, append_nil] at heq
        rw [heq, length_append]
        exact ⟨st, hst, by omega⟩
      · have := last_of_tags hws hmore a
        rw [heq, List.getLast?_concat, Option.some.injEq] at this
        rw [this] at hc
        exact absurd hc (by decide)

/-! ## The pattern -/

theorem takes_trailingTagsRe {l : Text} : Takes trailingTagsRe l w s ↔
    ∃ ws sp, w = ws.flatten ++ sp ∧ (ws ≠ [] ∧ ∀ x ∈ ws, SpacedTag x) ∧ (∀ c ∈ sp, isSpace c = true) ∧ (s = [] ∨ s = ['\n']) := by
  unfold trailingTagsRe
  rw [takes_seq]
  constructor
  · rintro ⟨a, b, rfl, ha, hb⟩
    obtain ⟨ws, hne, rfl, hall⟩ := (takes_plus_flatten (fun _ _ _ => takes_spacedTagRe) fun _ => SpacedTag.ne_nil).1 ha
    obtain ⟨sp, e, rfl, hsp, he⟩ := takes_seq.1 hb
    obtain ⟨rfl, hs⟩ := takes_last.1 he
    exact ⟨ws, sp, by rw [append_nil], ⟨hne, hall⟩, takes_star_one.1 hsp, hs⟩
  · rintro ⟨ws, sp, rfl, ⟨hne, hall⟩, hsp, hs⟩
    refine ⟨ws.flatten, sp, rfl, ?_, takes_seq.2 ⟨sp, [], (append_nil _).symm, takes_star_one.2 hsp, takes_last.2 ⟨rfl, hs⟩⟩⟩
    exact (takes_plus_flatten (fun _ _ _ => takes_spacedTagRe) fun _ => SpacedTag.ne_nil).2 ⟨ws, hne, rfl, hall⟩

theorem rstrip_of_takes {a : Text} (h : Takes trailingTagsRe a.reverse w s) :
    ∃ ws, (ws ≠ [] ∧ ∀ x ∈ ws, SpacedTag x) ∧ rstrip (a ++ w ++ s) = a ++ ws.flatten := by
  obtain ⟨ws, sp, rfl, ⟨hne, hall⟩, hsp, hs⟩ := takes_trailingTagsRe.1 h
  refine ⟨ws, ⟨hne, hall⟩, ?_⟩
  have hspace : ∀ c ∈ sp ++ s, isSpace c = true := by
    intro c hc
    rcases List.mem_append.1 hc with hc | hc
    · exact hsp c hc
    · rcases hs with rfl | rfl
      · cases hc
      · rw [List.mem_singleton.1 hc]
        decide
  unfold rstrip
  rw [← append_assoc, append_assoc _ sp s, rstripOf_append hspace, rstripOf_trim]
  intro c hc
  rw [last_of_tags hne hall, Option.some.injEq] at hc
  rw [← hc]
  decide

theorem itemStep_space {sp : Text} (hsp : ∀ c ∈ sp, isSpace c = true) (l : Text) : itemStep (l, sp) = none := by
  have hno : ∀ (l : Text) {sp : Text}, (∀ c ∈ sp, isSpace c = true) → tagRe.ends (l, sp) = [] := by
    intro l sp hsp
    cases sp with
    | nil => rfl
    | cons c sp =>
      refine ends_tagRe_of_ne ?_ l sp
      rintro rfl
      exact absurd (hsp '[' (mem_cons_self ..)) (by decide)
  unfold itemStep
  rw [← Option.toList_eq_nil_iff, ← ends_tagRe]
  cases sp with
  | nil => exact hno l hsp
  | cons c sp =>
    rw [skipSpace_cons, if_pos (hsp c (mem_cons_self ..))]
    exact hno _ fun d hd => hsp d (mem_cons_of_mem _ hd)

theorem head?_ends_trailing (hne : ws ≠ []) (hall : ∀ x ∈ ws, SpacedTag x) {sp : Text}
    (hsp : ∀ c ∈ sp, isSpace c = true) (l : Text) :
    (trailingTagsRe.ends (l, ws.flatten ++ sp)).head? = some (sp.reverse ++ (ws.flatten.reverse ++ l), []) := by
  have htags : (ws.flatten.reverse ++ l, sp) ∈ (plus spacedTagRe).ends (l, ws.flatten ++ sp) :=
    (takes_plus_flatten (fun _ _ _ => takes_spacedTagRe) fun _ => SpacedTag.ne_nil).2 ⟨ws, hne, rfl, hall⟩
  refine head?_ends_seq (head?_ends_plus ends_spacedTagRe (fun _ _ => itemStep_short) htags (itemStep_space hsp _)) ?_
  obtain ⟨others, heq, -⟩ := ends_star_one isSpace (ws.flatten.reverse ++ l) sp
  rw [(takeWhile_eq_self_iff).2 hsp, List.dropWhile_eq_nil_iff.2 hsp] at heq
  exact head?_ends_seq (by rw [heq]; rfl) rfl

theorem trailing_tags_eq (text : Text) :
    trailingTags text = ((search trailingTagsRe [] text).map matched).getD [] := by
  obtain ⟨sp, htext, hsp⟩ := rstripOf_spec isSpace text
  have htake : text.take (rstrip text).length = rstrip text := by
    exact (congrArg (List.take (rstrip text).length) htext).trans (take_left' rfl)
  have hle : (rstrip text).length ≤ text.length := by
    have := congrArg List.length htext
    rw [length_append] at this
    unfold rstrip
    omega
  -- a match starts where tags start
  have hstart : ∀ a w s, text = a ++ w ++ s → Takes trailingTagsRe a.reverse w s →
      ∃ st, tagsFrom text (rstrip text).length (rstrip text).length none = some st ∧ st ≤ a.length := by
    intro a w s heq htakes
    obtain ⟨ws, ⟨hne, hall⟩, hrstrip⟩ := rstrip_of_takes htakes
    rw [← heq] at hrstrip
    exact tagsFrom_leftmost _ hle le_rfl none hne hall (htake.trans hrstrip)
  unfold trailingTags
  dsimp only
  cases hfrom : tagsFrom text (rstrip text).length (rstrip text).length none with
  | none =>
    rw [search_eq_none]
    · rfl
    · intro a w s heq htakes
      obtain ⟨st, hst, -⟩ := hstart a w s heq htakes
      rw [hfrom] at hst
      cases hst
  | some st =>
    rcases tagsFrom_tags _ hle hfrom with hnone | ⟨ws, hne, hws, hall, hlt⟩
    · cases hnone
    have hparts : text = text.take st ++ (ws.flatten ++ sp) := by
      rw [← append_assoc, ← hws, htake]
      exact htext
    have hdrop : text.drop st = ws.flatten ++ sp := by
      have := take_append_drop st text
      exact append_cancel_left (this.trans hparts)
    have hfound := @search_eq_some trailingTagsRe [] (text.take st) (ws.flatten ++ sp) _
      (head?_ends_trailing hne hall hsp _) fun a b hab hshort => by
        by_contra hsome
        obtain ⟨w, s, rfl, htakes⟩ := ends_ne_nil_iff.1 hsome
        rw [append_nil] at htakes
        obtain ⟨st', hst', hle'⟩ := hstart a w s (by rw [hparts, hab, append_assoc]) htakes
        rw [hfrom, Option.some.injEq] at hst'
        rw [length_take] at hshort
        omega
    rw [← hparts] at hfound
    rw [hfound, Option.map_some, Option.getD_some]
    show text.drop st = _
    rw [hdrop]
    unfold matched
    simp

end CisApp.Hygiene
