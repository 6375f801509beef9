import CisApp.Lib.Tiling
import CisApp.Hygiene.Sentences

/-! The sentences of a text cover it.

An edit of a text goes by the offsets of its sentences.  The sentences of a line are ranges in order, and what they leave out is
whitespace and the marker of an answer or a bullet (`lineSpans_tiles`); the lines follow one another, so the same holds of the
text (`sentence_spans_cover`). -/

namespace CisApp.Hygiene

open Lib Repair List

def markerLength (line : Text) : Nat :=
  let stripped := strip line
  if "A:".toList.isPrefixOf stripped || "- ".toList.isPrefixOf stripped || "* ".toList.isPrefixOf stripped then 2 else 0

def InMarker (line : Text) (i : Nat) : Prop :=
  (line.takeWhile isSpace).length ≤ i ∧ i < (line.takeWhile isSpace).length + markerLength line

def InLineMarker (text : Text) (i : Nat) : Prop :=
  ∃ A l B a, lines text = A ++ l :: B ∧ i = (linesBefore A).length + a ∧ InMarker l a

def Inked (s : Text) (i : Nat) : Prop := ∃ c, s[i]? = some c ∧ isSpace c = false

def range (s : Span) : Nat × Nat := (s.start, s.stop)

/-! ## A line without the space around it -/

variable {line : Text} {i : Nat}

theorem not_inked_of_lt_lead (h : i < (line.takeWhile isSpace).length) : ¬Inked line i := by
  rintro ⟨c, hc, hink⟩
  have hget : (line.takeWhile isSpace)[i]? = some c := by
    obtain ⟨w, hw⟩ := takeWhile_prefix (l := line) isSpace
    rw [← hw, List.getElem?_append_left h] at hc
    exact hc
  rw [mem_takeWhile_imp (mem_of_getElem? hget)] at hink
  cases hink

theorem not_inked_of_rstrip_le (h : (rstrip line).length ≤ i) : ¬Inked line i := by
  rintro ⟨c, hc, hink⟩
  obtain ⟨w, hw, hspace⟩ := rstripOf_spec isSpace line
  change line = rstrip line ++ w at hw
  rw [hw, List.getElem?_append_right h] at hc
  rw [hspace c (mem_of_getElem? hc)] at hink
  cases hink

theorem lt_rstrip_of_inked (h : Inked line i) : i < (rstrip line).length := by
  by_contra hle
  exact not_inked_of_rstrip_le (by omega) h

theorem not_inked_of_strip_nil (h : strip line = []) (i : Nat) : ¬Inked line i := by
  rintro ⟨c, hc, hink⟩
  obtain ⟨w, hw, hspace⟩ := strip_parts line
  have hmem := mem_of_getElem? hc
  rw [hw, h, append_nil] at hmem
  have : isSpace c = true := by
    rcases mem_append.1 hmem with hmem | hmem
    · exact mem_takeWhile_imp hmem
    · exact hspace c hmem
  rw [this] at hink
  cases hink

/-! ## The ends of the sentences -/

theorem endMatches_ordered (s : Text) (fuel k : Nat) :
    (∀ r ∈ endMatches s fuel k, k ≤ r.1 ∧ r.1 < r.2 ∧ s[r.1]?.any endMark = true) ∧
      (endMatches s fuel k).Pairwise fun r t => r.2 ≤ t.1 := by
  induction fuel generalizing k with
  | zero => exact ⟨fun r hr => (not_mem_nil hr).elim, List.Pairwise.nil⟩
  | succ fuel ih =>
    unfold endMatches
    cases hc : s[k]? with
    | none => exact ⟨fun r hr => (not_mem_nil hr).elim, List.Pairwise.nil⟩
    | some c =>
      have hlt := (List.getElem?_eq_some_iff.1 hc).1
      have hlater : ∀ {j : Nat}, k ≤ j → (∀ r ∈ endMatches s fuel j, k ≤ r.1 ∧ r.1 < r.2 ∧ s[r.1]?.any endMark = true) ∧
          (endMatches s fuel j).Pairwise fun r t => r.2 ≤ t.1 := by
        intro j hj
        obtain ⟨hall, hpair⟩ := ih j
        refine ⟨fun r hr => ?_, hpair⟩
        obtain ⟨hle, hrest⟩ := hall r hr
        exact ⟨hj.trans hle, hrest⟩
      dsimp only
      by_cases hmark : endMark c = true
      · rw [if_pos hmark]
        have hj := le_runEnd endMark s (k + 1)
        have hjs := runEnd_le endMark s (show k + 1 ≤ s.length by omega)
        cases hfind : (tagEnds s s.length (runEnd closer s (runEnd endMark s (k + 1)))).reverse.find? (endsHere s) with
        | none => exact hlater (by omega)
        | some e =>
          have hmem := mem_reverse.1 (List.mem_of_find?_eq_some hfind)
          have hge := (tagEnds_run s _ (runEnd_le closer s hjs) hmem).1
          have hclosers := le_runEnd closer s (runEnd endMark s (k + 1))
          obtain ⟨hall, hpair⟩ := hlater (show k ≤ e by omega)
          refine ⟨?_, List.Pairwise.cons (fun r hr => ((ih e).1 r hr).1) hpair⟩
          intro r hr
          rcases mem_cons.1 hr with rfl | hr
          · refine ⟨le_rfl, ?_, ?_⟩
            · omega
            · rw [hc]
              exact hmark
          · exact hall r hr
      · rw [if_neg hmark]
        exact hlater (Nat.le_succ k)

theorem tag_last {t : Text} (ht : tagLength? t = some t.length) : t.getLast? = some ']' := by
  unfold tagLength? at ht
  cases hb : tagBody? t with
  | none => rw [hb] at ht; cases ht
  | some b =>
    rw [hb] at ht
    dsimp only at ht
    split at ht
    · next hcond =>
      obtain ⟨-, hclosed⟩ := Bool.and_eq_true_iff.1 hcond
      obtain ⟨k, -, rfl⟩ := tagBody?_eq_some hb
      have hlen := Option.some.inj ht
      simp only [length_cons] at hlen
      have hlast : b.length - 1 = (b.takeWhile plainTagChar).length := by omega
      rw [beq_iff_eq, List.head?_drop, ← hlast, ← List.getLast?_eq_getElem?] at hclosed
      rw [List.getLast?_cons, List.getLast?_cons, List.getLast?_cons, hclosed]
      rfl
    · cases ht

theorem TagRun.last {y : Text} (hy : TagRun y) (hne : y ≠ []) : y.getLast? = some ']' := by
  induction hy with
  | nil => exact absurd rfl hne
  | @tag w t y hw ht hy ih =>
    by_cases hnil : y = []
    · rw [hnil, append_nil, List.getLast?_append, tag_last ht]
      rfl
    · rw [List.getLast?_append, ih hnil]
      rfl

theorem inked_of_endMatch (s : Text) (fuel : Nat) {k a e : Nat} (hk : k ≤ s.length) (h : (a, e) ∈ endMatches s fuel k) :
    0 < e ∧ Inked s (e - 1) := by
  obtain ⟨hle, -, x, c, y, htake, hc, hy⟩ := endMatches_spec s fuel hk h
  obtain ⟨d, hd, hink⟩ : ∃ d, (s.take e).getLast? = some d ∧ isSpace d = false := by
    by_cases hnil : y = []
    · refine ⟨c, ?_, mark_not_space hc⟩
      rw [htake, hnil, List.getLast?_append]
      rfl
    · refine ⟨']', ?_, by decide⟩
      rw [htake, List.getLast?_append, List.getLast?_cons, hy.last hnil]
      rfl
  have hlen : (s.take e).length = e := length_take_of_le hle
  have hpos : 0 < e := by
    rw [← hlen, htake]
    simp
  rw [List.getLast?_eq_getElem?, hlen, List.getElem?_take_of_lt (by omega)] at hd
  exact ⟨hpos, d, hd, hink⟩

/-! ## The sentences of a line -/

theorem runEnd_le_of_not {p : Char → Bool} {s : Text} {j : Nat} (hj : j ≤ i) {c : Char} (hc : s[i]? = some c)
    (hp : p c = false) : runEnd p s j ≤ i := by
  by_contra hlt
  unfold runEnd at hlt
  have hget : ((s.drop j).takeWhile p)[i - j]? = some c := by
    obtain ⟨w, hw⟩ := takeWhile_prefix (l := s.drop j) p
    have : ((s.drop j).takeWhile p ++ w)[i - j]? = (s.drop j)[i - j]? := by rw [hw]
    rw [List.getElem?_append_left (by omega), List.getElem?_drop, Nat.add_sub_cancel' hj, hc] at this
    exact this
  rw [mem_takeWhile_imp (mem_of_getElem? hget)] at hp
  cases hp

theorem mem_runEnd {p : Char → Bool} {s : Text} {j : Nat} (hj : j ≤ i) (hi : i < runEnd p s j) :
    ∃ c, s[i]? = some c ∧ p c = true := by
  unfold runEnd at hi
  obtain ⟨w, hw⟩ := takeWhile_prefix (l := s.drop j) p
  have hget : ((s.drop j).takeWhile p ++ w)[i - j]? = (s.drop j)[i - j]? := by rw [hw]
  rw [List.getElem?_append_left (by omega), List.getElem?_drop, Nat.add_sub_cancel' hj] at hget
  have hlt : i - j < ((s.drop j).takeWhile p).length := by omega
  rw [List.getElem?_eq_getElem hlt] at hget
  exact ⟨_, hget.symm, mem_takeWhile_imp (getElem_mem hlt)⟩

theorem not_inked_of_runEnd {s t : Text} {j : Nat} (ht : t <+: s) (hj : j ≤ i) (hi : i < runEnd (· == ' ') t j) :
    ¬Inked s i := by
  rintro ⟨c, hc, hink⟩
  obtain ⟨d, hd, hspace⟩ := mem_runEnd hj hi
  obtain ⟨w, rfl⟩ := ht
  rw [List.getElem?_append_left (List.getElem?_eq_some_iff.1 hd).1, hd] at hc
  rw [← Option.some.inj hc, beq_iff_eq.1 hspace] at hink
  revert hink
  decide

variable (T : Tables)

theorem sentencesFrom_tiles (s : Text) {never : Nat → Prop} {ends : List (Nat × Nat)} {cur : Nat}
    (hends : ∀ r ∈ ends, cur ≤ r.1 ∧ r.1 < r.2 ∧ r.2 ≤ (rstrip s).length ∧ s[r.1]?.any endMark = true)
    (hpair : ends.Pairwise fun r t => r.2 ≤ t.1) (hcur : cur ≤ s.length) (hnever : ∀ i, cur ≤ i → ¬never i) :
    Tiles (Inked s) never cur (sentencesFrom T s (rstrip s).length ends cur) s.length := by
  have hstop := (endsHere_rstrip s).1
  induction ends generalizing cur with
  | nil =>
    unfold sentencesFrom
    split
    · next hlt =>
      refine ⟨le_rfl, fun i hi hi' => by omega, hlt, fun i hi _ => hnever i hi, hstop, fun i hi _ => ?_⟩
      exact not_inked_of_rstrip_le hi
    · next hge => exact ⟨hcur, fun i hi _ => not_inked_of_rstrip_le (by omega)⟩
  | cons m ends ih =>
    obtain ⟨a, e⟩ := m
    obtain ⟨hcura, hae, hestop, -⟩ := hends (a, e) mem_cons_self
    obtain ⟨hafter, hpair⟩ := pairwise_cons.1 hpair
    unfold sentencesFrom
    split
    · rw [if_pos (by omega), singleton_append]
      -- the spaces after the sentence end before the next mark
      have hle : e ≤ runEnd (· == ' ') (s.take (rstrip s).length) e := le_runEnd _ _ _
      have hnext : runEnd (· == ' ') (s.take (rstrip s).length) e ≤ (rstrip s).length := by
        have hlen : (s.take (rstrip s).length).length = (rstrip s).length := length_take_of_le hstop
        have := runEnd_le (· == ' ') (s.take (rstrip s).length) (hlen.symm ▸ hestop)
        rwa [hlen] at this
      refine ⟨le_rfl, fun i hi hi' => by omega, by omega, fun i hi _ => hnever i hi, ?_⟩
      refine Tiles.gap hle (fun i hi hi' => not_inked_of_runEnd ( take_prefix _ _) hi hi') ?_
      refine ih (fun r hr => ?_) hpair (by omega) fun i hi => hnever i (by omega)
      obtain ⟨-, hlt, hrstop, hmark⟩ := hends r (mem_cons_of_mem _ hr)
      obtain ⟨c, hc, hcm⟩ := (Option.any_eq_true _ _).1 hmark
      refine ⟨runEnd_le_of_not (hafter r hr) (c := c) ?_ ?_, hlt, hrstop, hmark⟩
      · rw [List.getElem?_take_of_lt (by omega), hc]
      · rw [beq_eq_false_iff_ne]
        rintro rfl
        revert hcm
        decide
    · refine ih (fun r hr => ?_) hpair hcur hnever
      obtain ⟨hle, hrest⟩ := hends r (mem_cons_of_mem _ hr)
      exact ⟨hle, hrest⟩

def Told (line : Text) (i : Nat) : Prop := Inked line i ∧ ¬InMarker line i

theorem inked_lead (h : strip line ≠ []) : Inked line (line.takeWhile isSpace).length := by
  have hne : line.dropWhile isSpace ≠ [] := by
    intro hnil
    apply h
    unfold strip stripOf
    rw [hnil]
    rfl
  obtain ⟨c, rest, hrest⟩ := exists_cons_of_ne_nil hne
  refine ⟨c, ?_, ?_⟩
  · have hget : (line.takeWhile isSpace ++ c :: rest)[(line.takeWhile isSpace).length]? = some c := by
      rw [List.getElem?_append_right le_rfl, Nat.sub_self]
      rfl
    rwa [← hrest, takeWhile_append_dropWhile] at hget
  · have := List.head?_dropWhile_not isSpace line
    rw [hrest] at this
    simpa using this

theorem wholeLine_tiles (h : strip line ≠ []) (hmarker : markerLength line = 0) :
    Tiles (Told line) (InMarker line) 0 [((line.takeWhile isSpace).length, (rstrip line).length)] line.length := by
  refine ⟨Nat.zero_le _, fun i _ hi hm => not_inked_of_lt_lead hi hm.1, lt_rstrip_of_inked (inked_lead h), ?_,
    (endsHere_rstrip line).1, fun i hi _ hm => not_inked_of_rstrip_le hi hm.1⟩
  rintro i - - ⟨hle, hlt⟩
  omega

theorem markerLength_le (line : Text) : (line.takeWhile isSpace).length + markerLength line ≤ line.length := by
  obtain ⟨w, hw, -⟩ := strip_parts line
  have hlen := congrArg List.length hw
  rw [length_append, length_append] at hlen
  have htwo : markerLength line ≤ (strip line).length := by
    unfold markerLength
    dsimp only
    split
    · next h =>
      simp only [Bool.or_eq_true, isPrefixOf_iff_prefix] at h
      rcases h with (h | h) | h <;> exact h.length_le
    · exact Nat.zero_le _
  omega

theorem sentences_tiles (line : Text) : Tiles (Told line) (InMarker line) 0 (sentencesFrom T line (rstrip line).length
        (endMatches line line.length (runEnd (· == ' ') line ((line.takeWhile isSpace).length + markerLength line)))
        (runEnd (· == ' ') line ((line.takeWhile isSpace).length + markerLength line))) line.length := by
  generalize hcur : runEnd (· == ' ') line ((line.takeWhile isSpace).length + markerLength line) = cur
  have hge : (line.takeWhile isSpace).length + markerLength line ≤ cur := hcur ▸ le_runEnd _ _ _
  have hle : cur ≤ line.length := hcur ▸ runEnd_le _ _ (markerLength_le line)
  refine Tiles.gap (Nat.zero_le cur) ?_ (Tiles.mono (fun i hi => hi.1) ?_)
  · rintro i - hi ⟨hink, hmarker⟩
    by_cases hlead : i < (line.takeWhile isSpace).length
    · exact not_inked_of_lt_lead hlead hink
    · by_cases hmark : i < (line.takeWhile isSpace).length + markerLength line
      · exact hmarker ⟨by omega, hmark⟩
      · exact not_inked_of_runEnd prefix_rfl (show _ ≤ i by omega) (hcur ▸ hi) hink
  · obtain ⟨hall, hpair⟩ := endMatches_ordered line line.length cur
    refine sentencesFrom_tiles T line (fun r hr => ?_) hpair hle fun i hi hmarker => ?_
    · obtain ⟨hler, hlt, hmark⟩ := hall r hr
      obtain ⟨hpos, hink⟩ := inked_of_endMatch line line.length hle hr
      have := lt_rstrip_of_inked hink
      exact ⟨hler, hlt, by omega, hmark⟩
    · have := hmarker.2
      omega

theorem lineSpans_tiles (inFaq : Bool) (line : Text) :
    Tiles (Told line) (InMarker line) 0 ((lineSpans T inFaq line).2.map fun r => (r.1, r.2.1)) line.length := by
  have hsentences := sentences_tiles T line
  have hpairs : ∀ (rs : List (Nat × Nat)) (kind : Kind),
      (rs.map fun r => (r.1, r.2, kind)).map (fun r => (r.1, r.2.1)) = rs := by
    intro rs kind
    rw [map_map]
    exact map_id rs
  unfold lineSpans
  dsimp only
  split
  · next hempty =>
    refine ⟨Nat.zero_le _, fun i _ _ hm => ?_⟩
    exact not_inked_of_strip_nil (List.isEmpty_iff.1 hempty) i hm.1
  next hempty =>
  have hne : strip line ≠ [] := fun h => hempty (List.isEmpty_iff.2 h)
  obtain ⟨c, rest, hstrip⟩ := exists_cons_of_ne_nil hne
  have hhash : c = '#' → markerLength line = 0 := by
    rintro rfl
    unfold markerLength
    rw [hstrip]
    rfl
  split
  · next hheading =>
    refine wholeLine_tiles hne (hhash ?_)
    rw [hstrip] at hheading
    by_contra hc
    unfold isHeading at hheading
    simp [hc] at hheading
  split
  · next htags =>
    refine wholeLine_tiles hne (hhash ?_)
    rw [hstrip] at htags
    unfold isHashtagLine at htags
    unfold hashtagsFrom at htags
    split at htags
    · next heq => exact (List.cons.inj heq).1
    · cases htags
  split
  · next hq =>
    refine wholeLine_tiles hne ?_
    obtain ⟨rest', hrest⟩ := isPrefixOf_iff_prefix.1 hq
    unfold markerLength
    rw [← hrest]
    rfl
  next hq =>
  split
  · next hanswer =>
    rw [hpairs]
    have htwo : markerLength line = 2 := by
      unfold markerLength
      dsimp only
      rw [hanswer]
      rfl
    rw [htwo] at hsentences
    exact hsentences
  next hanswer =>
  split
  · next hbullet =>
    rw [hpairs]
    have htwo : markerLength line = 2 := by
      unfold markerLength
      dsimp only
      rw [Bool.or_assoc, hbullet, Bool.or_true]
      rfl
    rw [htwo] at hsentences
    exact hsentences
  · next hbullet =>
    rw [hpairs]
    have hzero : markerLength line = 0 := by
      unfold markerLength
      dsimp only
      rw [Bool.or_assoc, Bool.eq_false_iff.2 hanswer, Bool.eq_false_iff.2 hbullet]
      rfl
    rw [hzero] at hsentences
    exact hsentences

/-! ## The text -/

theorem InMarker.lt_length {l : Text} (h : InMarker l i) : i < l.length := by
  have := markerLength_le l
  have := h.2
  omega

theorem range_spanOf (line : Text) (pos : Nat) (inFaq : Bool) (rs : List (Nat × Nat × Kind)) :
    (rs.map (spanOf T line pos inFaq)).map range = (rs.map fun r => (r.1, r.2.1)).map fun r => (pos + r.1, pos + r.2) := by
  rw [map_map, map_map]
  rfl

theorem spansFrom_tiles {text : Text} {ls A : List Text} {inFaq : Bool} (h : lines text = A ++ ls) :
    Tiles (fun i => Inked text i ∧ ¬InLineMarker text i) (InLineMarker text) (linesBefore A).length
      ((spansFrom T ls (linesBefore A).length inFaq).map range) (text.length + 1) := by
  induction ls generalizing A inFaq with
  | nil =>
    rw [append_nil] at h
    obtain ⟨A', l, hA⟩ := eq_nil_or_concat A |>.resolve_left (h ▸ lines_ne_nil text)
    rw [concat_eq_append] at hA
    rw [hA] at h ⊢
    have hlen := congrArg List.length (lines_insert h)
    simp only [linesAfter, flatMap_nil, append_nil, length_append] at hlen
    rw [length_linesBefore_concat, ← hlen]
    exact ⟨le_rfl, fun i hi hi' => by omega⟩
  | cons l ls ih =>
    have htext := lines_insert h
    have hrest := @ih (A ++ [l]) (lineSpans T inFaq l).1 (by rw [h]; simp)
    rw [length_linesBefore_concat] at hrest
    unfold spansFrom
    rw [map_append, range_spanOf]
    have hmust : ∀ i, i < l.length → Inked text ((linesBefore A).length + i) ∧
        ¬InLineMarker text ((linesBefore A).length + i) → Told l i := by
      rintro i hi ⟨⟨c, hc, hink⟩, hmarker⟩
      rw [htext, getElem?_line A l ls hi] at hc
      exact ⟨⟨c, hc, hink⟩, fun hm => hmarker ⟨A, l, ls, i, h, rfl, hm⟩⟩
    have hnever : ∀ i, i < l.length → InLineMarker text ((linesBefore A).length + i) → InMarker l i := by
      rintro i hi ⟨A', l', B', a, h', hpos, hm⟩
      obtain ⟨rfl, rfl⟩ := line_at_unique (h.symm.trans h') hpos hi hm.lt_length
      exact hm
    have hline := @Tiles.shift _ _ _ _ _ (fun i => Inked text i ∧ ¬InLineMarker text i) (InLineMarker text) _ hmust hnever
      (lineSpans_tiles T inFaq l)
    refine Tiles.append hline (Tiles.gap (Nat.le_succ _) ?_ hrest)
    -- the end of the line
    rintro i hi hi' ⟨⟨c, hc, hink⟩, -⟩
    obtain rfl : i = (linesBefore A ++ l).length := by rw [length_append]; omega
    rw [htext, List.getElem?_append_right le_rfl, Nat.sub_self] at hc
    cases ls with
    | nil => cases hc
    | cons m ls =>
      obtain rfl : '\n' = c := Option.some.inj hc
      revert hink
      decide

theorem slice_insert {X l Z : Text} {a b : Nat} (hb : b ≤ l.length) :
    slice (X ++ l ++ Z) (X.length + a) (X.length + b) = slice l a b := by
  unfold slice
  rw [append_assoc, take_length_add_append, take_append_of_le_length hb, drop_length_add_append]

/-- The spans are in order, none is empty, each is a piece of one line, and what is not whitespace is in exactly one of them,
unless it is the marker of an answer or a bullet, which is in none. -/
theorem sentence_spans_cover (T : Tables) (text : Text) :
    (∀ s ∈ sentenceSpans T text, s.start < s.stop ∧ s.stop ≤ text.length ∧ s.text = slice text s.start s.stop ∧
      '\n' ∉ s.text) ∧ ((sentenceSpans T text).Pairwise fun s t => s.stop ≤ t.start) ∧ ∀ i, Inked text i →
      (¬InLineMarker text i → (sentenceSpans T text).countP (inRange i ∘ range) = 1) ∧
      (InLineMarker text i → (sentenceSpans T text).countP (inRange i ∘ range) = 0) := by
  have htiles := @spansFrom_tiles T text (lines text) [] false rfl
  refine ⟨fun s hs => ?_, List.pairwise_map.1 htiles.pairwise, fun i hink => ⟨fun hmarker => ?_, fun hmarker => ?_⟩⟩
  · obtain ⟨A, l, B, a, b, h, hstart, hstop, htext, inFaq, hmem⟩ := mem_sentenceSpans T hs
    obtain ⟨-, hlt, hle, -⟩ := (lineSpans_tiles T inFaq l).mem (mem_map_of_mem hmem)
    dsimp only at hlt hle
    have hinsert := lines_insert h
    have hl : '\n' ∉ l := notMem_of_mem_lines (h ▸ mem_append_right _ mem_cons_self)
    refine ⟨by omega, ?_, ?_, ?_⟩
    · have := congrArg List.length hinsert
      rw [length_append, length_append] at this
      omega
    · rw [htext, hstart, hstop, hinsert, slice_insert hle]
    · rw [htext]
      exact fun hc => hl (mem_of_mem_take (mem_of_mem_drop hc))
  · have hlt : i < text.length := by
      obtain ⟨c, hc, -⟩ := hink
      exact (List.getElem?_eq_some_iff.1 hc).1
    have := htiles.count_must (i := i) (Nat.zero_le i) (by omega) ⟨hink, hmarker⟩
    rwa [countP_map] at this
  · have := htiles.count_never (i := i) hmarker
    rwa [countP_map] at this

end CisApp.Hygiene
