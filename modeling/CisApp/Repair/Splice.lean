import CisApp.Lib.Sorted
import CisApp.Repair.Plan

/-! Putting the replacements in (`sentence_repair.splice`).

The items are worked off from the back, so that the offsets of those still to come stay valid,
while the repeat guard reads the text as edited so far.  What becomes of an item is its `Outcome`:
its sentence stays, another text stands in its place, or it is cut, with one space after it.

`assemble` reads the same result from the front: the text between the spans, and for each span what
its outcome puts there.  `splice_eq_assemble` is an induction over the items in the order of their
spans; behind the spans still to come the edited text is already the assembled one.  A cut takes
the first space of what follows it.  Where the next span does not start right there this is a space
between the spans (`Framed`); otherwise it can be the first character of what that span became. -/

namespace CisApp.Repair

open Lib List

/-- The repeat guard and the part of a reply that is new, as functions of what they read. -/
structure Editor where
  classes : CharClasses
  repeats : Text → Nat → Nat → Text → Bool
  addedPart : Text → Text → Text

inductive Outcome where
  | kept
  | put (new : Text)
  | cut
deriving Repr, DecidableEq

def dropSpace : Text → Text
  | ' ' :: s => s
  | s => s

def Outcome.apply (text : Text) (item : Item) : Outcome → Text
  | .kept => text
  | .put new => text.take item.start ++ new ++ text.drop item.stop
  | .cut => text.take item.start ++ dropSpace (text.drop item.stop)

def newHeading (u : CharClasses) (item : Item) (reply : Text) : Text :=
  if (cleanHeading u reply).isEmpty then cleanHeading u item.fallback else cleanHeading u reply

def Item.keepsHazard (o : Item) : Bool := contains o.problem "keep the hazard".toList

def rewritten (original reply : Text) : Text := strip reply ++ rstrip (trailingTags original)

/-- One round of `splice`: the item's outcome and the guard it is marked with. -/
def outcome (E : Editor) (guardRepeats : Bool) (text : Text) (item : Item) (reply : Text) :
    Outcome × Option Guard :=
  let original := slice text item.start item.stop
  let new := strip reply
  if item.heading then
    let head := newHeading E.classes item reply
    if head.isEmpty then (.kept, some .headingKept)
    else if head = strip original then (.kept, item.guard)
    else (.put head, item.guard)
  else if !new.isEmpty && guardRepeats && item.addsSentence then
    let added := E.addedPart (if item.sentence.isEmpty then original else item.sentence) new
    if !added.isEmpty && E.repeats text item.start item.stop added then (.kept, some .repeatKept)
    else (.put (rewritten original reply), item.guard)
  else if !new.isEmpty && guardRepeats && E.repeats text item.start item.stop new then
    if item.keepsHazard then (.kept, some .repeatKept) else (.cut, some .repeated)
  else if !new.isEmpty then (.put (rewritten original reply), item.guard)
  else (.cut, item.guard)

/-- One round on the text and the items done so far. -/
def spliceItem (E : Editor) (guardRepeats : Bool) (done : Text × List Item) (p : Item × Text) :
    Text × List Item :=
  let o := outcome E guardRepeats done.1 p.1 p.2
  (o.1.apply done.1 p.1, done.2 ++ [{ p.1 with guard := o.2 }])

def fromTheBack (items : List Item) (replies : List Text) : List (Item × Text) :=
  Lib.sortBy (fun p => OrderDual.toDual p.1.start) (items.zip replies)

def splice (E : Editor) (guardRepeats : Bool) (text : Text) (items : List Item)
    (replies : List Text) : Text × List Item :=
  (fromTheBack items replies).foldl (spliceItem E guardRepeats) (text, [])

/-! ## The result, read from the front -/

/-- What an item may become: its original, its reply with the original's citation tags, the
cleaned heading text of its reply or fallback, or nothing. -/
inductive Allowed (E : Editor) (text : Text) (item : Item) (reply : Text) : Outcome → Prop where
  | original : Allowed E text item reply .kept
  | reply (hsentence : item.heading = false) :
    Allowed E text item reply (.put (rewritten (slice text item.start item.stop) reply))
  | heading (hheading : item.heading = true) :
    Allowed E text item reply (.put (newHeading E.classes item reply))
  | cut (hsentence : item.heading = false) : Allowed E text item reply .cut

/-- The text from `pos` on after the outcomes of the items, which stand in the order of their
spans. -/
def assemble (text : Text) : Nat → List (Item × Outcome) → Text
  | pos, [] => text.drop pos
  | pos, (o, .kept) :: l => slice text pos o.start ++ (slice text o.start o.stop ++ assemble text o.stop l)
  | pos, (o, .put new) :: l => slice text pos o.start ++ (new ++ assemble text o.stop l)
  | pos, (o, .cut) :: l => slice text pos o.start ++ dropSpace (assemble text o.stop l)

/-- The text from `pos` on with every character outside the spans in its place, except at most one
space right after each cut span.  A span never starts before `pos`, so the space a cut takes lies
outside the next one. -/
inductive Framed (text : Text) : Nat → List (Item × Outcome) → Text → Prop where
  | nil (pos : Nat) : Framed text pos [] (text.drop pos)
  | kept {pos : Nat} {o : Item} {l : List (Item × Outcome)} {out : Text} (hpos : pos ≤ o.start)
    (h : Framed text o.stop l out) :
    Framed text pos ((o, .kept) :: l) (slice text pos o.start ++ (slice text o.start o.stop ++ out))
  | put {pos : Nat} {o : Item} {new : Text} {l : List (Item × Outcome)} {out : Text}
    (hpos : pos ≤ o.start) (h : Framed text o.stop l out) :
    Framed text pos ((o, .put new) :: l) (slice text pos o.start ++ (new ++ out))
  | cut {pos : Nat} {o : Item} {l : List (Item × Outcome)} {out : Text} (hpos : pos ≤ o.start)
    (h : Framed text o.stop l out) :
    Framed text pos ((o, .cut) :: l) (slice text pos o.start ++ out)
  | cutSpace {pos : Nat} {o : Item} {l : List (Item × Outcome)} {out : Text} (hpos : pos ≤ o.start)
    (hspace : text[o.stop]? = some ' ') (h : Framed text (o.stop + 1) l out) :
    Framed text pos ((o, .cut) :: l) (slice text pos o.start ++ out)

theorem outcome_allowed (E : Editor) (g : Bool) (text now : Text) (item : Item) (reply : Text)
    (hnow : slice now item.start item.stop = slice text item.start item.stop) :
    Allowed E text item reply (outcome E g now item reply).1 := by
  unfold outcome
  rw [hnow]
  dsimp only
  split
  · next hh =>
    split
    · exact .original
    · split
      · exact .original
      · exact .heading hh
  · next hh =>
    have hs : item.heading = false := by simpa using hh
    split
    · generalize E.addedPart _ _ = added
      split
      · exact .original
      · exact .reply hs
    · split
      · split
        · exact .original
        · exact .cut hs
      · split
        · exact .reply hs
        · exact .cut hs

theorem apply_eq_assemble (text rest : Text) (item : Item) (o : Outcome)
    (l : List (Item × Outcome)) (hlt : item.start < item.stop) (hle : item.stop ≤ text.length)
    (hrest : rest = text.take item.stop ++ assemble text item.stop l) (pos : Nat) (hpos : pos ≤ item.start) :
    o.apply rest item = text.take pos ++ assemble text pos ((item, o) :: l) := by
  have hlen : (text.take item.stop).length = item.stop := by simp; omega
  have htake : rest.take item.start = text.take item.start := by
    rw [hrest, take_append_of_le_length (by omega), take_take]
    congr 1
    omega
  have hdrop : rest.drop item.stop = assemble text item.stop l := by
    rw [hrest, drop_left' hlen]
  have hhead : text.take item.start = text.take pos ++ slice text pos item.start := by
    unfold slice
    conv => lhs; rw [← take_append_drop pos (text.take item.start)]
    rw [take_take, Nat.min_eq_left hpos]
  cases o with
  | kept =>
    have hspan : text.take item.stop = text.take item.start ++ slice text item.start item.stop := by
      unfold slice
      conv => lhs; rw [← take_append_drop item.start (text.take item.stop)]
      rw [take_take, Nat.min_eq_left (by omega)]
    show rest = _
    rw [hrest, hspan, hhead, assemble]
    simp only [append_assoc]
  | put new =>
    show rest.take item.start ++ new ++ rest.drop item.stop = _
    rw [htake, hdrop, hhead, assemble]
    simp only [append_assoc]
  | cut =>
    show rest.take item.start ++ dropSpace (rest.drop item.stop) = _
    rw [htake, hdrop, hhead, assemble]
    simp only [append_assoc]

theorem foldr_eq_assemble (E : Editor) (g : Bool) (text : Text) (l : List (Item × Text))
    (hrange : ∀ p ∈ l, p.1.start < p.1.stop ∧ p.1.stop ≤ text.length)
    (hsorted : l.Pairwise fun p q => p.1.stop ≤ q.1.start) :
    ∃ outs, List.Forall₂ (fun p o => Allowed E text p.1 p.2 o) l outs ∧
      ∀ pos, pos ≤ text.length → (∀ p ∈ l, pos ≤ p.1.start) → (l.foldr (fun p d => spliceItem E g d p) (text, [])).1 =
          text.take pos ++ assemble text pos ((l.map Prod.fst).zip outs) := by
  induction l with
  | nil =>
    refine ⟨[], .nil, ?_⟩
    intro pos _ _
    simp [assemble]
  | cons p l ih =>
    obtain ⟨hp, hl⟩ := pairwise_cons.1 hsorted
    obtain ⟨hlt, hle⟩ := hrange p (by simp)
    obtain ⟨outs, hall, hrest⟩ := ih (fun q hq => hrange q (mem_cons_of_mem p hq)) hl
    have hnow := hrest p.1.stop hle (fun q hq => hp q hq)
    -- the edits so far lie behind the item, so its original is still there
    have horig : slice (l.foldr (fun p d => spliceItem E g d p) (text, [])).1 p.1.start p.1.stop =
        slice text p.1.start p.1.stop := by
      unfold slice
      rw [hnow, take_append_of_le_length (by simp; omega), take_take, Nat.min_self]
    refine ⟨_ :: outs, .cons (outcome_allowed E g text _ p.1 p.2 horig) hall, ?_⟩
    intro pos _ hpos
    exact apply_eq_assemble text _ p.1 _ _ hlt hle hnow pos (hpos p (by simp))

def fromTheFront (items : List Item) (replies : List Text) : List (Item × Text) :=
  (fromTheBack items replies).reverse

variable {items : List Item}

theorem mem_fromTheFront {replies : List Text} {p : Item × Text} (h : p ∈ fromTheFront items replies) : p.1 ∈ items := by
  rw [fromTheFront, mem_reverse, fromTheBack, Lib.mem_sortBy] at h
  exact (of_mem_zip h).1

theorem fromTheFront_sorted {text : Text} (h : Planned text items) (replies : List Text) :
    (fromTheFront items replies).Pairwise fun p q => p.1.stop ≤ q.1.start := by
  have happart : (items.zip replies).Pairwise fun p q => Apart p.1 q.1 := by
    rw [← pairwise_map (f := Prod.fst) (R := Apart)]
    refine h.apart.sublist ?_
    rw [zip_eq_zip_take_min, map_fst_zip (by simp)]
    exact take_sublist _ _
  have hboth : (fromTheBack items replies).Pairwise fun p q =>
      q.1.start ≤ p.1.start ∧ Apart p.1 q.1 := by
    have hsort : (fromTheBack items replies).Pairwise fun p q => q.1.start ≤ p.1.start :=
      Lib.sortBy_pairwise (fun p : Item × Text => OrderDual.toDual p.1.start) (items.zip replies)
    refine hsort.and ?_
    exact happart.perm (Lib.sortBy_perm _ _).symm fun hpq => hpq.symm
  rw [fromTheFront, pairwise_reverse]
  refine hboth.imp_of_mem ?_
  rintro p q hp hq ⟨hle, hap⟩
  obtain ⟨hp', -⟩ := h.inRange p.1 (mem_fromTheFront (mem_reverse.2 hp))
  rcases hap with hap | hap <;> omega

/-- The items with what became of them, in the order of their spans. -/
def results (items : List Item) (replies : List Text) (outs : List Outcome) :
    List (Item × Outcome) :=
  ((fromTheFront items replies).map Prod.fst).zip outs

def AllAllowed (E : Editor) (text : Text) (items : List Item) (replies : List Text)
    (outs : List Outcome) : Prop :=
  List.Forall₂ (fun p o => Allowed E text p.1 p.2 o) (fromTheFront items replies) outs

theorem splice_eq_assemble (E : Editor) (g : Bool) (text : Text) (items : List Item)
    (replies : List Text) (h : Planned text items) : ∃ outs, AllAllowed E text items replies outs ∧
      (splice E g text items replies).1 = assemble text 0 (results items replies outs) := by
  obtain ⟨outs, hall, hres⟩ := foldr_eq_assemble E g text (fromTheFront items replies)
    (fun p hp => h.inRange p.1 (mem_fromTheFront hp)) (fromTheFront_sorted h replies)
  refine ⟨outs, hall, ?_⟩
  have h₀ := hres 0 (Nat.zero_le _) (fun p _ => Nat.zero_le _)
  rw [fromTheFront, foldr_reverse] at h₀
  exact h₀

/-! ## Spans that do not touch -/

theorem dropSpace_cons (c : Char) (s : Text) : dropSpace (c :: s) = if c = ' ' then s else c :: s := by
  by_cases hc : c = ' '
  · subst hc
    rfl
  · rw [if_neg hc]
    unfold dropSpace
    split
    · next heq => exact absurd (List.cons.inj heq).1 hc
    · rfl

theorem dropSpace_drop (text : Text) (n : Nat) :
    dropSpace (text.drop n) = if text[n]? = some ' ' then text.drop (n + 1) else text.drop n := by
  rw [← List.head?_drop, ← tail_drop]
  cases text.drop n with
  | nil => rfl
  | cons c s => simp [dropSpace_cons]

theorem dropSpace_slice_append (text : Text) {a b : Nat} (hab : a < b) (hb : b ≤ text.length) (rest : Text) :
    dropSpace (slice text a b ++ rest) =
      if text[a]? = some ' ' then slice text (a + 1) b ++ rest else slice text a b ++ rest := by
  have hne : ∃ c s, slice text a b = c :: s := by
    refine exists_cons_of_ne_nil ?_
    intro hnil
    have hlen : (slice text a b).length = b - a := by simp [slice, Nat.min_eq_left hb]
    rw [hnil, length_nil] at hlen
    omega
  obtain ⟨c, s, hcs⟩ := hne
  have hget : text[a]? = some c := by
    have := congrArg List.head? hcs
    rwa [slice, List.head?_drop, List.getElem?_take_of_lt hab] at this
  have htail : slice text (a + 1) b = s := by
    have := congrArg List.tail hcs
    rwa [slice, tail_drop] at this
  rw [hcs, hget, htail, cons_append, dropSpace_cons]
  simp

theorem assemble_framed (text : Text) (l : List (Item × Outcome)) (pos : Nat)
    (hrange : ∀ p ∈ l, p.1.start < p.1.stop ∧ p.1.stop ≤ text.length) (hpos : ∀ p ∈ l, pos ≤ p.1.start)
    (hgaps : l.Pairwise fun p q => p.1.stop < q.1.start) : Framed text pos l (assemble text pos l) := by
  induction l generalizing pos with
  | nil => exact .nil pos
  | cons p l ih =>
    obtain ⟨o, out⟩ := p
    obtain ⟨hp, hl⟩ := pairwise_cons.1 hgaps
    have hrest := fun (q : Item × Outcome) hq => hrange q (mem_cons_of_mem _ hq)
    have ho : pos ≤ o.start := hpos (o, out) (by simp)
    have hnext := ih o.stop hrest (fun q hq => Nat.le_of_lt (hp q hq)) hl
    cases out with
    | kept => exact .kept ho hnext
    | put new => exact .put ho hnext
    | cut =>
      -- the first character behind the cut is one of the text, so the space it takes is too
      have hdrop : dropSpace (assemble text o.stop l) =
          if text[o.stop]? = some ' ' then assemble text (o.stop + 1) l
          else assemble text o.stop l := by
        cases l with
        | nil => exact dropSpace_drop text o.stop
        | cons q l =>
          obtain ⟨o', out'⟩ := q
          have hlt : o.stop < o'.start := hp (o', out') (by simp)
          obtain ⟨h₁, h₂⟩ := hrest (o', out') (by simp)
          have hle : o'.start ≤ text.length := Nat.le_trans (Nat.le_of_lt h₁) h₂
          cases out' <;> exact dropSpace_slice_append text hlt hle _
      rw [assemble, hdrop]
      split
      · next hspace => exact .cutSpace ho hspace (ih (o.stop + 1) hrest hp hl)
      · exact .cut ho hnext

theorem mem_results {replies : List Text} {outs : List Outcome}
    {p : Item × Outcome} (h : p ∈ results items replies outs) : p.1 ∈ items := by
  obtain ⟨q, hq, heq⟩ := mem_map.1 (of_mem_zip h).1
  exact heq ▸ mem_fromTheFront hq

theorem results_gaps {text : Text} (h : Planned text items) (replies : List Text) (outs : List Outcome)
    (hgaps : ∀ a ∈ items, ∀ b ∈ items, a.stop ≠ b.start) :
    (results items replies outs).Pairwise fun p q => p.1.stop < q.1.start := by
  have hfront : ((fromTheFront items replies).map Prod.fst).Pairwise fun a b => a.stop ≤ b.start :=
    pairwise_map.2 (fromTheFront_sorted h replies)
  have hzip : (results items replies outs).Pairwise fun p q => p.1.stop ≤ q.1.start := by
    rw [← pairwise_map (f := Prod.fst) (R := fun a b : Item => a.stop ≤ b.start)]
    refine hfront.sublist ?_
    rw [results, zip_eq_zip_take_min, map_fst_zip (by simp)]
    exact take_sublist _ _
  refine hzip.imp_of_mem ?_
  intro p q hp hq hpq
  exact Nat.lt_of_le_of_ne hpq (hgaps p.1 (mem_results hp) q.1 (mem_results hq))

/-- A sentence repair touches only its sentences.  The items of a plan are disjoint; a splice over
disjoint items puts an allowed text in the place of each span and leaves the text between them,
except that a cut takes the space that then follows it.  Where no span starts right where another
ends, that space stands between the spans. -/
theorem repair_touches_only_its_sentences (R : Reader) (E : Editor) (text : Text) :
    (∀ ledger items, R.InRange text → plan R text ledger = some items → items.Pairwise Apart) ∧
    (∀ items replies guardRepeats, Planned text items → ∃ outs, AllAllowed E text items replies outs ∧
        (splice E guardRepeats text items replies).1 = assemble text 0 (results items replies outs) ∧
        ((∀ a ∈ items, ∀ b ∈ items, a.stop ≠ b.start) → Framed text 0 (results items replies outs)
            (splice E guardRepeats text items replies).1)) := by
  refine ⟨fun ledger items hR h => (planned_plan hR ledger items h).apart, ?_⟩
  intro items replies g h
  obtain ⟨outs, hall, heq⟩ := splice_eq_assemble E g text items replies h
  refine ⟨outs, hall, heq, ?_⟩
  intro hgaps
  rw [heq]
  exact assemble_framed text _ 0 (fun p hp => h.inRange p.1 (mem_results hp))
    (fun _ _ => Nat.zero_le _) (results_gaps h replies outs hgaps)

/-! ## A repair of two sentences -/

namespace Hazard

/-- `Go now. Stay.`, read as two sentences that touch: the second starts with the space. -/
def text : Text := "Go now. Stay.".toList

def first : Item := { start := 0, stop := 7, gate := .f1Grounding, gates := [.f1Grounding] }

def second : Item :=
  { start := 7, stop := 13, problem := "keep the hazard".toList, gate := .f17TripFact,
    gates := [.f17TripFact] }

def replies : List Text := [[], "Stay here.".toList]

def classes : CharClasses := ⟨Char.isAlphanum, Char.isDigit⟩

def editor : Editor := ⟨classes, fun _ start _ _ => start == 7, fun _ new => new⟩

theorem planned : Planned text [first, second] := by
  constructor
  · decide
  · refine pairwise_pair.2 (Or.inl ?_)
    decide

/-- Locates the two sentences by their first letter. -/
def reader : Reader where
  classes := classes
  expandLedger := id
  ownedElsewhere := fun _ => false
  locateSentence := fun t q => if t = text then
    (if q.head? = some 'G' then some (0, 7) else some (8, 13)) else none
  locateHeading := fun _ _ => none
  headingTextAt := fun _ _ => none
  sentenceSpans := fun _ => []
  brandQuote := fun v => splitFirst ": ".toList v
  f1Quote := fun _ => none
  f9Claims := fun _ => []
  brandStyleSentences := fun _ _ => []

def ledger : List Entry :=
  [{ gate := .f17TripFact, passed := false,
     violations := ["pace: Go now.".toList, "risk: Stay.".toList] }]

theorem reader_inRange : reader.InRange text := by
  refine ⟨?_, nofun, nofun⟩
  intro quote span h
  simp only [reader, if_true] at h
  split at h
  · cases h
    decide
  · cases h
    decide

end Hazard

theorem repair_touches_only_its_sentences_hazard :
    (∃ items, plan Hazard.reader Hazard.text Hazard.ledger = some items ∧
      items.map (fun o => (o.start, o.stop)) = [(0, 7), (8, 13)] ∧ items.Pairwise Apart) ∧
    (splice Hazard.editor true Hazard.text [Hazard.first, Hazard.second] Hazard.replies).1 = "Stay.".toList ∧
    ∃ outs, AllAllowed Hazard.editor Hazard.text [Hazard.first, Hazard.second] Hazard.replies outs ∧ "Stay.".toList =
        assemble Hazard.text 0 (results [Hazard.first, Hazard.second] Hazard.replies outs) := by
  have hmain := repair_touches_only_its_sentences Hazard.reader Hazard.editor Hazard.text
  have hplan : ∃ items, plan Hazard.reader Hazard.text Hazard.ledger = some items ∧
      items.map (fun o => (o.start, o.stop)) = [(0, 7), (8, 13)] := by
    refine ⟨_, rfl, ?_⟩
    decide +kernel
  have hout : (splice Hazard.editor true Hazard.text [Hazard.first, Hazard.second]
      Hazard.replies).1 = "Stay.".toList := by decide +kernel
  obtain ⟨items, hitems, hspans⟩ := hplan
  obtain ⟨outs, hall, heq, -⟩ :=
    hmain.2 [Hazard.first, Hazard.second] Hazard.replies true Hazard.planned
  rw [hout] at heq
  exact ⟨⟨items, hitems, hspans, hmain.1 _ _ Hazard.reader_inRange hitems⟩, hout, outs, hall, heq⟩

/-! What a framed text can be, by the outcome of its first item. -/

variable {text out : Text} {pos : Nat}

theorem Framed.eq_of_nil (h : Framed text pos [] out) : out = text.drop pos := by
  cases h
  rfl

variable {l : List (Item × Outcome)}

theorem Framed.of_kept {o : Item} (h : Framed text pos ((o, .kept) :: l) out) :
    ∃ rest, Framed text o.stop l rest ∧ pos ≤ o.start ∧
      out = slice text pos o.start ++ (slice text o.start o.stop ++ rest) := by
  cases h with
  | kept hpos h => exact ⟨_, h, hpos, rfl⟩

theorem Framed.of_put {o : Item} {new : Text} (h : Framed text pos ((o, .put new) :: l) out) :
    ∃ rest, Framed text o.stop l rest ∧ pos ≤ o.start ∧ out = slice text pos o.start ++ (new ++ rest) := by
  cases h with
  | put hpos h => exact ⟨_, h, hpos, rfl⟩

theorem Framed.of_cut {o : Item} (h : Framed text pos ((o, .cut) :: l) out) :
    ∃ rest, (Framed text o.stop l rest ∨ Framed text (o.stop + 1) l rest) ∧ pos ≤ o.start ∧
      out = slice text pos o.start ++ rest := by
  cases h with
  | cut hpos h => exact ⟨_, Or.inl h, hpos, rfl⟩
  | cutSpace hpos _ h => exact ⟨_, Or.inr h, hpos, rfl⟩

theorem Hazard.framed_second (o : Outcome)
    (h : Allowed Hazard.editor Hazard.text Hazard.second "Stay here.".toList o) (pos : Nat)
    (hpos : 7 ≤ pos) (rest : Text) (hrest : Framed Hazard.text pos [(Hazard.second, o)] rest) :
    rest ∈ [" Stay.".toList, "Stay here.".toList, []] := by
  have hend : ∀ n out, 13 ≤ n → Framed Hazard.text n [] out → out = [] := by
    intro n out hn hout
    rw [hout.eq_of_nil, drop_eq_nil_iff]
    exact Nat.le_trans (by decide) hn
  cases h with
  | original =>
    obtain ⟨out, hout, hle, rfl⟩ := hrest.of_kept
    obtain rfl : pos = 7 := Nat.le_antisymm hle hpos
    rw [hend _ _ (by decide) hout]
    decide +kernel
  | reply _ =>
    obtain ⟨out, hout, hle, rfl⟩ := hrest.of_put
    obtain rfl : pos = 7 := Nat.le_antisymm hle hpos
    rw [hend _ _ (by decide) hout]
    decide +kernel
  | heading h => cases h
  | cut _ =>
    obtain ⟨out, hout, hle, rfl⟩ := hrest.of_cut
    obtain rfl : pos = 7 := Nat.le_antisymm hle hpos
    have hnil : out = [] := by
      rcases hout with hout | hout
      · exact hend _ _ (by decide) hout
      · exact hend _ _ (by decide) hout
    rw [hnil]
    decide +kernel

/-- The first sentence is cut, the guard keeps the second as it is, and it loses the space it
starts with: no frame of the text around the two spans gives this result. -/
theorem touching_span_loses_its_space : Planned Hazard.text [Hazard.first, Hazard.second] ∧
    ¬ ∃ outs, AllAllowed Hazard.editor Hazard.text [Hazard.first, Hazard.second] Hazard.replies outs ∧
      Framed Hazard.text 0 (results [Hazard.first, Hazard.second] Hazard.replies outs)
        (splice Hazard.editor true Hazard.text [Hazard.first, Hazard.second] Hazard.replies).1 := by
  refine ⟨Hazard.planned, ?_⟩
  rintro ⟨outs, hall, hframed⟩
  have hfront : fromTheFront [Hazard.first, Hazard.second] Hazard.replies =
      [(Hazard.first, []), (Hazard.second, "Stay here.".toList)] := by decide +kernel
  have hout : (splice Hazard.editor true Hazard.text [Hazard.first, Hazard.second]
      Hazard.replies).1 = "Stay.".toList := by decide +kernel
  rw [AllAllowed, hfront] at hall
  rw [results, hfront, hout] at hframed
  cases hall with
  | cons h₁ hall =>
    cases hall with
    | cons h₂ hall =>
      cases hall
      have hsecond := Hazard.framed_second _ h₂
      cases h₁ with
      | original =>
        obtain ⟨rest, hrest, -, heq⟩ := hframed.of_kept
        have hmem := hsecond 7 (by decide) rest hrest
        simp only [mem_cons, not_mem_nil, or_false] at hmem
        rcases hmem with rfl | rfl | rfl <;> revert heq <;> decide +kernel
      | reply _ =>
        obtain ⟨rest, hrest, -, heq⟩ := hframed.of_put
        have hmem := hsecond 7 (by decide) rest hrest
        simp only [mem_cons, not_mem_nil, or_false] at hmem
        rcases hmem with rfl | rfl | rfl <;> revert heq <;> decide +kernel
      | heading h => cases h
      | cut _ =>
        obtain ⟨rest, hrest, -, heq⟩ := hframed.of_cut
        have hmem : rest ∈ [" Stay.".toList, "Stay here.".toList, []] := by
          rcases hrest with hrest | hrest
          · exact hsecond 7 (by decide) rest hrest
          · exact hsecond 8 (by decide) rest hrest
        simp only [mem_cons, not_mem_nil, or_false] at hmem
        rcases hmem with rfl | rfl | rfl <;> revert heq <;> decide +kernel

end CisApp.Repair
