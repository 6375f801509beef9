import CisApp.Repair.Text

/-! The sentences a repair attempt works on (`sentence_repair.plan`).

`plan` reads the blocking failures of the gate ledger, takes the quoted sentences out of their
violations (`findings`), finds each quote in the text and collects one item for each place.  A
finding that overlaps an item already there joins it (`mergeItem`): the item's span becomes the
union of both, which may now reach further items, and those join too (`widen`).

What finds a quote and what parses a violation is a parameter (`Reader`): nothing here depends on
where a locator points, only on what the loop does with the spans it gets.  A dict of the source
is told from another by its value; the items of one plan have disjoint non-empty spans
(`planned_plan`), so no two of them are equal. -/

namespace CisApp.Repair

open Lib List

/-- The gates `plan` tells apart; the rest are `other`. -/
inductive Gate where
  | f1Grounding
  | f9CtaFact
  | f2BrandForbidden
  | f11BrandName
  | f12Scope
  | f13Hygiene
  | f13Leak
  | f15Voice
  | f13Repeat
  | f17TripFact
  | f18Rarity
  | f19Authenticity
  | f2PlatformTruth
  | f2Superlatives
  | f9BrandStyle
  | f4SeoSurface
  | other (name : String)
deriving Repr, DecidableEq

/-- `_QUOTED_GATES`: a violation reads `<problem>: '<sentence>'`. -/
def Gate.quoted : Gate → Bool
  | .f2BrandForbidden => true
  | .f11BrandName => true
  | .f12Scope => true
  | .f13Hygiene => true
  | .f13Leak => true
  | .f15Voice => true
  | .f13Repeat => true
  | .f17TripFact => true
  | .f18Rarity => true
  | .f19Authenticity => true
  | .f2PlatformTruth => true
  | .f2Superlatives => true
  | _ => false

/-- `_ELIGIBLE_GATES`. -/
def Gate.eligible (g : Gate) : Bool :=
  g.quoted || g == .f1Grounding || g == .f9CtaFact || g == .f9BrandStyle

structure Entry where
  gate : Gate
  passed : Bool
  blocking : Bool := true
  violations : List Text := []

abbrev Span := Nat × Nat

/-- One entry of `hygiene.sentence_spans`. -/
structure SentenceSpan where
  start : Nat
  stop : Nat
  prose : Bool

/-- What the locators and the violation parsers return. -/
structure Reader where
  classes : CharClasses
  expandLedger : List Entry → List Entry
  ownedElsewhere : Gate → Bool
  locateSentence : Text → Text → Option Span
  locateHeading : Text → Text → Option Span
  headingTextAt : Text → Span → Option Span
  sentenceSpans : Text → List SentenceSpan
  brandQuote : Text → Option (Text × Text)
  f1Quote : Text → Option Text
  f9Claims : Text → List (Text × Text × Text)
  brandStyleSentences : Text → Text → List (Text × Text)

/-- A quoted sentence, what is wrong with it and the gate that says so. -/
structure Finding where
  quote : Text
  problem : Text
  gate : Gate

inductive Guard where
  | headingKept
  | repeatKept
  | repeated
deriving Repr, DecidableEq

/-- One repair item. -/
structure Item where
  start : Nat
  stop : Nat
  sentence : Text := []
  problem : Text := []
  gate : Gate
  gates : List Gate
  heading : Bool := false
  fallback : Text := []
  guard : Option Guard := none
deriving Repr, DecidableEq

/-! ## The findings -/

def seoFieldPrefix (v : Text) : Bool :=
  "title ".toList.isPrefixOf v || "meta ".toList.isPrefixOf v

/-- A failed gate the SEO title / meta fit owns (`_seo_fields_only`). -/
def seoFieldsOnly (R : Reader) (g : Entry) : Bool :=
  if g.gate == .f4SeoSurface || R.ownedElsewhere g.gate then true
  else
    (g.gate.quoted || g.gate == .f9CtaFact) && !g.violations.isEmpty &&
      g.violations.all seoFieldPrefix

/-- An F4 violation about the slug (`_slug_violation`). -/
def slugViolation (g : Entry) : Bool :=
  g.gate == .f4SeoSurface &&
    g.violations.any fun v => "no slug".toList.isPrefixOf v || "slug ".toList.isPrefixOf v

def integrityProblem : Text :=
  ("is broken or garbled as text (bad grammar, a doubled call to action, visible markup or a " ++
    "thought cut off) — rewrite it as one clean sentence with the same facts, " ++
    "or return \"\" to cut it").toList

/-- The items of one F9 violation; `none` asks for the full rewrite (`_f9_items`). -/
def f9Items (R : Reader) (v : Text) : Option (List Finding) :=
  if seoFieldPrefix v then some []
  else if "TEXT_INTEGRITY: ".toList.isPrefixOf v then
    (R.brandQuote v).map fun m => [⟨m.2, integrityProblem, .f9CtaFact⟩]
  else if contains v "CTA_NOT_REFLECTED".toList || !contains v "unsupported claim(s)".toList then none
  else
    match splitFirst "unsupported claim(s):".toList v with
    -- the words without their colon: the source raises, and there is no plan either
    | none => none
    | some (_, rest) =>
      match R.f9Claims rest with
      | [] => none
      | claims =>
        some (claims.map fun c =>
          ⟨c.1, "claims ".toList ++ strip c.2.1 ++ " — ".toList ++ strip c.2.2, .f9CtaFact⟩)

def styleProblem (phrase : Text) : Text :=
  "flagged style wording ('".toList ++ phrase ++
    ("'): say this sentence plainly, keep its facts, add none, " ++
      "or return \"\" to drop it").toList

def f1Numbers (v : Text) : Text :=
  let head := ((splitFirst " not present".toList v).map Prod.fst).getD v
  strip (removeAll "sentence states".toList head.length head)

/-- The findings of one violation of a failed gate. -/
def violationFindings (R : Reader) (text : Text) (gate : Gate) (v : Text) :
    Option (List Finding) :=
  if gate.quoted then
    if seoFieldPrefix v then some []
    else (R.brandQuote v).map fun m => [⟨m.2, m.1, gate⟩]
  else if gate == .f9BrandStyle then
    some ((R.brandStyleSentences text v).map fun p => ⟨p.1, styleProblem p.2, gate⟩)
  else if gate == .f1Grounding then
    (R.f1Quote v).map fun q =>
      [⟨q, "states ".toList ++ f1Numbers v ++ ", which the source does not contain".toList, gate⟩]
  else f9Items R v

/-- The findings of all failed gates; `none` asks for the full rewrite. -/
def findings (R : Reader) (text : Text) (failed : List Entry) : Option (List Finding) :=
  (failed.mapM fun g : Entry =>
    (g.violations.mapM (violationFindings R text g.gate)).map List.flatten).map List.flatten

/-! ## Collecting the items -/

def spanText (R : Reader) (text : Text) (span : Span) : Text :=
  oneLine (stripCitationTags R.classes [' '] (slice text span.1 span.2))

def addsOne (problem : Text) : Bool := contains problem "add ONE".toList

def Item.addsSentence (o : Item) : Bool := addsOne o.problem

/-- `not (end <= o["start"] or start >= o["end"])`. -/
def Item.meets (start stop : Nat) (o : Item) : Bool := !(stop ≤ o.start || o.stop ≤ start)

def hookSpan (R : Reader) (text : Text) : Option Span :=
  ((R.sentenceSpans text).find? SentenceSpan.prose).map fun s => (s.start, s.stop)

/-- Where the union of an item and a new span starts: not in the hook when the item did not. -/
def unionStart (R : Reader) (text : Text) (hit : Item) (start : Nat) : Nat :=
  match hookSpan R text with
  | none => start
  | some hook =>
    if start < hook.2 && hook.2 ≤ hit.start then
      let next := ((R.sentenceSpans text).find? fun s => hook.2 ≤ s.start).map SentenceSpan.start
      min (next.getD hit.start) hit.start
    else start

/-- The loop of `_merge_item` over the items that are neither the hit nor folded yet: those the
span meets join and widen it.  `none` when one of them may not be merged.  Every round folds an
item, so as many rounds as there are items are enough (`widen_spec`). -/
def widen : Nat → Nat → Nat → List Item → List Item → Option (Nat × Nat × List Item)
  | fuel, start, stop, rest, folded =>
    let more := rest.filter (Item.meets start stop)
    if more.isEmpty then some (start, stop, folded)
    else if more.any fun o => o.addsSentence || o.heading then none
    else
      match fuel with
      | 0 => some (start, stop, folded)
      | fuel + 1 =>
        widen fuel ((more.map Item.start).foldl min start) ((more.map Item.stop).foldl max stop)
          (rest.filter fun o => !o.meets start stop) (folded ++ more)

/-- A further problem and gate of an item. -/
def Item.addProblem (hit : Item) (p : Text × Gate) : Item :=
  { hit with
    problem :=
      if !p.1.isEmpty && !contains hit.problem p.1 then hit.problem ++ "; ALSO: ".toList ++ p.1
      else hit.problem
    gates := if p.2 ∈ hit.gates then hit.gates else hit.gates ++ [p.2] }

def mainGate (hit : Item) : Gate :=
  if .f1Grounding ∈ hit.gates then .f1Grounding
  else if .f9CtaFact ∈ hit.gates then .f9CtaFact
  else hit.gates.headD hit.gate

/-- The item a hit becomes when a finding and the folded items join it. -/
def merged (R : Reader) (text : Text) (hit : Item) (f : Finding) (start stop : Nat)
    (folded : List Item) : Item :=
  let problems := (f.problem, f.gate) :: folded.flatMap fun o => o.gates.map fun g => (o.problem, g)
  let joined := problems.foldl Item.addProblem hit
  { joined with start, stop, sentence := spanText R text (start, stop), gate := mainGate joined }

/-- `_merge_item`: the items after a finding on `span` joined `hit`. -/
def mergeItem (R : Reader) (text : Text) (out : List Item) (hit : Item) (span : Span)
    (f : Finding) : List Item :=
  if hit.addsSentence || addsOne f.problem || hit.heading then out
  else
    match widen out.length (unionStart R text hit (min hit.start span.1)) (max hit.stop span.2)
        (out.filter (· ≠ hit)) [] with
    | none => out
    | some (start, stop, folded) =>
      (out.filter (· ∉ folded)).map fun o =>
        if o = hit then merged R text hit f start stop folded else o

def headingProblem : Text :=
  ("this line is a section HEADING, not a sentence: return a short heading (at most 8 words) " ++
    "that names the place or moment of its section, with no end mark and no claim the SOURCE " ++
    "does not state; never return \"\"").toList

/-- Where a finding points, and whether at a heading. -/
def locate (R : Reader) (text : Text) (f : Finding) : Option (Span × Bool) :=
  match R.locateSentence text f.quote with
  | some span =>
    match R.headingTextAt text span with
    | some onHeading => some (onHeading, true)
    | none => some (span, false)
  | none =>
    if f.gate = .f9CtaFact then (R.locateHeading text f.quote).map fun span => (span, true)
    else none

/-- One round of the loop of `plan`; `none` asks for the full rewrite. -/
def collect (R : Reader) (text : Text) (out : List Item) (f : Finding) : Option (List Item) :=
  match locate R text f with
  | none => if f.gate = .f9CtaFact ∨ f.gate = .f9BrandStyle then some out else none
  | some (span, heading) =>
    match out.find? (Item.meets span.1 span.2), heading with
    | some _, true => some out
    | none, true =>
      some (out ++ [{
        start := span.1, stop := span.2, sentence := spanText R text span,
        problem := f.problem ++ "; ".toList ++ headingProblem, gate := f.gate, gates := [f.gate],
        heading := true }])
    | some hit, false => some (mergeItem R text out hit span f)
    | none, false =>
      some (out ++ [{
        start := span.1, stop := span.2, sentence := spanText R text span, problem := f.problem,
        gate := f.gate, gates := [f.gate] }])

/-- The items to repair, `[]` when only the SEO fields failed, `none` for the full rewrite. -/
def plan (R : Reader) (text : Text) (ledger : List Entry) : Option (List Item) :=
  let blocking := (R.expandLedger ledger).filter fun g => !g.passed && g.blocking
  let failed := blocking.filter fun g => !seoFieldsOnly R g
  if failed.isEmpty && blocking.any (fun g => !R.ownedElsewhere g.gate) &&
      !blocking.any slugViolation then some []
  else if failed.isEmpty || failed.any (fun g => !g.gate.eligible) then none
  else
    match (findings R text failed).bind (List.foldlM (collect R text) []) with
    | none => none
    | some [] => none
    | some out => some out

/-! ## The items of a plan never overlap -/

def Apart (a b : Item) : Prop := a.stop ≤ b.start ∨ b.stop ≤ a.start

theorem meets_eq_false (start stop : Nat) (o : Item) : o.meets start stop = false ↔ stop ≤ o.start ∨ o.stop ≤ start := by
  simp only [Item.meets, Bool.not_eq_false', Bool.or_eq_true, decide_eq_true_eq]

/-- Non-empty spans inside the text, pairwise disjoint. -/
structure Planned (text : Text) (out : List Item) : Prop where
  inRange : ∀ o ∈ out, o.start < o.stop ∧ o.stop ≤ text.length
  apart : out.Pairwise Apart

theorem foldl_min_le (l : List Nat) (n : Nat) : l.foldl min n ≤ n := by
  induction l generalizing n with
  | nil => exact Nat.le_refl n
  | cons a l ih => exact Nat.le_trans (ih (min n a)) (Nat.min_le_left n a)

theorem le_foldl_max (l : List Nat) (n : Nat) : n ≤ l.foldl max n := by
  induction l generalizing n with
  | nil => exact Nat.le_refl n
  | cons a l ih => exact Nat.le_trans (Nat.le_max_left n a) (ih (max n a))

theorem foldl_max_le (l : List Nat) (n m : Nat) (hn : n ≤ m) (h : ∀ a ∈ l, a ≤ m) : l.foldl max n ≤ m := by
  induction l generalizing n with
  | nil => exact hn
  | cons a l ih =>
    refine ih (max n a) (Nat.max_le.2 ⟨hn, h a (by simp)⟩) ?_
    intro b hb
    exact h b (mem_cons_of_mem a hb)

theorem widen_spec (n fuel start stop : Nat) (rest folded : List Item)
    (hfuel : rest.length ≤ fuel) (hstop : stop ≤ n) (hrest : ∀ o ∈ rest, o.stop ≤ n)
    (start' stop' : Nat) (folded' : List Item)
    (h : widen fuel start stop rest folded = some (start', stop', folded')) :
    start' ≤ start ∧ stop ≤ stop' ∧ stop' ≤ n ∧ folded ⊆ folded' ∧
      ∀ o ∈ rest, o ∉ folded' → stop' ≤ o.start ∨ o.stop ≤ start' := by
  induction fuel generalizing start stop rest folded with
  | zero =>
    have hnil : rest = [] := eq_nil_of_length_eq_zero (by omega)
    subst hnil
    obtain ⟨rfl, rfl, rfl⟩ := h
    exact ⟨Nat.le_refl _, Nat.le_refl _, hstop, List.Subset.refl _, by simp⟩
  | succ fuel ih =>
    rw [widen] at h
    split at h
    · next hmore =>
      obtain ⟨rfl, rfl, rfl⟩ := h
      refine ⟨Nat.le_refl _, Nat.le_refl _, hstop, List.Subset.refl _, ?_⟩
      intro o ho _
      rw [List.isEmpty_iff, filter_eq_nil_iff] at hmore
      exact (meets_eq_false _ _ o).1 (by simpa using hmore o ho)
    · next hmore =>
      split at h
      · cases h
      · -- the items met now are folded, the others stay in the list the next round reads
        have hlen : (rest.filter fun o => !o.meets start stop).length ≤ fuel := by
          have hsplit := length_eq_length_filter_add (l := rest) (Item.meets start stop)
          have hpos : 0 < (rest.filter (Item.meets start stop)).length := by
            rw [length_pos_iff]
            intro hnil
            exact hmore (by rw [hnil]; rfl)
          omega
        have hmax : ((rest.filter (Item.meets start stop)).map Item.stop).foldl max stop ≤ n := by
          refine foldl_max_le _ _ _ hstop ?_
          intro a ha
          obtain ⟨o, ho, rfl⟩ := mem_map.1 ha
          exact hrest o (mem_of_mem_filter ho)
        obtain ⟨h₁, h₂, h₃, h₄, h₅⟩ := ih _ _ _ _ hlen hmax
          (fun o ho => hrest o (mem_of_mem_filter ho)) h
        refine ⟨Nat.le_trans h₁ (foldl_min_le _ _), Nat.le_trans (le_foldl_max _ _) h₂, h₃,
          fun o ho => h₄ (mem_append_left _ ho), ?_⟩
        intro o ho hnot
        by_cases hm : o.meets start stop = true
        · exact absurd (h₄ (mem_append_right _ (mem_filter.2 ⟨ho, hm⟩))) hnot
        · exact h₅ o (mem_filter.2 ⟨ho, by simpa using hm⟩) hnot

theorem unionStart_le (R : Reader) (text : Text) (hit : Item) (start : Nat)
    (h : start ≤ hit.start) : unionStart R text hit start ≤ hit.start := by
  unfold unionStart
  split
  · exact h
  · split
    · exact Nat.min_le_right _ _
    · exact h

variable {R : Reader} {text : Text} {out : List Item}

theorem Planned.merge (hout : Planned text out)
    {hit : Item} (hhit : hit ∈ out) {span : Span} (hspan : span.2 ≤ text.length) (f : Finding) :
    Planned text (mergeItem R text out hit span f) := by
  unfold mergeItem
  split
  · exact hout
  · split
    · exact hout
    · next start stop folded hw =>
      obtain ⟨hlt, hle⟩ := hout.inRange hit hhit
      obtain ⟨h₁, h₂, h₃, -, h₅⟩ := widen_spec text.length _ _ _ _ _ (length_filter_le _ _)
        (Nat.max_le.2 ⟨hle, hspan⟩)
        (fun o ho => (hout.inRange o (mem_of_mem_filter ho)).2) _ _ _ hw
      have hstart : start ≤ hit.start :=
        Nat.le_trans h₁ (unionStart_le R text hit _ (Nat.min_le_left _ _))
      -- the merged item and an item that stayed
      have hfar : ∀ o ∈ out.filter (· ∉ folded), o ≠ hit → stop ≤ o.start ∨ o.stop ≤ start := by
        intro o ho hne
        obtain ⟨hmem, hnot⟩ := mem_filter.1 ho
        exact h₅ o (mem_filter.2 ⟨hmem, by simpa using hne⟩) (by simpa using hnot)
      constructor
      · intro o ho
        obtain ⟨o', ho', rfl⟩ := mem_map.1 ho
        split
        · exact ⟨by show start < stop; omega, h₃⟩
        · exact hout.inRange o' (mem_of_mem_filter ho')
      · rw [pairwise_map]
        refine (hout.apart.sublist filter_sublist).imp_of_mem ?_
        intro a b ha hb hab
        by_cases hah : a = hit
        · by_cases hbh : b = hit
          · subst hah hbh
            rcases hab with h | h <;> omega
          · rw [if_pos hah, if_neg hbh]
            exact hfar b hb hbh
        · by_cases hbh : b = hit
          · rw [if_neg hah, if_pos hbh]
            exact (hfar a ha hah).symm
          · rw [if_neg hah, if_neg hbh]
            exact hab

theorem Planned.add (hout : Planned text out) {o : Item} (ho : o.start < o.stop ∧ o.stop ≤ text.length)
    (hfree : out.find? (Item.meets o.start o.stop) = none) : Planned text (out ++ [o]) := by
  rw [List.find?_eq_none] at hfree
  constructor
  · intro o' ho'
    rw [mem_append, mem_singleton] at ho'
    rcases ho' with ho' | rfl
    · exact hout.inRange o' ho'
    · exact ho
  · rw [pairwise_append]
    refine ⟨hout.apart, pairwise_singleton _ _, ?_⟩
    intro a ha b hb
    rw [mem_singleton] at hb
    subst hb
    exact ((meets_eq_false _ _ a).1 (by simpa using hfree a ha)).symm

/-- Every span a locator returns for a text is non-empty and lies in it. -/
structure Reader.InRange (R : Reader) (text : Text) : Prop where
  sentence : ∀ quote span, R.locateSentence text quote = some span →
    span.1 < span.2 ∧ span.2 ≤ text.length
  heading : ∀ quote span, R.locateHeading text quote = some span →
    span.1 < span.2 ∧ span.2 ≤ text.length
  headingAt : ∀ at' span, R.headingTextAt text at' = some span →
    span.1 < span.2 ∧ span.2 ≤ text.length

theorem Reader.InRange.locate (hR : R.InRange text) {f : Finding}
    {span : Span} {heading : Bool} (h : locate R text f = some (span, heading)) :
    span.1 < span.2 ∧ span.2 ≤ text.length := by
  unfold Repair.locate at h
  split at h
  · next at' hs =>
    split at h
    · next on hon =>
      simp only [Option.some.injEq, Prod.mk.injEq] at h
      exact h.1 ▸ hR.headingAt _ _ hon
    · simp only [Option.some.injEq, Prod.mk.injEq] at h
      exact h.1 ▸ hR.sentence _ _ hs
  · split at h
    · rw [Option.map_eq_some_iff] at h
      obtain ⟨s, hs, heq⟩ := h
      simp only [Prod.mk.injEq] at heq
      exact heq.1 ▸ hR.heading _ _ hs
    · cases h

theorem Planned.collect (hR : R.InRange text) {out' : List Item}
    (hout : Planned text out) {f : Finding} (h : collect R text out f = some out') : Planned text out' := by
  unfold Repair.collect at h
  split at h
  · split at h
    · exact Option.some.inj h ▸ hout
    · cases h
  · next span heading hloc =>
    have hspan := hR.locate hloc
    split at h
    · exact Option.some.inj h ▸ hout
    · next hfree => exact Option.some.inj h ▸ hout.add hspan hfree
    · next hit hhit => exact Option.some.inj h ▸ hout.merge (List.mem_of_find?_eq_some hhit) hspan.2 f
    · next hfree => exact Option.some.inj h ▸ hout.add hspan hfree

theorem Planned.collectAll (hR : R.InRange text) (fs : List Finding) {out' : List Item} (hout : Planned text out)
    (h : fs.foldlM (Repair.collect R text) out = some out') : Planned text out' := by
  induction fs generalizing out with
  | nil => exact Option.some.inj h ▸ hout
  | cons f fs ih =>
    obtain ⟨mid, hmid, hrest⟩ := Option.bind_eq_some_iff.1 h
    exact ih (hout.collect hR hmid) hrest

theorem planned_plan (hR : R.InRange text) (ledger : List Entry)
    (items : List Item) (h : plan R text ledger = some items) : Planned text items := by
  unfold plan at h
  dsimp only at h
  split at h
  · cases h
    exact ⟨by simp, List.Pairwise.nil⟩
  · split at h
    · cases h
    · split at h
      · cases h
      · cases h
      · next out hout =>
        obtain ⟨fs, -, hfs⟩ := Option.bind_eq_some_iff.1 hout
        exact Option.some.inj h ▸ Planned.collectAll hR fs ⟨by simp, List.Pairwise.nil⟩ hfs

end CisApp.Repair
