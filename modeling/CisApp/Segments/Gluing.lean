import CisApp.Segments.Membership

/-!
# No gluing by id

Minted ids are coarser than the join rule and stay behind when labels move on, so
an id that a component mints may be that of a Segment it has nothing to do with.
`Known` lists how a component comes by an id that already has members: through one
of its atoms, through an atom of the tour that is excluded now, or as a mint that
nobody claims and the run reports.  `run_noGluing` says that there is no other way,
and that only the first two relabel.
-/

namespace CisApp.Segments

open Lib List

variable {T : Text} {sha : String → String} {rejected : String → Finset String → Bool}
  {C : Catalog} {S : Store} {tour : String}

/-- An atom of the component, real or pseudo, belongs to the Segment. -/
def Holds (S : Store) (s : Segment) (i : String) : Prop :=
  pseudoId i ∈ s.atomIds ∨ ∃ b ∈ s.atomIds, (i, b) ∈ S.members

def Excluded (T : Text) (C : Catalog) (S : Store) (tour i : String) : Prop :=
  ∃ b ∈ C.excludedAtoms T tour, (i, b) ∈ S.members

/-- How a component comes by the id of a Segment with members. -/
def Known (T : Text) (C : Catalog) (S : Store) (tour : String) (P : Plan) (s : Segment) (i : String) :
    Prop :=
  Holds S s i ∨ Excluded T C S tour i ∨
    (i ∈ P.unclaimedExisting ∧ i ∉ claimed T C S tour ∧
      belongsElsewhere T C S (T.countryNorm (tourCountry C tour)) i = false)

/-- What a run may do to Segments with members. -/
structure NoGluing (T : Text) (C : Catalog) (S : Store) (tour : String) (derived : List Segment)
    (P : Plan) (S' : Store) : Prop where
  members : ∀ a ∈ C.formingAtoms T tour, ∀ i, (i, a.atomId) ∈ S'.members → S.hasMembers i = true →
    (i, a.atomId) ∈ S.members ∨ ∃ s ∈ derived, Known T C S tour P s i ∧
      (a.atomId ∈ s.atomIds ∨
        ∃ p, (p, a.atomId) ∈ S.members ∧ Claimant derived (assigned T C S tour) p s.id)
  labels : ∀ i, S.hasMembers i = true → S'.segments.get? i ≠ S.segments.get? i →
    (∃ s ∈ derived, Holds S s i) ∨ Excluded T C S tour i

section plan

variable {derived : List Segment} {P : Plan}
  (hd : derivedSegments T sha C S tour rejected = .ok derived)
  (hids : (derived.map Segment.id).Nodup)
  (hg : Guarded T C S (T.countryNorm (tourCountry C tour)) (claimed T C S tour)
    (keptSegments derived (assigned T C S tour))
    (flatten (settled derived (assigned T C S tour))) P)

theorem holds_of_assigned {s : Segment} {b i : String} (hb : b ∈ s.atomIds)
    (hbi : assigned T C S tour b = some i) : Holds S s i := by
  cases hp : isPseudo b with
  | false => exact Or.inr ⟨b, hb, mem_of_segmentOf (assigned_real hp hbi)⟩
  | true =>
    left
    unfold assigned at hbi
    split at hbi
    · next hany =>
      obtain ⟨x, hx, heq⟩ := List.any_eq_true.1 hany
      rw [decide_eq_true_eq] at heq
      obtain ⟨q, -, -, -, hq⟩ := mem_pseudoAtoms hx
      rw [← heq, hq, storedId_pseudoId] at hbi
      rw [← Option.some.inj hbi, ← hq, heq]
      exact hb
    · split at hbi
      · next hany =>
        obtain ⟨x, hx, heq⟩ := List.any_eq_true.1 hany
        rw [decide_eq_true_eq] at heq
        have hplain := newAtoms_plain hx
        rw [heq, hp] at hplain
        cases hplain
      · cases hbi

include hd

theorem claimed_cases {i : String} (h : i ∈ claimed T C S tour) :
    (∃ s ∈ derived, ∃ b ∈ s.atomIds, assigned T C S tour b = some i) ∨ Excluded T C S tour i := by
  have hpool : ∀ x ∈ poolAtoms T C S tour, ∃ s ∈ derived, x.atomId ∈ s.atomIds := fun x hx =>
    mem_flatMap.1 ((pool_partition hd).1.mem_iff.2 (mem_map_of_mem hx))
  rcases mem_append.1 h with h | h
  · obtain ⟨a, ha, hai⟩ := mem_filterMap.1 h
    cases hforms : formsSegment T a with
    | true =>
      obtain ⟨s, hs, hin⟩ := hpool a (mem_append_left _ (mem_filter.2 ⟨ha, hforms⟩))
      exact Or.inl ⟨s, hs, a.atomId, hin, hai⟩
    | false =>
      refine Or.inr ⟨a.atomId, mem_map_of_mem (mem_filter.2 ⟨ha, by rw [hforms]; rfl⟩), ?_⟩
      exact mem_of_segmentOf (assigned_real (newAtoms_plain ha) hai)
  · obtain ⟨x, hx, rfl⟩ := mem_map.1 h
    obtain ⟨s, hs, hin⟩ := hpool x (mem_append_right _ hx)
    refine Or.inl ⟨s, hs, x.atomId, hin, ?_⟩
    unfold assigned
    rw [if_pos (List.any_eq_true.2 ⟨x, hx, by simp⟩)]

include hids hg

theorem known_of_finalId (hS : S.Linked) (hgives : GivesUp derived (assigned T C S tour)) {s : Segment}
    (hs : s ∈ derived) (hmem : S.hasMembers (finalId derived (assigned T C S tour) P s.id) = true)
    (hwritten : hasReal s = true ∨ ∃ p, (flatten (settled derived (assigned T C S tour))).get? p =
      some ((granted derived (assigned T C S tour)).ids s.id)) :
    Known T C S tour P s (finalId derived (assigned T C S tour) P s.id) := by
  have hgr := granted_spec derived (assigned T C S tour)
  have hin : s.id ∈ derived.map Segment.id := mem_map_of_mem hs
  -- a second mint has no members
  have hfresh : ∀ j, (j, finalId derived (assigned T C S tour) P s.id) ∉ P.remints := by
    intro j hj
    have hsome := hS.of_hasMembers hmem
    rw [(hg.fresh _ hj).2.1] at hsome
    cases hsome
  have hsame : finalId derived (assigned T C S tour) P s.id =
      (granted derived (assigned T C S tour)).ids s.id :=
    (newId_cases P.remints _).resolve_right (hfresh _)
  have hself : ∀ c i, Claimant derived (assigned T C S tour) i c → c = s.id → Holds S s i := by
    intro c i hc hcs
    obtain ⟨s', hs', hsc, b, hb, hbi⟩ := held_pos.1 hc.holds
    obtain rfl := inj_on_of_nodup_map hids hs' hs (hsc.trans hcs)
    exact holds_of_assigned hb hbi
  rcases hgr.source s.id hin with hstay | hclaim
  · -- the component stayed with its own mint
    by_cases hprior : ∃ s' ∈ derived, ∃ b ∈ s'.atomIds, assigned T C S tour b = some s.id
    · obtain ⟨s', hs', b, hb, hbi⟩ := hprior
      obtain ⟨c, hc⟩ := exists_claimant hs' hb hbi
      by_cases hcs : c = s.id
      · left
        rw [hsame, hstay]
        exact hself c _ hc hcs
      · -- a derived id that another component claims was given up
        have hnot : ¬ Claimant derived (assigned T C S tour) s.id s.id := fun h => hcs (hc.unique h)
        obtain ⟨q, hq, hgiven⟩ := hgives _ c hc hcs hin
        exact absurd hstay ((hgr.left s.id hin hnot).2 ⟨q, mem_claims.2 hq, hgiven⟩)
    · by_cases hcl : s.id ∈ claimed T C S tour
      · right; left
        rw [hsame, hstay]
        exact (claimed_cases hd hcl).resolve_left hprior
      · -- nobody claims the mint: the guard let it pass
        right; right
        have hnew : newId P.remints s.id = s.id := by
          have := hsame
          unfold finalId at this
          rw [hstay] at this
          exact this
        rw [hsame, hstay] at hfresh hmem ⊢
        have hun := mem_writtenUnclaimed hs hwritten (by rw [hstay]; exact hcl)
        rw [hstay] at hun
        have helse : belongsElsewhere T C S (T.countryNorm (tourCountry C tour)) s.id = false := by
          cases hb : belongsElsewhere T C S (T.countryNorm (tourCountry C tour)) s.id with
          | false => rfl
          | true =>
            have hkey := newId_mem_of_key (hg.elsewhere _ hun hb)
            rw [hnew] at hkey
            exact absurd hkey (hfresh _)
        exact ⟨hg.reported _ hun helse hmem, hcl, helse⟩
  · left
    rw [hsame]
    exact hself _ _ (mem_claims.1 hclaim) rfl

end plan

theorem upsertLabels_changed {may : String → Bool} {rows : List (String × String × String)}
    {t : Table String (String × String)} {i : String} (hsome : (t.get? i).isSome)
    (h : (rows.foldl (upsertLabel may) t).get? i ≠ t.get? i) : may i = true := by
  induction rows generalizing t with
  | nil => exact absurd rfl h
  | cons e rows ih =>
    rw [foldl_cons] at h
    unfold upsertLabel at h
    split at h
    · next hmay =>
      by_cases hei : i = e.1
      · subst hei
        rw [Bool.or_eq_true] at hmay
        rcases hmay with hnone | hmay
        · rw [Option.isNone_iff_eq_none] at hnone
          rw [hnone] at hsome
          cases hsome
        · exact hmay
      · have hget : (t.upsert e.1 e.2).get? i = t.get? i := by rw [Table.get?_upsert, if_neg hei]
        refine ih (t := t.upsert e.1 e.2) ?_ ?_
        · rw [hget]; exact hsome
        · rw [hget]; exact h
    · exact ih hsome h

/-- **A run writes a forming atom into a Segment with members, or relabels one, only through the
Segment's own atoms, or joins a mint that nobody claims and says so.** -/
theorem run_noGluing (T : Text) (sha : String → String) (rejected : String → Finset String → Bool)
    (C : Catalog) (S : Store) (tour : String) (derived : List Segment) (P : Plan) (S' : Store)
    (hS : S.Linked) (hd : derivedSegments T sha C S tour rejected = .ok derived)
    (hgives : GivesUp derived (assigned T C S tour))
    (hrun : runSegmentMatching T sha rejected C S tour = .ok (P, S')) : NoGluing T C S tour derived P S' := by
  rcases run_ok hrun with ⟨hnil, -, -, rfl⟩ | ⟨hplan, hw⟩
  · refine ⟨fun a ha => ?_, fun i _ hne => absurd rfl hne⟩
    have hin := mem_of_mem_filter ha
    rw [hnil] at hin
    cases hin
  obtain ⟨derived', hd', hids, hg⟩ := planRun_ok hplan
  obtain rfl : derived' = derived := Except.ok.inj (hd'.symm.trans hd)
  constructor
  · intro a ha i hr hmem
    rcases (hw.mem_members (aliasRows_no_chain hg hgives hS)).1 hr with h | ⟨-, -, h | ⟨e, he, hi, h⟩⟩
    · right
      obtain ⟨s, hs, hin, hreal, rfl⟩ := (mem_memberRows hg).1 h
      refine ⟨s, hs, known_of_finalId hd hids hg hS hgives hs hmem (Or.inl ?_), Or.inl hin⟩
      exact List.any_eq_true.2 ⟨_, hin, by rw [hreal]; rfl⟩
    · exact Or.inl h
    · -- the old Segment of the atom gave way to the component
      right
      obtain ⟨c, hc, hne, heq⟩ := (mem_aliasRows hg hgives).1 he
      obtain ⟨s, hs, rfl⟩ := List.mem_map.1 hc.mem
      rw [show i = e.2 from hi, heq] at hmem ⊢
      refine ⟨s, hs, known_of_finalId hd hids hg hS hgives hs hmem (Or.inr ⟨e.1, ?_⟩), Or.inr ⟨e.1, h, hc⟩⟩
      rw [flatten_eq hgives, get?_settled]
      exact ⟨s.id, hc, rfl, hne.symm⟩
  · intro i hmem hne
    rw [hw.segments] at hne
    have hmay := upsertLabels_changed (hS.of_hasMembers hmem) hne
    rw [hmem, Bool.not_true, Bool.or_false, decide_eq_true_eq] at hmay
    rcases claimed_cases hd hmay with ⟨s, hs, b, hb, hbi⟩ | hex
    · exact Or.inl ⟨s, hs, holds_of_assigned hb hbi⟩
    · exact Or.inr hex

def firstRun (T : Text) (sha : String → String) (C : Catalog) (tour : String) : Store :=
  (World.step T sha (fun _ _ => false) (World.init C) (.run tour)).store

theorem firstRun_linked : (firstRun T sha C tour).Linked := by
  have hempty : Store.empty.Linked := fun _ h => absurd h not_mem_nil
  unfold firstRun
  rcases step_run_cases T sha (fun _ _ => false) (World.init C) tour with ⟨P, S', hrun, hstep⟩ | ⟨-, hstep⟩ <;> rw [hstep]
  · exact run_linked hrun hempty
  · exact hempty

set_option maxRecDepth 100000 in
/-- The second tour of the citadel joins the Segment of the first. -/
theorem run_noGluing_hue : ∃ derived P S', ("hue|walk|Vietnam", "y") ∈ S'.members ∧
      NoGluing Text.ascii hueCatalog (firstRun Text.ascii id hueCatalog "s") "t" derived P S' := by
  have hone : (derivedSegments Text.ascii id hueCatalog (firstRun Text.ascii id hueCatalog "s") "t"
      fun _ _ => false).toOption.map List.length = some 1 := by decide +kernel
  have hrow : (runSegmentMatching Text.ascii id (fun _ _ => false) hueCatalog
      (firstRun Text.ascii id hueCatalog "s") "t").toOption.map
        (fun out => decide (("hue|walk|Vietnam", "y") ∈ out.2.members)) = some true := by
    decide +kernel
  have hgives := orderly_of_single (w := ⟨hueCatalog, firstRun Text.ascii id hueCatalog "s"⟩) hone
  cases hd : derivedSegments Text.ascii id hueCatalog (firstRun Text.ascii id hueCatalog "s") "t"
      fun _ _ => false with
  | error e =>
    rw [hd] at hone
    cases hone
  | ok derived =>
    cases hrun : runSegmentMatching Text.ascii id (fun _ _ => false) hueCatalog
        (firstRun Text.ascii id hueCatalog "s") "t" with
    | error e =>
      rw [hrun] at hrow
      cases hrow
    | ok out =>
      rw [hrun] at hrow
      exact ⟨derived, out.1, out.2, of_decide_eq_true (Option.some.inj hrow),
        run_noGluing Text.ascii id (fun _ _ => false) hueCatalog (firstRun Text.ascii id hueCatalog "s")
          "t" derived out.1 out.2 firstRun_linked hd (hgives derived hd).1 hrun⟩

/-! ## Gluing by id -/

/-- An atom is written into a Segment with members only where it was one, or its component holds
the pseudo atom, or the Segment was aliased. -/
def JoinsOnly (T : Text) (sha : String → String) (C : Catalog) (S : Store) (tour : String) : Prop :=
  ∀ derived ∈ (derivedSegments T sha C S tour fun _ _ => false).toOption,
    ∀ out ∈ (runSegmentMatching T sha (fun _ _ => false) C S tour).toOption,
      ∀ r ∈ out.1.memberRows, S.hasMembers r.1 = true →
        r ∈ S.members ∨ (∃ s ∈ derived, r.2 ∈ s.atomIds ∧ pseudoId r.1 ∈ s.atomIds) ∨
          (out.1.aliases.get? r.1).isSome

/-- A Segment with members is relabelled only where a component holds an atom of it. -/
def RelabelsOnly (T : Text) (sha : String → String) (C : Catalog) (S : Store) (tour : String) : Prop :=
  ∀ derived ∈ (derivedSegments T sha C S tour fun _ _ => false).toOption,
    ∀ out ∈ (runSegmentMatching T sha (fun _ _ => false) C S tour).toOption,
      ∀ e ∈ S.segments.rows, S.hasMembers e.1 = true → out.2.segments.get? e.1 ≠ some e.2 →
        ∃ s ∈ derived, pseudoId e.1 ∈ s.atomIds ∨ ∃ b ∈ s.atomIds, (e.1, b) ∈ S.members

instance JoinsOnly.decidable (T : Text) (sha : String → String) (C : Catalog) (S : Store)
    (tour : String) : Decidable (JoinsOnly T sha C S tour) := by
  unfold JoinsOnly
  infer_instance

instance RelabelsOnly.decidable (T : Text) (sha : String → String) (C : Catalog) (S : Store)
    (tour : String) : Decidable (RelabelsOnly T sha C S tour) := by
  unfold RelabelsOnly
  infer_instance

def portDigest : String → String :=
  tableDigest [("kyoto||Japan", "3d9ce1161ce70697"), ("kobe|visit|Japan", "ce7bc415d14bf8dc")]

/-- Two tours with the same action without a word. -/
def shrines : Catalog where
  atoms := ⟨[("x", { tourId := "s", place := some "Kyoto", action := some "拝観" }),
    ("y", { tourId := "t", place := some "Kyoto", action := some "拝観" })], by decide⟩
  tours := ⟨[("s", { country := some "Japan" }), ("t", { country := some "Japan" })], by decide⟩
  plain := by decide

def firstDay (activityType : String) : String × AtomRow :=
  ("w", { tourId := "t", place := some "Kobe", action := some "visit for orientation",
          activityType := some activityType })

def visit (atomId action : String) : String × AtomRow :=
  (atomId, { tourId := "t", place := some "Kobe", action := some action })

def japan : Table String TourRow := ⟨[("t", { country := some "Japan" })], List.nodup_singleton "t"⟩

def kobe : Catalog := ⟨⟨[firstDay "culture"], by decide⟩, japan, by decide⟩
def kobeZoo : Catalog :=
  ⟨⟨[firstDay "culture", visit "x" "visit the zoo"], by decide⟩, japan, by decide⟩

def kobeTransit : Catalog :=
  ⟨⟨[firstDay "transit", visit "x" "visit"], by decide⟩, japan, by decide⟩
def kobeZooTransit : Catalog :=
  ⟨⟨[firstDay "transit", visit "x" "visit the zoo", visit "y" "visit the zoo"], by decide⟩, japan,
    by decide⟩

set_option maxRecDepth 100000 in
/-- Three ways into a Segment without its pseudo atom: by a mint of the same country, by an atom
excluded now (which also relabels), and by another atom of the component. -/
theorem joinsOnly_fails : Function.Injective portDigest ∧
      ¬ JoinsOnly Text.ascii portDigest shrines (firstRun Text.ascii portDigest shrines "s") "t" ∧
      ¬ JoinsOnly Text.ascii portDigest kobeTransit (firstRun Text.ascii portDigest kobe "t") "t" ∧
      ¬ RelabelsOnly Text.ascii portDigest kobeTransit (firstRun Text.ascii portDigest kobe "t") "t" ∧
      ¬ JoinsOnly Text.ascii portDigest kobeZooTransit (firstRun Text.ascii portDigest kobeZoo "t") "t" := by
  refine ⟨tableDigest_injective (by decide) (by decide), ?_, ?_, ?_, ?_⟩
  · decide +kernel
  · decide +kernel
  · decide +kernel
  · decide +kernel

end CisApp.Segments
