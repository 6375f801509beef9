import CisApp.Segments.Membership
import CisApp.Segments.Order

/-!
# A repeated run

A second run directly after the first sees its own labels and ids as pseudo atoms.
`Repeatable` is the condition on the state in between: each component is one pseudo
atom with forming atoms of its Segment, no atom comes before the stored label, and
no component derives the stored id of another.  Then every claim is held, nothing
gives way, and the second run writes what is there (`repeat_unchanged`).
-/

namespace CisApp.Segments

open Lib List

variable {T : Text} {sha : String → String} {rejected : String → Finset String → Bool}
  {C : Catalog} {S : Store} {tour : String}

/-- Each component is its Segment come back. -/
structure Settled (T : Text) (C : Catalog) (S : Store) (tour : String) (derived : List Segment) :
    Prop where
  home : ∀ s ∈ derived, ∃ p, pseudoId p ∈ s.atomIds ∧
    ∀ a ∈ s.atomIds, assigned T C S tour a = some p
  named : ∀ s ∈ derived, ∀ x ∈ pseudoAtoms T C S tour, x.atomId ∈ s.atomIds →
    ∀ a ∈ C.formingAtoms T tour, a.atomId ∈ s.atomIds → (x.key T).order ≤ (a.key T).order
  own : ∀ s ∈ derived, ∀ s' ∈ derived, pseudoId s'.id ∈ s.atomIds → pseudoId s'.id ∈ s'.atomIds

/-- The condition on the state before the second run. -/
def Repeatable (T : Text) (sha : String → String) (rejected : String → Finset String → Bool)
    (w : World) (tour : String) : Prop :=
  tour ≠ "" ∧ ∀ derived, derivedSegments T sha w.catalog w.store tour rejected = .ok derived →
    Settled T w.catalog w.store tour derived

/-! ## Claims are held -/

section claims

variable {derived : List Segment} (hd : derivedSegments T sha C S tour rejected = .ok derived)
  (hids : (derived.map Segment.id).Nodup) (hset : Settled T C S tour derived)

include hset

variable {p c : String}

theorem Settled.claim (hc : Claimant derived (assigned T C S tour) p c) :
    ∃ s ∈ derived, s.id = c ∧ pseudoId p ∈ s.atomIds ∧ ∀ a ∈ s.atomIds, assigned T C S tour a = some p := by
  obtain ⟨s, hs, hsc, a, ha, hap⟩ := held_pos.1 hc.holds
  obtain ⟨q, hq, hall⟩ := hset.home s hs
  obtain rfl : q = p := Option.some.inj ((hall a ha).symm.trans hap)
  exact ⟨s, hs, hsc, hq, hall⟩

include hids in
theorem Settled.claim_unique {q : String} (hp : Claimant derived (assigned T C S tour) p c)
    (hq : Claimant derived (assigned T C S tour) q c) : p = q := by
  obtain ⟨s, hs, hsc, hin, hall⟩ := hset.claim hp
  obtain ⟨s', hs', hsc', -, hall'⟩ := hset.claim hq
  obtain rfl := inj_on_of_nodup_map hids hs hs' (hsc.trans hsc'.symm)
  exact Option.some.inj ((hall _ hin).symm.trans (hall' _ hin))

include hd in
theorem Settled.free (hc : Claimant derived (assigned T C S tour) p c) (hne : c ≠ p) : p ∉ derived.map Segment.id := by
  intro hp
  obtain ⟨s, hs, hsc, hin, -⟩ := hset.claim hc
  obtain ⟨s', hs', rfl⟩ := mem_map.1 hp
  have hsame := derived_eq_of_mem hd hs hs' hin (hset.own s hs s' hs' hin)
  exact hne (by rw [← hsc, hsame])

include hd in
theorem Settled.givesUp : GivesUp derived (assigned T C S tour) :=
  fun _ _ hc hne hp => absurd hp (hset.free hd hc hne)

include hd hids in
theorem Settled.held (hc : Claimant derived (assigned T C S tour) p c) :
    (granted derived (assigned T C S tour)).ids c = p := by
  have hgr := granted_spec derived (assigned T C S tour)
  rcases hgr.source c hc.mem with hsame | hclaim
  · by_cases hcp : c = p
    · rw [hsame, hcp]
    · -- the id is free, so the component cannot have stayed where it was
      have hself : ¬ Claimant derived (assigned T C S tour) c c := fun h =>
        hcp (hset.claim_unique hids h hc)
      exact absurd hsame ((hgr.left c hc.mem hself).2
        ⟨p, mem_claims.2 hc, Given.free hc hcp (hset.free hd hc hcp)⟩)
  · exact hset.claim_unique hids (mem_claims.1 hclaim) hc

variable {P : Plan} (hg : Guarded T C S (T.countryNorm (tourCountry C tour)) (claimed T C S tour)
  (keptSegments derived (assigned T C S tour)) (flatten (settled derived (assigned T C S tour))) P)

include hd hids hg

theorem Settled.aliasRows_eq : P.aliasRows = [] := by
  rw [eq_nil_iff_forall_not_mem]
  intro e he
  obtain ⟨c, hc, hne, -⟩ := (mem_aliasRows hg (hset.givesUp hd)).1 he
  exact hne (hset.held hd hids hc)

theorem Settled.finalId_eq {s : Segment} (hs : s ∈ derived) {a : String} (ha : a ∈ s.atomIds)
    (hap : assigned T C S tour a = some p) : finalId derived (assigned T C S tour) P s.id = p := by
  obtain ⟨c, hc⟩ := exists_claimant hs ha hap
  obtain ⟨s', hs', rfl, hin, -⟩ := hset.claim hc
  obtain ⟨q, hq, hall⟩ := hset.home s hs
  obtain rfl : q = p := Option.some.inj ((hall a ha).symm.trans hap)
  rw [derived_eq_of_mem hd hs hs' hq hin]
  exact finalId_of_held hd hg hc (hset.held hd hids hc)

theorem Settled.memberRows_mem : ∀ r ∈ P.memberRows, r ∈ S.members := by
  intro r hr
  obtain ⟨s, hs, hin, hreal, hid⟩ := (mem_memberRows hg).1 hr
  obtain ⟨p, -, hall⟩ := hset.home s hs
  rw [hset.finalId_eq hd hids hg hs hin (hall _ hin)] at hid
  have hrow := mem_of_segmentOf (assigned_real hreal (hall _ hin))
  rw [← hid] at hrow
  exact hrow

omit hids hg

theorem Settled.label (htour : tour ≠ "") {s : Segment} (hs : s ∈ derived)
    (hp : pseudoId p ∈ s.atomIds) (hall : ∀ a ∈ s.atomIds, assigned T C S tour a = some p) :
    S.segments.get? p = some (s.place, s.action) := by
  obtain ⟨members, label, hsub, hl, hmem, hplace, haction⟩ := exists_labels poolAtoms_nodup hd hs
  have hin : ∀ a ∈ members, a.atomId ∈ s.atomIds := fun a ha => by
    rw [hmem]
    exact mem_map_of_mem ha
  -- a pseudo atom of the component is that of the Segment
  have hpseudo : ∀ x ∈ members, x ∈ pseudoAtoms T C S tour → x.atomId = pseudoId p := by
    intro x hx hxp
    obtain ⟨q, -, -, -, hq⟩ := mem_pseudoAtoms hxp
    have hass := hall _ (hin x hx)
    unfold assigned at hass
    rw [if_pos (List.any_eq_true.2 ⟨x, hxp, by simp⟩), hq, storedId_pseudoId] at hass
    rw [hq, Option.some.inj hass]
  rcases mem_append.1 (hsub label hl.mem) with hform | hps
  · exfalso
    rw [hmem] at hp
    obtain ⟨x, hx, hxp⟩ := mem_map.1 hp
    have hxps : x ∈ pseudoAtoms T C S tour := by
      rcases mem_append.1 (hsub x hx) with h | h
      · have hplain := newAtoms_plain (mem_of_mem_filter h)
        rw [hxp, isPseudo_pseudoId] at hplain
        cases hplain
      · exact h
    have hle := (head?_sortBy hl.key).2 _ (mem_map_of_mem hx)
    have hge := hset.named s hs x hxps (hin x hx) label hform (hin label hl.mem)
    have hkey := order_injective (le_antisymm hge hle)
    have hfirst := hl.first x hx hkey
    unfold labelKey at hfirst
    rw [(pseudoAtoms_label hxps hxp).2, newAtoms_tourId (mem_of_mem_filter hform)] at hfirst
    rcases Prod.Lex.le_iff.1 hfirst with hlt | ⟨heq, -⟩
    · exact absurd (String.lt_iff_toList_lt.1 hlt) (not_lt_nil _)
    · exact htour heq
  · obtain ⟨hstored, -⟩ := pseudoAtoms_label hps (hpseudo label hl.mem hps)
    rw [hplace, haction]
    exact hstored

include hids hg

theorem Settled.segmentRows_eq (htour : tour ≠ "") : ∀ e ∈ P.segmentRows, S.segments.get? e.1 = some e.2 := by
  intro e he
  unfold Plan.segmentRows at he
  rw [hset.aliasRows_eq hd hids hg] at he
  obtain ⟨s', hs', rfl⟩ := mem_map.1 he
  have hwrite : s' ∈ P.toWrite := by simpa using hs'
  obtain ⟨s, hs, rfl⟩ := mem_map.1 (mem_of_mem_filter hwrite)
  obtain ⟨d, hdd, rfl⟩ := (mem_segments hg).1 hs
  obtain ⟨p, hp, hall⟩ := hset.home d hdd
  show S.segments.get? (finalId derived (assigned T C S tour) P d.id) = some (d.place, d.action)
  rw [hset.finalId_eq hd hids hg hdd hp (hall _ hp)]
  exact hset.label hd htour hdd hp hall

end claims

/-! ## The second run -/

theorem upsertLabels_of_get? {may : String → Bool} {rows : List (String × String × String)}
    {t : Table String (String × String)} (h : ∀ e ∈ rows, t.get? e.1 = some e.2) : rows.foldl (upsertLabel may) t = t := by
  induction rows with
  | nil => rfl
  | cons e rows ih =>
    have he : upsertLabel may t e = t := by
      unfold upsertLabel
      split
      · exact Table.upsert_of_get? (h e mem_cons_self)
      · rfl
    rw [foldl_cons, he]
    exact ih fun e' he' => h e' (mem_cons_of_mem _ he')

theorem stays_of_forming {a : SegmentAtom} (ha : a ∈ C.formingAtoms T tour) : stays T C tour a.atomId = true := by
  obtain ⟨hnew, hforms⟩ := mem_filter.1 ha
  unfold stays
  rw [Bool.and_eq_true, decide_eq_true_eq, Bool.not_eq_true']
  constructor
  · intro hex
    obtain ⟨b, hb, hab⟩ := mem_map.1 hex
    obtain ⟨hbnew, hno⟩ := mem_filter.1 hb
    rw [inj_on_of_nodup_map newAtoms_nodup hbnew hnew hab, hforms] at hno
    cases hno
  · obtain ⟨r, hr, -, hlive⟩ := mem_newAtoms hnew
    unfold Catalog.live at hlive
    rw [Bool.and_eq_true, Bool.not_eq_true'] at hlive
    unfold Catalog.deadAtom
    rw [hr, Option.map_some, Option.getD_some, hlive.1, Bool.and_false]

theorem run_stays {P : Plan} {S' : Store} (h : runSegmentMatching T sha rejected C S tour = .ok (P, S')) :
    ∀ r ∈ S'.members, stays T C tour r.2 = true := by
  intro r hr
  rcases run_ok h with ⟨hnil, -, -, rfl⟩ | ⟨hplan, hw⟩
  · unfold stays Catalog.excludedAtoms
    rw [hnil]
    simpa using (mem_filter.1 hr).2
  · obtain ⟨derived, hd, -, hg⟩ := planRun_ok hplan
    rw [hw.members, mem_insertRows, mem_filter] at hr
    rcases hr with hr | hr
    · exact hr.2
    · obtain ⟨a, ha, hra⟩ := forming_of_memberRows hd hg hr
      rw [← hra]
      exact stays_of_forming ha

theorem Written.unchanged {P : Plan} {S' : Store} (hplan : planRun T sha rejected C S tour = .ok P)
    (hw : Written T C S tour P S') (hstays : ∀ r ∈ S.members, stays T C tour r.2 = true)
    (htour : tour ≠ "") (hset : ∀ derived, derivedSegments T sha C S tour rejected = .ok derived →
      Settled T C S tour derived) : S' = S := by
  obtain ⟨derived, hd, hids, hg⟩ := planRun_ok hplan
  have hs := hset derived hd
  have hnil := hs.aliasRows_eq hd hids hg
  have hmembers : S'.members = S.members := by
    rw [hw.members, hnil, repointMembers_nil, filter_eq_self.2 hstays]
    exact insertRows_of_subset (hs.memberRows_mem hd hids hg)
  have hsegments : S'.segments = S.segments := by
    rw [hw.segments]
    refine upsertLabels_of_get? fun e he => ?_
    exact hs.segmentRows_eq hd hids hg htour e ((mem_sortBy _ _ _).1 he)
  have haliases : S'.aliases = S.aliases := by
    rw [hw.aliases, hnil]
    rfl
  cases S
  cases S'
  simp_all

theorem step_step_run (w : World) (h : Repeatable T sha rejected (w.step T sha rejected (.run tour)) tour) :
    (w.step T sha rejected (.run tour)).step T sha rejected (.run tour) = w.step T sha rejected (.run tour) := by
  rcases step_run_cases T sha rejected w tour with
    ⟨P, S₁, hrun, hstep⟩ | ⟨-, hstep⟩
  · rw [hstep] at h ⊢
    have hstays := run_stays hrun
    rcases step_run_cases T sha rejected { w with store := S₁ } tour with
      ⟨P', S₂, hrun', hstep'⟩ | ⟨-, hstep'⟩ <;> rw [hstep']
    rcases run_ok hrun' with ⟨-, -, -, rfl⟩ | ⟨hplan, hw⟩
    · -- a tour without atoms: only its dead atoms would go
      have hself : S₁.members.filter (fun r => !w.catalog.deadAtom tour r.2) = S₁.members := by
        refine filter_eq_self.2 fun r hr => ?_
        have := hstays r hr
        unfold stays at this
        rw [Bool.and_eq_true] at this
        exact this.2
      show World.mk w.catalog { S₁ with
        members := S₁.members.filter fun r => !w.catalog.deadAtom tour r.2 } = _
      rw [hself]
    · rw [hw.unchanged hplan hstays h.1 h.2]
  · rw [hstep, hstep]

/-- **Run.**  After any sequence of runs, a run that follows one of the same tour in a state it can
repeat leaves all three tables as they are. -/
theorem repeat_unchanged (T : Text) (sha : String → String)
    (rejected : String → Finset String → Bool) (C : Catalog) (acts : List Act) (tour : String)
    (h : Repeatable T sha rejected (run (World.step T sha rejected) (World.init C) (acts ++ [.run tour])) tour) :
    run (World.step T sha rejected) (World.init C) (acts ++ [.run tour, .run tour]) =
      run (World.step T sha rejected) (World.init C) (acts ++ [.run tour]) := by
  rw [run_append] at h ⊢
  rw [run_append]
  exact step_step_run _ h

instance Settled.decidable (T : Text) (C : Catalog) (S : Store) (tour : String)
    (derived : List Segment) : Decidable (Settled T C S tour derived) :=
  decidable_of_iff
    ((∀ s ∈ derived, ∃ x ∈ s.atomIds, pseudoId (storedId x) = x ∧
        ∀ a ∈ s.atomIds, assigned T C S tour a = some (storedId x)) ∧
      (∀ s ∈ derived, ∀ x ∈ pseudoAtoms T C S tour, x.atomId ∈ s.atomIds →
        ∀ a ∈ C.formingAtoms T tour, a.atomId ∈ s.atomIds → (x.key T).order ≤ (a.key T).order) ∧
      ∀ s ∈ derived, ∀ s' ∈ derived, pseudoId s'.id ∈ s.atomIds → pseudoId s'.id ∈ s'.atomIds) (by
    constructor
    · rintro ⟨home, named, own⟩
      refine ⟨fun s hs => ?_, named, own⟩
      obtain ⟨x, hx, heq, hall⟩ := home s hs
      exact ⟨storedId x, by rw [heq]; exact hx, hall⟩
    · rintro ⟨home, named, own⟩
      refine ⟨fun s hs => ?_, named, own⟩
      obtain ⟨p, hp, hall⟩ := home s hs
      exact ⟨pseudoId p, hp, by rw [storedId_pseudoId], by rw [storedId_pseudoId]; exact hall⟩)

theorem repeatable_of_check {w : World} (htour : tour ≠ "")
    (h : ((derivedSegments T sha w.catalog w.store tour rejected).toOption.all fun derived =>
      Settled T w.catalog w.store tour derived) = true) : Repeatable T sha rejected w tour := by
  refine ⟨htour, fun derived hd => ?_⟩
  rw [hd] at h
  exact of_decide_eq_true h

set_option maxRecDepth 100000 in
/-- The second tour of the citadel, run twice. -/
theorem repeat_unchanged_hue : run (World.step Text.ascii id fun _ _ => false) (World.init hueCatalog)
        [.run "s", .run "t", .run "t"] =
      run (World.step Text.ascii id fun _ _ => false) (World.init hueCatalog) [.run "s", .run "t"] :=
  repeat_unchanged Text.ascii id (fun _ _ => false) hueCatalog [.run "s"] "t"
    (repeatable_of_check (by decide) (by decide +kernel))

set_option maxRecDepth 100000 in
/-- The atom without a word in its action is given a second row. -/
theorem repeat_adds_row_kyoto : ¬ ∀ (sha : String → String), Function.Injective sha →
      ∀ (rejected : String → Finset String → Bool) (C : Catalog) (tours : List String) (tour : String),
      run (World.step Text.ascii sha rejected) (World.init C) ((tours.map Act.run) ++ [.run tour, .run tour]) =
        run (World.step Text.ascii sha rejected) (World.init C) ((tours.map Act.run) ++ [.run tour]) := by
  intro h
  have hsha : Function.Injective kyotoDigest :=
    tableDigest_injective (by decide) (by decide)
  have heq := congrArg (fun w => w.store.members.length)
    (h kyotoDigest hsha (fun _ _ => false) kyotoCatalog [] "t")
  exact absurd heq (by decide +kernel)

end CisApp.Segments
