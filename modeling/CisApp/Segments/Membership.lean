import CisApp.Segments.Writes

/-!
# Each atom in one Segment

Membership is only inserted and re-pointed, so an atom keeps its one row exactly
as long as its new Segment takes over the old one.  `Orderly` is that condition on
the state before a run: every forming atom lies in the derived Segment that claims
its old Segment, and claimed ids are given up.  In every sequence of such runs
each forming atom of the tour has one row afterwards, and no atom of another tour
loses its own (`orderly_oneEach`).
-/

namespace CisApp.Segments

open Lib List

variable {T : Text} {sha : String → String} {rejected : String → Finset String → Bool}
  {C : Catalog} {S : Store} {tour : String}

/-- Every real atom lies in the derived Segment that claims its old Segment. -/
def Together (derived : List Segment) (assigned : String → Option String) : Prop :=
  ∀ s ∈ derived, ∀ a ∈ s.atomIds, isPseudo a = false → ∀ p, assigned a = some p →
    Claimant derived assigned p s.id

/-- The condition on the state before a run. -/
def Orderly (T : Text) (sha : String → String) (rejected : String → Finset String → Bool)
    (w : World) : Act → Prop
  | .run tour => ∀ derived, derivedSegments T sha w.catalog w.store tour rejected = .ok derived →
      GivesUp derived (assigned T w.catalog w.store tour) ∧
        Together derived (assigned T w.catalog w.store tour)
  | .edit _ => True

/-- No atom has two rows, and no row is without its Segment. -/
structure OneRow (S : Store) : Prop where
  nodup : S.members.Nodup
  unique : ∀ s s' a, (s, a) ∈ S.members → (s', a) ∈ S.members → s = s'
  linked : S.Linked

theorem oneRow_empty : OneRow Store.empty :=
  ⟨nodup_nil, fun _ _ _ h => absurd h not_mem_nil, fun _ h => absurd h not_mem_nil⟩

theorem OneRow.segmentOf (h : OneRow S) {s a : String} (hs : (s, a) ∈ S.members) : S.segmentOf a = some s := by
  cases hof : S.segmentOf a with
  | none =>
    unfold Store.segmentOf at hof
    rw [List.getLast?_eq_none_iff, map_eq_nil_iff, filter_eq_nil_iff] at hof
    exact absurd (decide_eq_true rfl) (hof (s, a) hs)
  | some p => rw [h.unique p s a (mem_of_segmentOf hof) hs]

theorem assigned_of_new {a : SegmentAtom} (ha : a ∈ C.newAtoms tour) :
    assigned T C S tour a.atomId = S.segmentOf a.atomId := by
  unfold assigned
  have hno : (pseudoAtoms T C S tour).any (fun p => p.atomId = a.atomId) = false := by
    rw [Bool.eq_false_iff]
    intro hp
    obtain ⟨q, hq, heq⟩ := List.any_eq_true.1 hp
    rw [decide_eq_true_eq] at heq
    obtain ⟨s, label, -, -, hqs⟩ := mem_pseudoAtoms hq
    have hplain := newAtoms_plain ha
    rw [← heq, hqs, isPseudo_pseudoId] at hplain
    cases hplain
  rw [hno, if_neg (by simp), if_pos (List.any_eq_true.2 ⟨a, ha, by simp⟩)]

section write

variable {derived : List Segment} {P : Plan} {S' : Store}
  (hd : derivedSegments T sha C S tour rejected = .ok derived)
  (hg : Guarded T C S (T.countryNorm (tourCountry C tour)) (claimed T C S tour)
    (keptSegments derived (assigned T C S tour))
    (flatten (settled derived (assigned T C S tour))) P)
  (hgives : GivesUp derived (assigned T C S tour))

include hg hgives

theorem row_goes (hS : S.Linked) (hw : Written T C S tour P S') {q b t : String}
    (hone : ∀ q', (q', b) ∈ S.members → q' = q) (hr : (t, b) ∈ S'.members) (hnew : (t, b) ∉ P.memberRows) :
    (t = q ∧ q ∉ P.aliasRows.map Prod.fst) ∨ (q, t) ∈ P.aliasRows := by
  rcases (hw.mem_members (aliasRows_no_chain hg hgives hS)).1 hr with h | ⟨-, hkey, h | ⟨e, he, ht, h⟩⟩
  · exact absurd h hnew
  · have hq := hone t h
    subst hq
    exact Or.inl ⟨rfl, hkey⟩
  · right
    have hq := hone e.1 h
    rw [← hq, show t = e.2 from ht]
    exact he

theorem aliasRows_unique {q t t' : String} (h : (q, t) ∈ P.aliasRows) (h' : (q, t') ∈ P.aliasRows) : t = t' := by
  obtain ⟨c, hc, -, ht⟩ := (mem_aliasRows hg hgives).1 h
  obtain ⟨c', hc', -, ht'⟩ := (mem_aliasRows hg hgives).1 h'
  rw [show t = _ from ht, show t' = _ from ht', hc.unique hc']

omit hgives
include hd

theorem forming_of_memberRows {r : String × String} (h : r ∈ P.memberRows) :
    ∃ a ∈ C.formingAtoms T tour, a.atomId = r.2 := by
  obtain ⟨s, hs, hin, hreal, -⟩ := (mem_memberRows hg).1 h
  have hpool : r.2 ∈ (poolAtoms T C S tour).map SegmentAtom.atomId := by
    rw [← (pool_partition hd).1.mem_iff]
    exact mem_flatMap.2 ⟨s, hs, hin⟩
  exact mem_map.1 ((mem_pool_real hpool).1 hreal)

theorem finalId_of_held {p c : String} (hc : Claimant derived (assigned T C S tour) p c)
    (hheld : (granted derived (assigned T C S tour)).ids c = p) : finalId derived (assigned T C S tour) P c = p := by
  obtain ⟨s, hs, -, a, ha, hap⟩ := held_pos.1 hc.holds
  unfold finalId
  rw [hheld]
  exact newId_of_claimed hg (mem_claimed hd hs ha hap)

include hgives

theorem forming_row (hone : OneRow S) (htogether : Together derived (assigned T C S tour))
    (hw : Written T C S tour P S') {a : SegmentAtom} (ha : a ∈ C.formingAtoms T tour) {s : Segment}
    (hs : s ∈ derived) (has : a.atomId ∈ s.atomIds) {t : String} (hr : (t, a.atomId) ∈ S'.members) :
    t = finalId derived (assigned T C S tour) P s.id := by
  have hnew := mem_of_mem_filter ha
  by_cases hrow : (t, a.atomId) ∈ P.memberRows
  · -- the atom is in one derived Segment
    obtain ⟨s', hs', has', -, ht⟩ := (mem_memberRows hg).1 hrow
    rw [show t = _ from ht, derived_eq_of_mem hd hs' hs has' has]
  · -- the atom had a row, whose Segment its own Segment claims
    have hold : ∃ q, (q, a.atomId) ∈ S.members := by
      rcases (hw.mem_members (aliasRows_no_chain hg hgives hone.linked)).1 hr with
        h | ⟨-, -, h | ⟨e, -, -, h⟩⟩
      · exact absurd h hrow
      · exact ⟨t, h⟩
      · exact ⟨e.1, h⟩
    obtain ⟨q, hq⟩ := hold
    have hassigned : assigned T C S tour a.atomId = some q := by
      rw [assigned_of_new hnew, hone.segmentOf hq]
    have hclaim := htogether s hs a.atomId has (newAtoms_plain hnew) q hassigned
    rcases row_goes hg hgives hone.linked hw (fun q' h => hone.unique q' q _ h hq) hr hrow with
      ⟨rfl, hkey⟩ | hin
    · by_cases hheld : (granted derived (assigned T C S tour)).ids s.id = t
      · exact (finalId_of_held hd hg hclaim hheld).symm
      · exact absurd (mem_map_of_mem ((mem_aliasRows hg hgives (e := (t, _))).2
          ⟨s.id, hclaim, hheld, rfl⟩)) hkey
    · obtain ⟨c, hc, -, ht⟩ := (mem_aliasRows hg hgives).1 hin
      rw [show t = _ from ht, hc.unique hclaim]

theorem Written.oneRow (hone : OneRow S) (htogether : Together derived (assigned T C S tour))
    (hw : Written T C S tour P S') : OneRow S' := by
  refine ⟨hw.nodup hone.nodup, fun t t' b hr hr' => ?_, hw.linked hone.linked⟩
  by_cases hb : ∃ a ∈ C.formingAtoms T tour, a.atomId = b
  · obtain ⟨a, ha, rfl⟩ := hb
    obtain ⟨s, hs, has⟩ := exists_derived_of_forming hd ha
    rw [forming_row hd hg hgives hone htogether hw ha hs has hr,
      forming_row hd hg hgives hone htogether hw ha hs has hr']
  · -- no row of the atom is inserted, so both come from its one old row
    have hnew : ∀ u, (u, b) ∉ P.memberRows := fun u h => hb (forming_of_memberRows hd hg h)
    have hold : ∃ q, (q, b) ∈ S.members := by
      rcases (hw.mem_members (aliasRows_no_chain hg hgives hone.linked)).1 hr with
        h | ⟨-, -, h | ⟨e, -, -, h⟩⟩
      · exact absurd h (hnew t)
      · exact ⟨t, h⟩
      · exact ⟨e.1, h⟩
    obtain ⟨q, hq⟩ := hold
    have hqs : ∀ q', (q', b) ∈ S.members → q' = q := fun q' h => hone.unique q' q b h hq
    rcases row_goes hg hgives hone.linked hw hqs hr (hnew t) with ⟨rfl, hkey⟩ | hin <;>
      rcases row_goes hg hgives hone.linked hw hqs hr' (hnew t') with ⟨rfl, hkey'⟩ | hin'
    · rfl
    · exact absurd (mem_map_of_mem hin') hkey
    · exact absurd (mem_map_of_mem hin) hkey'
    · exact aliasRows_unique hg hgives hin hin'

omit hd

theorem Written.keeps (hS : S.Linked) (hw : Written T C S tour P S') {q b : String}
    (hq : (q, b) ∈ S.members) (hb : stays T C tour b = true) : ∃ t, (t, b) ∈ S'.members := by
  have hmem := fun {r} => hw.mem_members (r := r) (aliasRows_no_chain hg hgives hS)
  by_cases hkey : q ∈ P.aliasRows.map Prod.fst
  · obtain ⟨e, he, rfl⟩ := mem_map.1 hkey
    exact ⟨e.2, hmem.2 (Or.inr ⟨hb, aliasRows_no_chain hg hgives hS e he, Or.inr ⟨e, he, rfl, hq⟩⟩)⟩
  · exact ⟨q, hmem.2 (Or.inr ⟨hb, hkey, Or.inl hq⟩)⟩

end write

/-! ## Runs -/

/-- What the write asserts of its own rows, of the table: each forming atom of the tour has one
row, and atoms of other tours keep theirs. -/
def OneEach (T : Text) (sha : String → String) (rejected : String → Finset String → Bool)
    (w : World) : Act → Prop
  | .run tour => ∀ P S', runSegmentMatching T sha rejected w.catalog w.store tour = .ok (P, S') →
      (∀ a ∈ w.catalog.formingAtoms T tour,
        (S'.members.filter fun r => r.2 = a.atomId).length = 1) ∧
      ∀ s a, (s, a) ∈ w.store.members → (∀ r, w.catalog.atoms.get? a = some r → r.tourId ≠ tour) →
        ∃ s', (s', a) ∈ S'.members
  | .edit _ => True

theorem OneRow.length_eq_one (h : OneRow S) {s a : String} (hs : (s, a) ∈ S.members) :
    (S.members.filter fun r => r.2 = a).length = 1 := by
  have hnodup : (S.members.filter fun r => r.2 = a).Nodup := h.nodup.sublist filter_sublist
  have hone : ∀ r, r ∈ (S.members.filter fun r => r.2 = a) ↔ r ∈ [(s, a)] := by
    intro r
    rw [mem_filter, decide_eq_true_eq, mem_singleton]
    constructor
    · rintro ⟨hr, ha⟩
      subst ha
      exact Prod.ext (h.unique r.1 s r.2 hr hs) rfl
    · rintro rfl
      exact ⟨hs, rfl⟩
  exact ((perm_ext_iff_of_nodup hnodup (nodup_singleton _)).2 hone).length_eq

theorem stays_of_other {a : String} (h : ∀ r, C.atoms.get? a = some r → r.tourId ≠ tour) : stays T C tour a = true := by
  unfold stays
  rw [Bool.and_eq_true, decide_eq_true_eq, Bool.not_eq_true']
  constructor
  · intro hin
    obtain ⟨x, hx, rfl⟩ := mem_map.1 hin
    obtain ⟨r, hr, htour, -⟩ := mem_newAtoms (mem_of_mem_filter hx)
    exact h r hr htour
  · unfold Catalog.deadAtom
    cases hr : C.atoms.get? a with
    | none => rfl
    | some r => simp [h r hr]

theorem Written.exists_row {P : Plan} {S' : Store} (hw : Written T C S tour P S') {a : SegmentAtom}
    (ha : a ∈ C.formingAtoms T tour) : ∃ s, (s, a.atomId) ∈ S'.members := by
  have hin : a.atomId ∈ P.toWrite.flatMap Segment.atomIds := by
    rw [← count_pos_iff, hw.covered a ha]
    omega
  obtain ⟨s, hs, has⟩ := mem_flatMap.1 hin
  refine ⟨s.id, ?_⟩
  rw [hw.members, mem_insertRows]
  exact Or.inr (mem_flatMap.2 ⟨s, hs, mem_map_of_mem has⟩)

variable {w : World}

theorem OneRow.step {act : Act} (h : OneRow w.store)
    (ho : Orderly T sha rejected w act) : OneRow (w.step T sha rejected act).store := by
  cases act with
  | edit C => exact h
  | run tour =>
    rcases step_run_cases T sha rejected w tour with ⟨P, S', hrun, hstep⟩ | ⟨-, hstep⟩ <;> rw [hstep]
    · rcases run_ok hrun with ⟨-, -, -, rfl⟩ | ⟨hplan, hw⟩
      · exact ⟨h.nodup.sublist filter_sublist,
          fun s s' a hs hs' => h.unique s s' a (mem_of_mem_filter hs) (mem_of_mem_filter hs'),
          fun r hr => h.linked r (mem_of_mem_filter hr)⟩
      · obtain ⟨derived, hd, -, hg⟩ := planRun_ok hplan
        obtain ⟨hgives, htogether⟩ := ho derived hd
        exact hw.oneRow hd hg hgives h htogether
    · exact h

theorem OneRow.oneEach {act : Act} (h : OneRow w.store)
    (ho : Orderly T sha rejected w act) : OneEach T sha rejected w act := by
  cases act with
  | edit C => trivial
  | run tour =>
    intro P S' hrun
    have hafter : OneRow S' := by
      have hstep := h.step ho
      rw [step_run_ok hrun] at hstep
      exact hstep
    rcases run_ok hrun with ⟨hnil, -, -, rfl⟩ | ⟨hplan, hw⟩
    · refine ⟨fun a ha => ?_, fun s a hs ha => ⟨s, mem_filter.2 ⟨hs, ?_⟩⟩⟩
      · have := mem_of_mem_filter ha
        rw [hnil] at this
        cases this
      · have := stays_of_other (T := T) ha
        unfold stays at this
        rw [Bool.and_eq_true] at this
        exact this.2
    · obtain ⟨derived, hd, -, hg⟩ := planRun_ok hplan
      obtain ⟨hgives, htogether⟩ := ho derived hd
      refine ⟨fun a ha => ?_, fun s a hs ha => hw.keeps hg hgives h.linked hs (stays_of_other ha)⟩
      obtain ⟨s, hs⟩ := hw.exists_row ha
      exact hafter.length_eq_one hs

/-- **Run.**  In every sequence of orderly runs from empty tables, each forming atom of the tour
has exactly one row after its run, and no atom of another tour loses its row. -/
theorem orderly_oneEach (T : Text) (sha : String → String)
    (rejected : String → Finset String → Bool) (C : Catalog) (acts : List Act)
    (h : Along (World.step T sha rejected) (Orderly T sha rejected) (World.init C) acts) :
    Along (World.step T sha rejected) (OneEach T sha rejected) (World.init C) acts := by
  have hinv : Always (World.step T sha rejected) (fun w => OneRow w.store) (World.init C) acts :=
    Along.always (fun w act hw ho => hw.step ho) oneRow_empty h
  exact Along.imp_of_always (fun w act hw ho => hw.oneEach ho) hinv h

theorem orderly_of_single {tour : String}
    (h : (derivedSegments T sha w.catalog w.store tour rejected).toOption.map List.length = some 1) :
    Orderly T sha rejected w (.run tour) := by
  intro derived hd
  rw [hd] at h
  obtain ⟨s, rfl⟩ := length_eq_one_iff.1 (Option.some.inj h)
  have hid : ∀ i, i ∈ [s].map Segment.id → i = s.id := fun i hi => by simpa using hi
  constructor
  · intro p c hc hne hp
    exact absurd ((hid c hc.mem).trans (hid p hp).symm) hne
  · intro s' hs' a ha _ p hap
    obtain rfl := mem_singleton.1 hs'
    have hin : s'.id ∈ [s'].map Segment.id := by simp
    exact ⟨hin, held_pos.2 ⟨s', hs', rfl, a, ha, hap⟩, fun _ hp => (hid p hp).symm,
      fun _ c' hc' _ => by rw [hid c' hc']; exact Or.inr ⟨rfl, le_refl _⟩⟩

/-- Two tours that walk through the same citadel. -/
def hueCatalog : Catalog where
  atoms := ⟨[("x", { tourId := "s", place := some "Hue", action := some "walk" }),
    ("y", { tourId := "t", place := some "Hue Citadel", action := some "walk" })], by decide⟩
  tours := ⟨[("s", { country := some "Vietnam" }), ("t", { country := some "Vietnam" })], by decide⟩
  plain := by decide

set_option maxRecDepth 100000 in
/-- Both run, and the first once more. -/
theorem orderly_oneEach_hue :
    Along (World.step Text.ascii id fun _ _ => false) (OneEach Text.ascii id fun _ _ => false)
      (World.init hueCatalog) [.run "s", .run "t", .run "s"] :=
  orderly_oneEach Text.ascii id (fun _ _ => false) hueCatalog [.run "s", .run "t", .run "s"]
    ⟨orderly_of_single (by decide +kernel), orderly_of_single (by decide +kernel),
      orderly_of_single (by decide +kernel), trivial⟩

theorem OneEach.rows {tour : String} (h : OneEach T sha rejected w (.run tour)) :
    ((runSegmentMatching T sha rejected w.catalog w.store tour).toOption.all fun out =>
      (w.catalog.formingAtoms T tour).all fun a => (out.2.members.filter fun r => r.2 = a.atomId).length = 1) = true := by
  rw [Option.all_eq_true]
  intro out hout
  cases hrun : runSegmentMatching T sha rejected w.catalog w.store tour with
  | error e =>
    rw [hrun] at hout
    cases hout
  | ok out' =>
    rw [hrun] at hout
    obtain rfl := Option.some.inj hout
    rw [all_eq_true]
    intro a ha
    rw [decide_eq_true_eq]
    exact (h out'.1 out'.2 hrun).1 a ha

/-- SHA-256 of the mints of a Segment at Kyoto with an action of no word, by its first digits. -/
def kyotoDigest : String → String :=
  tableDigest [("kyoto||Japan", "3d9ce1161ce70697"), ("kyoto||Japan|||0", "b1d7947549c1a790")]

def kyotoCatalog : Catalog where
  atoms := ⟨[("x", { tourId := "t", day := some 1, place := some "Kyoto", action := some "拝観" })],
    by decide⟩
  tours := ⟨[("t", { country := some "Japan" })], by decide⟩
  plain := by decide

set_option maxRecDepth 100000 in
/-- An action without a word joins no atom to its own Segment, and the run that follows gives the
atom a second row. -/
theorem oneEach_fails_kyoto : ¬ ∀ (sha : String → String), Function.Injective sha →
      ∀ (rejected : String → Finset String → Bool) (C : Catalog) (tours : List String),
      Along (World.step Text.ascii sha rejected) (OneEach Text.ascii sha rejected) (World.init C) (tours.map Act.run) := by
  intro h
  have hsha : Function.Injective kyotoDigest :=
    tableDigest_injective (by decide) (by decide)
  have hrun := (h kyotoDigest hsha (fun _ _ => false) kyotoCatalog ["t", "t"]).2.1
  exact absurd hrun.rows (by decide +kernel)

end CisApp.Segments
