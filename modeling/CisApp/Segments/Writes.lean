import CisApp.Segments.Ids
import CisApp.Segments.Run

/-!
# What a run plans and writes

One lemma for each step of `run_segment_matching`: the atoms of the pool are
distinct and are partitioned by the derived Segments (`pool_partition`), the
guard replaces unclaimed ids of someone else by fresh ones (`Guarded`), and the
member table afterwards holds the new rows and the old ones, re-pointed
(`mem_write`).
-/

namespace CisApp.Segments

open Lib List

variable {T : Text} {sha : String → String} {rejected : String → Finset String → Bool}
  {C : Catalog} {S : Store} {tour : String}

/-! ## The pool -/

theorem isPseudo_pseudoId (s : String) : isPseudo (pseudoId s) = true := by
  unfold isPseudo pseudoId
  rw [String.toList_append, isPrefixOf_iff_prefix]
  exact prefix_append _ _

theorem storedId_pseudoId (s : String) : storedId (pseudoId s) = s := by
  unfold storedId pseudoId
  rw [String.toList_append, drop_left' String.length_toList, String.ofList_toList]

theorem pseudoId_injective : Function.Injective pseudoId := by
  intro s s' h
  rw [← storedId_pseudoId s, h, storedId_pseudoId]

theorem mem_newAtoms {a : SegmentAtom} (h : a ∈ C.newAtoms tour) :
    ∃ r, C.atoms.get? a.atomId = some r ∧ r.tourId = tour ∧ C.live r = true := by
  obtain ⟨e, he, hsome⟩ := List.mem_filterMap.1 h
  split at hsome
  · next hc =>
    rw [Bool.and_eq_true, decide_eq_true_eq] at hc
    obtain ⟨place, -, hsome⟩ := Option.bind_eq_some_iff.1 hsome
    obtain ⟨action, -, rfl⟩ := Option.map_eq_some_iff.1 hsome
    exact ⟨e.2, (Table.get?_eq_some_iff _ _ _).2 he, hc⟩
  · cases hsome

theorem newAtoms_tourId {a : SegmentAtom} (h : a ∈ C.newAtoms tour) : a.tourId = tour := by
  obtain ⟨e, -, hsome⟩ := List.mem_filterMap.1 h
  split at hsome
  · obtain ⟨place, -, hsome⟩ := Option.bind_eq_some_iff.1 hsome
    obtain ⟨action, -, rfl⟩ := Option.map_eq_some_iff.1 hsome
    rfl
  · cases hsome

theorem newAtoms_plain {a : SegmentAtom} (h : a ∈ C.newAtoms tour) : isPseudo a.atomId = false := by
  obtain ⟨r, hr, -⟩ := mem_newAtoms h
  exact C.plain _ r hr

theorem newAtoms_nodup : ((C.newAtoms tour).map SegmentAtom.atomId).Nodup := by
  have hsub : ((C.newAtoms tour).map SegmentAtom.atomId).Sublist (C.atoms.rows.map Prod.fst) := by
    unfold Catalog.newAtoms
    induction C.atoms.rows with
    | nil => exact List.Sublist.refl _
    | cons e l ih =>
      rw [filterMap_cons, map_cons]
      split
      · exact ih.cons _
      · next a ha =>
        have hid : a.atomId = e.1 := by
          split at ha
          · obtain ⟨place, -, ha⟩ := Option.bind_eq_some_iff.1 ha
            obtain ⟨action, -, rfl⟩ := Option.map_eq_some_iff.1 ha
            rfl
          · cases ha
        rw [map_cons, hid]
        exact ih.cons_cons _
  exact C.atoms.nodup.sublist hsub

theorem mem_pseudoAtoms {p : SegmentAtom} (h : p ∈ pseudoAtoms T C S tour) :
    ∃ s label, S.segments.get? s = some label ∧ S.hasMembers s = true ∧ p.atomId = pseudoId s := by
  have hp := mem_of_mem_filter h
  obtain ⟨e, he, rfl⟩ := List.mem_map.1 hp
  have hrow := List.mem_filter.1 (mem_of_mem_filter he)
  refine ⟨e.1, e.2, (Table.get?_eq_some_iff _ _ _).2 hrow.1, ?_, rfl⟩
  have := hrow.2
  simp only [Bool.and_eq_true] at this
  exact this.1

theorem pseudoAtoms_label {p : SegmentAtom} (h : p ∈ pseudoAtoms T C S tour) {s : String}
    (hs : p.atomId = pseudoId s) : S.segments.get? s = some (p.place, p.action) ∧ p.tourId = "" := by
  obtain ⟨e, he, rfl⟩ := List.mem_map.1 (mem_of_mem_filter h)
  obtain rfl := pseudoId_injective hs
  exact ⟨(Table.get?_eq_some_iff _ _ _).2 (mem_of_mem_filter (mem_of_mem_filter he)), rfl⟩

theorem pseudoAtoms_nodup : ((pseudoAtoms T C S tour).map SegmentAtom.atomId).Nodup := by
  refine List.Nodup.sublist (List.filter_sublist.map _) ?_
  rw [map_map]
  show (List.map (pseudoId ∘ Prod.fst) _).Nodup
  rw [← map_map]
  refine List.Nodup.map pseudoId_injective ?_
  exact S.segments.nodup.sublist ((List.filter_sublist.trans filter_sublist).map _)

theorem poolAtoms_nodup : ((poolAtoms T C S tour).map SegmentAtom.atomId).Nodup := by
  unfold poolAtoms
  rw [map_append, nodup_append]
  refine ⟨newAtoms_nodup.sublist (List.filter_sublist.map _), pseudoAtoms_nodup, fun i hi j hj hij => ?_⟩
  obtain ⟨a, ha, rfl⟩ := List.mem_map.1 hi
  obtain ⟨p, hp, rfl⟩ := List.mem_map.1 hj
  have hplain := newAtoms_plain (mem_of_mem_filter ha)
  obtain ⟨s, label, -, -, hps⟩ := mem_pseudoAtoms hp
  rw [hij, hps, isPseudo_pseudoId] at hplain
  cases hplain

variable {i : String}

theorem mem_pool_real (hi : i ∈ (poolAtoms T C S tour).map SegmentAtom.atomId) :
    isPseudo i = false ↔ i ∈ (C.formingAtoms T tour).map SegmentAtom.atomId := by
  constructor
  · intro hreal
    unfold poolAtoms at hi
    rw [map_append, mem_append] at hi
    rcases hi with hi | hi
    · exact hi
    · obtain ⟨p, hp, rfl⟩ := List.mem_map.1 hi
      obtain ⟨s, label, -, -, hps⟩ := mem_pseudoAtoms hp
      rw [hps, isPseudo_pseudoId] at hreal
      cases hreal
  · intro hf
    obtain ⟨a, ha, rfl⟩ := List.mem_map.1 hf
    exact newAtoms_plain (mem_of_mem_filter ha)

theorem pool_partition {derived : List Segment} (h : derivedSegments T sha C S tour rejected = .ok derived) :
    (derived.flatMap Segment.atomIds).Perm ((poolAtoms T C S tour).map SegmentAtom.atomId) ∧
      ∀ s ∈ derived, s.atomIds ≠ [] :=
  deriveSegments_partition poolAtoms_nodup h

variable {a : String}

theorem derived_eq_of_mem {derived : List Segment}
    (h : derivedSegments T sha C S tour rejected = .ok derived) {s s' : Segment} (hs : s ∈ derived)
    (hs' : s' ∈ derived) (ha : a ∈ s.atomIds) (ha' : a ∈ s'.atomIds) : s = s' := by
  have hnodup : (derived.flatMap Segment.atomIds).Nodup :=
    (pool_partition h).1.nodup_iff.2 poolAtoms_nodup
  by_contra hne
  have : Std.Symm fun s s' : Segment => s.atomIds.Disjoint s'.atomIds := ⟨fun _ _ h => h.symm⟩
  exact (List.nodup_flatMap.1 hnodup).2.forall hs hs' hne ha ha'

theorem exists_derived_of_forming {derived : List Segment}
    (h : derivedSegments T sha C S tour rejected = .ok derived) {a : SegmentAtom}
    (ha : a ∈ C.formingAtoms T tour) : ∃ s ∈ derived, a.atomId ∈ s.atomIds := by
  have hin : a.atomId ∈ derived.flatMap Segment.atomIds := by
    rw [(pool_partition h).1.mem_iff]
    exact mem_map_of_mem (mem_append_left _ ha)
  exact List.mem_flatMap.1 hin

variable {p : String}

theorem assigned_real (ha : isPseudo a = false) (h : assigned T C S tour a = some p) : S.segmentOf a = some p := by
  unfold assigned at h
  split at h
  · next hp =>
    obtain ⟨q, hq, heq⟩ := List.any_eq_true.1 hp
    rw [decide_eq_true_eq] at heq
    obtain ⟨s, label, -, -, hqs⟩ := mem_pseudoAtoms hq
    rw [← heq, hqs, isPseudo_pseudoId] at ha
    cases ha
  · split at h
    · exact h
    · cases h

theorem mem_of_segmentOf (h : S.segmentOf a = some p) : (p, a) ∈ S.members := by
  have hin := mem_of_getLast? h
  obtain ⟨r, hr, rfl⟩ := List.mem_map.1 hin
  rw [mem_filter, decide_eq_true_eq] at hr
  rw [← hr.2]
  exact hr.1

theorem hasMembers_of_assigned (h : assigned T C S tour a = some p) : S.hasMembers p = true := by
  unfold assigned at h
  split at h
  · next hp =>
    obtain ⟨q, hq, heq⟩ := List.any_eq_true.1 hp
    rw [decide_eq_true_eq] at heq
    obtain ⟨s, label, -, hs, hqs⟩ := mem_pseudoAtoms hq
    rw [← heq, hqs, storedId_pseudoId] at h
    rw [← Option.some.inj h]
    exact hs
  · split at h
    · exact List.any_eq_true.2 ⟨(p, a), mem_of_segmentOf h, by simp⟩
    · cases h

/-! ## The guard -/

/-- What `avoid_foreign_ids` returns: unclaimed ids of someone else replaced by ids that nobody
has, the others kept. -/
structure Guarded (T : Text) (C : Catalog) (S : Store) (own : String) (claimed : List String)
    (kept : List Segment) (aliases : Table String String) (P : Plan) : Prop where
  segments : P.segments = kept.map fun s => { s with id := newId P.remints s.id }
  targets : ∀ p, P.aliases.get? p = (aliases.get? p).map (newId P.remints)
  fresh : ∀ e ∈ P.remints, e.1 ∈ writtenUnclaimedIds kept aliases claimed ∧
    S.segments.get? e.2 = none ∧ e.2 ∉ kept.map Segment.id ∧ S.aliases.get? e.2 = none
  elsewhere : ∀ i ∈ writtenUnclaimedIds kept aliases claimed, belongsElsewhere T C S own i = true →
    i ∈ P.remints.map Prod.fst
  distinct : (P.remints.map Prod.snd).Nodup
  reported : ∀ i ∈ writtenUnclaimedIds kept aliases claimed, belongsElsewhere T C S own i = false →
    S.hasMembers i = true → i ∈ P.unclaimedExisting

/-- What the guard has done with the ids so far. -/
structure GuardInv (T : Text) (C : Catalog) (S : Store) (own : String) (inRun done : List String)
    (st : List (String × String) × List String) : Prop where
  fresh : ∀ e ∈ st.1, e.1 ∈ done ∧ S.segments.get? e.2 = none ∧ e.2 ∉ inRun ∧
    S.aliases.get? e.2 = none
  elsewhere : ∀ i ∈ done, belongsElsewhere T C S own i = true → i ∈ st.1.map Prod.fst
  distinct : (st.1.map Prod.snd).Nodup
  reported : ∀ i ∈ done, belongsElsewhere T C S own i = false → S.hasMembers i = true → i ∈ st.2

theorem freeRemint_spec {free : String → Bool} {segmentId country candidate : String} {fuel n : Nat}
    (h : freeRemint sha free segmentId country fuel n = some candidate) : free candidate = true := by
  induction fuel generalizing n with
  | zero => cases h
  | succ fuel ih =>
    unfold freeRemint at h
    split at h
    · next hf =>
      obtain rfl := Option.some.inj h
      exact hf
    · exact ih h

theorem GuardInv.step {own : String} {inRun done : List String}
    {st st' : List (String × String) × List String} (h : GuardInv T C S own inRun done st)
    (hstep : guardStep T sha C S own inRun st i = .ok st') : GuardInv T C S own inRun (done ++ [i]) st' := by
  have hsnoc : ∀ j ∈ done ++ [i], j ∈ done ∨ j = i := fun j hj =>
    (List.mem_append.1 hj).imp_right List.mem_singleton.1
  unfold guardStep at hstep
  split at hstep
  · next helse =>
    dsimp only at hstep
    split at hstep
    · next candidate hcand =>
      obtain rfl := Except.ok.inj hstep
      have hfree := freeRemint_spec hcand
      simp only [Bool.and_eq_true, decide_eq_true_eq, Option.isNone_iff_eq_none] at hfree
      obtain ⟨⟨⟨hseg, hrun⟩, halias⟩, hused⟩ := hfree
      refine ⟨fun e he => ?_, fun j hj hje => ?_, ?_, fun j hj hje hm => ?_⟩
      · rcases List.mem_append.1 he with he | he
        · exact ⟨mem_append_left _ (h.fresh e he).1, (h.fresh e he).2⟩
        · rw [List.mem_singleton.1 he]
          exact ⟨by simp, hseg, hrun, halias⟩
      · rw [map_append, mem_append]
        rcases hsnoc j hj with hj | rfl
        · exact Or.inl (h.elsewhere j hj hje)
        · exact Or.inr (by simp)
      · rw [map_append, nodup_append]
        refine ⟨h.distinct, by simp, fun x hx y hy hxy => ?_⟩
        rw [map_singleton, mem_singleton] at hy
        rw [hxy, hy] at hx
        exact hused hx
      · rcases hsnoc j hj with hj | rfl
        · exact h.reported j hj hje hm
        · rw [helse] at hje
          cases hje
    · cases hstep
  · next helse =>
    have hfalse : belongsElsewhere T C S own i = false := by simpa using helse
    have hold : ∀ j ∈ done ++ [i], belongsElsewhere T C S own j = true → j ∈ st.1.map Prod.fst := by
      intro j hj hje
      rcases hsnoc j hj with hj | rfl
      · exact h.elsewhere j hj hje
      · rw [hfalse] at hje
        cases hje
    split at hstep
    · next hmem =>
      obtain rfl := Except.ok.inj hstep
      refine ⟨fun e he => ⟨mem_append_left _ (h.fresh e he).1, (h.fresh e he).2⟩, hold,
        h.distinct, fun j hj hje hm => ?_⟩
      rcases hsnoc j hj with hj | rfl
      · exact mem_append_left _ (h.reported j hj hje hm)
      · exact mem_append_right _ (List.mem_singleton.2 rfl)
    · next hmem =>
      obtain rfl := Except.ok.inj hstep
      refine ⟨fun e he => ⟨mem_append_left _ (h.fresh e he).1, (h.fresh e he).2⟩, hold,
        h.distinct, fun j hj hje hm => ?_⟩
      rcases hsnoc j hj with hj | rfl
      · exact h.reported j hj hje hm
      · exact absurd hm hmem

theorem bind_ok {ε α β : Type} {x : Except ε α} {f : α → Except ε β} {b : β}
    (h : (x >>= f) = .ok b) : ∃ a, x = .ok a ∧ f a = .ok b := by
  cases x with
  | error e => cases h
  | ok a => exact ⟨a, rfl, h⟩

theorem avoidForeignIds_ok {own : String} {claimed : List String} {kept : List Segment}
    {aliases : Table String String} {P : Plan} (h : avoidForeignIds T sha C S own claimed kept aliases = .ok P) :
    Guarded T C S own claimed kept aliases P := by
  have hfold : ∀ (l done : List String) (st st' : List (String × String) × List String),
      GuardInv T C S own (kept.map Segment.id) done st →
      l.foldlM (guardStep T sha C S own (kept.map Segment.id)) st = .ok st' →
      GuardInv T C S own (kept.map Segment.id) (done ++ l) st' := by
    intro l
    induction l with
    | nil =>
      intro done st st' hi hl
      obtain rfl := Except.ok.inj hl
      rw [append_nil]
      exact hi
    | cons i l ih =>
      intro done st st' hi hl
      obtain ⟨st₁, h1, h2⟩ := bind_ok hl
      have := ih (done ++ [i]) st₁ st' (hi.step h1) h2
      rw [append_assoc] at this
      exact this
  obtain ⟨⟨remints, unclaimed⟩, h1, h2⟩ := bind_ok h
  obtain rfl := Except.ok.inj h2
  have hinit : GuardInv T C S own (kept.map Segment.id) [] ([], []) :=
    ⟨fun e he => absurd he not_mem_nil, fun i hi => absurd hi not_mem_nil, nodup_nil,
      fun i hi => absurd hi not_mem_nil⟩
  have hinv := hfold _ [] _ _ hinit h1
  refine ⟨rfl, fun p => ?_, hinv.fresh, hinv.elsewhere, hinv.distinct, hinv.reported⟩
  rw [Table.get?_update]
  rfl

theorem planRun_ok {P : Plan} (h : planRun T sha rejected C S tour = .ok P) :
    ∃ derived, derivedSegments T sha C S tour rejected = .ok derived ∧ (derived.map Segment.id).Nodup ∧
      Guarded T C S (T.countryNorm (tourCountry C tour)) (claimed T C S tour)
        (keptSegments derived (assigned T C S tour)) (flatten (settled derived (assigned T C S tour))) P := by
  obtain ⟨derived, hd, h⟩ := bind_ok h
  obtain ⟨⟨kept, aliases⟩, hr, h⟩ := bind_ok h
  obtain ⟨hnodup, hkept, hal⟩ := reconcileIds_ok hr
  subst hkept hal
  exact ⟨derived, hd, hnodup, avoidForeignIds_ok h⟩

/-! ## Rows of members -/

variable {m : List (String × String)} {r : String × String}

theorem mem_insertRow {r' : String × String} : r' ∈ insertRow m r ↔ r' ∈ m ∨ r' = r := by
  unfold insertRow
  split
  · next h =>
    constructor
    · exact Or.inl
    · rintro (h' | rfl)
      · exact h'
      · exact h
  · rw [mem_append, mem_singleton]

variable {rows : List (String × String)}

theorem mem_insertRows : r ∈ rows.foldl insertRow m ↔ r ∈ m ∨ r ∈ rows := by
  induction rows generalizing m with
  | nil => simp
  | cons x rows ih => rw [foldl_cons, ih, mem_insertRow, mem_cons, or_assoc]

theorem insertRows_nodup (h : m.Nodup) : (rows.foldl insertRow m).Nodup := by
  induction rows generalizing m with
  | nil => exact h
  | cons x rows ih =>
    refine ih ?_
    unfold insertRow
    split
    · exact h
    · next hx =>
      rw [nodup_append]
      refine ⟨h, by simp, fun a ha b hb hab => hx ?_⟩
      rw [← List.mem_singleton.1 hb, ← hab]
      exact ha

theorem insertRows_of_subset (h : ∀ r ∈ rows, r ∈ m) : rows.foldl insertRow m = m := by
  induction rows with
  | nil => rfl
  | cons x rows ih =>
    rw [foldl_cons]
    have hx : insertRow m x = m := if_pos (h x mem_cons_self)
    rw [hx]
    exact ih fun r hr => h r (mem_cons_of_mem _ hr)

theorem mem_repointInsert {e : String × String} : r ∈ repointInsert m e ↔ r ∈ m ∨ r.1 = e.2 ∧ (e.1, r.2) ∈ m := by
  unfold repointInsert
  rw [mem_insertRows]
  refine or_congr_right ?_
  simp only [mem_map, mem_filter, decide_eq_true_eq]
  constructor
  · rintro ⟨x, ⟨hx, he⟩, rfl⟩
    exact ⟨rfl, by rw [← he]; exact hx⟩
  · rintro ⟨h1, h2⟩
    exact ⟨_, ⟨h2, rfl⟩, by rw [← h1]⟩

theorem mem_repointMembers (hchain : ∀ e ∈ rows, e.2 ∉ rows.map Prod.fst) : r ∈ repointMembers m rows ↔
      r.1 ∉ rows.map Prod.fst ∧ (r ∈ m ∨ ∃ e ∈ rows, r.1 = e.2 ∧ (e.1, r.2) ∈ m) := by
  have hfold : ∀ (l : List (String × String)) (m : List (String × String)),
      (∀ e ∈ l, e.2 ∉ l.map Prod.fst) → ∀ r, r ∈ l.foldl repointInsert m ↔
        r ∈ m ∨ ∃ e ∈ l, r.1 = e.2 ∧ (e.1, r.2) ∈ m := by
    intro l
    induction l with
    | nil => simp
    | cons e l ih =>
      intro m hl r
      have htail : ∀ e' ∈ l, e'.2 ∉ l.map Prod.fst := fun e' he' hin =>
        hl e' (mem_cons_of_mem _ he') (mem_cons_of_mem _ hin)
      rw [foldl_cons, ih _ htail, mem_repointInsert]
      -- no insert adds a row under an old id
      have hsame : ∀ e' ∈ l, ∀ a, ((e'.1, a) ∈ repointInsert m e ↔ (e'.1, a) ∈ m) := by
        intro e' he' a
        rw [mem_repointInsert]
        constructor
        · rintro (h | ⟨h, -⟩)
          · exact h
          · refine absurd ?_ (hl e mem_cons_self)
            dsimp only at h
            rw [← h]
            exact mem_cons_of_mem _ (mem_map_of_mem he')
        · exact Or.inl
      constructor
      · rintro ((h | h) | ⟨e', he', h1, h2⟩)
        · exact Or.inl h
        · exact Or.inr ⟨e, mem_cons_self, h⟩
        · exact Or.inr ⟨e', mem_cons_of_mem _ he', h1, (hsame e' he' _).1 h2⟩
      · rintro (h | ⟨e', he', h1, h2⟩)
        · exact Or.inl (Or.inl h)
        · rcases List.mem_cons.1 he' with rfl | he'
          · exact Or.inl (Or.inr ⟨h1, h2⟩)
          · exact Or.inr ⟨e', he', h1, (hsame e' he' _).2 h2⟩
  unfold repointMembers
  rw [mem_filter, hfold rows m hchain, decide_eq_true_eq, and_comm]

theorem repointMembers_nodup (h : m.Nodup) : (repointMembers m rows).Nodup := by
  have hfold : ∀ (l m : List (String × String)), m.Nodup → (l.foldl repointInsert m).Nodup := by
    intro l
    induction l with
    | nil => exact fun m hm => hm
    | cons e l ih => exact fun m hm => ih _ (insertRows_nodup hm)
  exact (hfold rows m h).sublist filter_sublist

theorem repointMembers_nil (m : List (String × String)) : repointMembers m [] = m := by
  unfold repointMembers
  simp

/-! ## Final ids -/

def finalId (derived : List Segment) (assigned : String → Option String) (P : Plan) (d : String) :
    String :=
  newId P.remints ((granted derived assigned).ids d)

def Store.Linked (S : Store) : Prop := ∀ r ∈ S.members, (S.segments.get? r.1).isSome

theorem Store.Linked.of_hasMembers (hS : S.Linked) (h : S.hasMembers i = true) : (S.segments.get? i).isSome := by
  obtain ⟨r, hr, hri⟩ := List.any_eq_true.1 h
  rw [decide_eq_true_eq] at hri
  rw [← hri]
  exact hS r hr

theorem newId_mem_of_key {remints : List (String × String)}
    (h : i ∈ remints.map Prod.fst) : (i, newId remints i) ∈ remints := by
  unfold newId
  cases hl : remints.lookup i with
  | none =>
    obtain ⟨e, he, rfl⟩ := List.mem_map.1 h
    have := List.lookup_eq_none_iff.1 hl e he
    simp at this
  | some x =>
    obtain ⟨l₁, l₂, hl', -⟩ := List.lookup_eq_some_iff.1 hl
    rw [hl']
    simp

theorem newId_cases (remints : List (String × String)) (i : String) :
    newId remints i = i ∨ (i, newId remints i) ∈ remints := by
  by_cases h : i ∈ remints.map Prod.fst
  · exact Or.inr (newId_mem_of_key h)
  · left
    unfold newId
    rw [List.lookup_eq_none_iff.2 fun e he => by
      rw [bne_iff_ne]
      rintro rfl
      exact h (mem_map_of_mem he)]
    rfl

theorem mem_unclaimed {kept : List Segment} {aliases : Table String String} {claims : List String}
    (h : i ∈ writtenUnclaimedIds kept aliases claims) : i ∉ claims := by
  unfold writtenUnclaimedIds at h
  rw [mem_sortBy, mem_dedup, mem_filter, decide_eq_true_eq] at h
  exact h.2

section planned

variable {derived : List Segment} {P : Plan} {own : String} {claims : List String}
  (hg : Guarded T C S own claims (keptSegments derived (assigned T C S tour))
    (flatten (settled derived (assigned T C S tour))) P)

theorem mem_writtenUnclaimed {s : Segment} (hs : s ∈ derived)
    (hwritten : hasReal s = true ∨ ∃ p, (flatten (settled derived (assigned T C S tour))).get? p =
      some ((granted derived (assigned T C S tour)).ids s.id))
    (hcl : (granted derived (assigned T C S tour)).ids s.id ∉ claims) :
    (granted derived (assigned T C S tour)).ids s.id ∈
      writtenUnclaimedIds (keptSegments derived (assigned T C S tour))
        (flatten (settled derived (assigned T C S tour))) claims := by
  unfold writtenUnclaimedIds
  rw [mem_sortBy, mem_dedup, mem_filter, decide_eq_true_eq, mem_append]
  refine ⟨?_, hcl⟩
  rcases hwritten with hreal | ⟨p, hp⟩
  · exact Or.inl (List.mem_map.2 ⟨{ s with id := (granted derived (assigned T C S tour)).ids s.id },
      List.mem_filter.2 ⟨List.mem_map.2 ⟨s, hs, rfl⟩, hreal⟩, rfl⟩)
  · exact Or.inr (List.mem_map.2 ⟨(p, _), (Table.get?_eq_some_iff _ _ _).1 hp, rfl⟩)

include hg

theorem mem_segments {s' : Segment} : s' ∈ P.segments ↔
    ∃ s ∈ derived, s' = { s with id := finalId derived (assigned T C S tour) P s.id } := by
  rw [hg.segments]
  unfold keptSegments
  rw [map_map, mem_map]
  constructor
  · rintro ⟨s, hs, rfl⟩
    exact ⟨s, hs, rfl⟩
  · rintro ⟨s, hs, rfl⟩
    exact ⟨s, hs, rfl⟩

theorem mem_memberRows {r : String × String} : r ∈ P.memberRows ↔
    ∃ s ∈ derived, r.2 ∈ s.atomIds ∧ isPseudo r.2 = false ∧ r.1 = finalId derived (assigned T C S tour) P s.id := by
  unfold Plan.memberRows Plan.toWrite
  simp only [mem_flatMap, mem_filter, mem_map]
  constructor
  · rintro ⟨s', ⟨⟨s, hs, rfl⟩, -⟩, a, ha, rfl⟩
    obtain ⟨d, hd, rfl⟩ := (mem_segments hg).1 hs
    rw [mem_filter, Bool.not_eq_true'] at ha
    exact ⟨d, hd, ha.1, ha.2, rfl⟩
  · rintro ⟨d, hd, ha, hreal, hid⟩
    have hin : r.2 ∈ d.atomIds.filter fun a => !isPseudo a :=
      List.mem_filter.2 ⟨ha, by rw [hreal]; rfl⟩
    refine ⟨_, ⟨⟨_, (mem_segments hg).2 ⟨d, hd, rfl⟩, rfl⟩, ?_⟩, r.2, hin, by rw [← hid]⟩
    simpa using ne_nil_of_mem hin

theorem mem_aliasRows (hgives : GivesUp derived (assigned T C S tour)) {e : String × String} :
    e ∈ P.aliasRows ↔ ∃ c, Claimant derived (assigned T C S tour) e.1 c ∧
      (granted derived (assigned T C S tour)).ids c ≠ e.1 ∧ e.2 = finalId derived (assigned T C S tour) P c := by
  have hget : ∀ p t, P.aliases.get? p = some t ↔ ∃ c, Claimant derived (assigned T C S tour) p c ∧
      (granted derived (assigned T C S tour)).ids c ≠ p ∧
      t = finalId derived (assigned T C S tour) P c := by
    intro p t
    rw [hg.targets, flatten_eq hgives, Option.map_eq_some_iff]
    constructor
    · rintro ⟨u, hu, rfl⟩
      obtain ⟨c, hc, rfl, hne⟩ := (get?_settled p u).1 hu
      exact ⟨c, hc, hne.symm, rfl⟩
    · rintro ⟨c, hc, hne, rfl⟩
      exact ⟨_, (get?_settled p _).2 ⟨c, hc, rfl, hne.symm⟩, rfl⟩
  unfold Plan.aliasRows
  rw [mem_filter, decide_eq_true_eq, ← Table.get?_eq_some_iff, hget]
  constructor
  · exact And.left
  · intro h
    refine ⟨h, ?_⟩
    obtain ⟨c, hc, -, hid⟩ := h
    obtain ⟨s, hs, hsc⟩ := List.mem_map.1 hc.mem
    rw [hid, ← hsc]
    exact List.mem_map.2 ⟨_, (mem_segments hg).2 ⟨s, hs, rfl⟩, rfl⟩

theorem newId_of_claimed {i : String} (h : i ∈ claims) : newId P.remints i = i := by
  rcases newId_cases P.remints i with heq | hin
  · exact heq
  · exact absurd h (mem_unclaimed (hg.fresh _ hin).1)

theorem finalId_not_old (hgives : GivesUp derived (assigned T C S tour)) (hS : S.Linked) {d : String}
    (hd : d ∈ derived.map Segment.id) : finalId derived (assigned T C S tour) P d ∉ P.aliasRows.map Prod.fst := by
  intro hin
  obtain ⟨e, he, heq⟩ := List.mem_map.1 hin
  obtain ⟨c, hc, hne, -⟩ := (mem_aliasRows hg hgives).1 he
  rw [heq] at hc hne
  rcases newId_cases P.remints ((granted derived (assigned T C S tour)).ids d) with hsame | hnew
  · -- an id that is live is no alias
    refine givesUp_iff.1 hgives _ c hc ⟨mem_keptSegments_ids.2 ⟨d, hd, ?_⟩, (flatten_isSome hc).2 hne⟩
    exact hsame.symm
  · -- a fresh id has no members
    have hnone := (hg.fresh _ hnew).2.1
    obtain ⟨s, hs, -, a, ha, hap⟩ := held_pos.1 hc.holds
    have hsome := hS.of_hasMembers (hasMembers_of_assigned hap)
    rw [show finalId derived (assigned T C S tour) P d =
      newId P.remints ((granted derived (assigned T C S tour)).ids d) from rfl, hnone] at hsome
    cases hsome

theorem aliasRows_no_chain (hgives : GivesUp derived (assigned T C S tour)) (hS : S.Linked) :
    ∀ e ∈ P.aliasRows, e.2 ∉ P.aliasRows.map Prod.fst := by
  intro e he
  obtain ⟨c, hc, -, heq⟩ := (mem_aliasRows hg hgives).1 he
  rw [heq]
  exact finalId_not_old hg hgives hS hc.mem

end planned

theorem mem_claimed {derived : List Segment}
    (hd : derivedSegments T sha C S tour rejected = .ok derived) {s : Segment} (hs : s ∈ derived)
    (ha : a ∈ s.atomIds) (h : assigned T C S tour a = some p) : p ∈ claimed T C S tour := by
  have hpool : a ∈ (poolAtoms T C S tour).map SegmentAtom.atomId := by
    rw [← (pool_partition hd).1.mem_iff]
    exact List.mem_flatMap.2 ⟨s, hs, ha⟩
  unfold claimed
  rw [mem_append]
  obtain ⟨x, hx, rfl⟩ := List.mem_map.1 hpool
  rcases List.mem_append.1 hx with hx | hx
  · exact Or.inl (List.mem_filterMap.2 ⟨x, mem_of_mem_filter hx, h⟩)
  · refine Or.inr (List.mem_map.2 ⟨x, hx, ?_⟩)
    unfold assigned at h
    rw [if_pos (List.any_eq_true.2 ⟨x, hx, by simp⟩)] at h
    exact Option.some.inj h

/-! ## The transaction -/

/-- The rows that stay: not of an excluded atom, nor of a dead one of the tour. -/
def stays (T : Text) (C : Catalog) (tour a : String) : Bool :=
  a ∉ C.excludedAtoms T tour && !C.deadAtom tour a

/-- What a write that succeeds leaves. -/
structure Written (T : Text) (C : Catalog) (S : Store) (tour : String) (P : Plan) (S' : Store) :
    Prop where
  members : S'.members =
    P.memberRows.foldl insertRow ((repointMembers S.members P.aliasRows).filter fun r =>
      stays T C tour r.2)
  segments : S'.segments = (sortBy Prod.fst P.segmentRows).foldl
    (upsertLabel fun i => i ∈ claimed T C S tour || !S.hasMembers i) S.segments
  aliases : S'.aliases = writeAliases S.aliases P.aliasRows
  covered : ∀ a ∈ C.formingAtoms T tour, (P.toWrite.flatMap Segment.atomIds).count a.atomId = 1

variable {S' : Store}

theorem write_ok {P : Plan} (h : S.write T C tour P = .ok S') : Written T C S tour P S' := by
  unfold Store.write at h
  dsimp only at h
  split at h
  · cases h
  · next hcover =>
    simp only [uncovered, Bool.or_eq_true, Bool.not_eq_eq_eq_not, Bool.not_true,
      isEmpty_eq_false_iff, not_or, ne_eq, not_not] at hcover
    split at h
    · cases h
    · obtain rfl := Except.ok.inj h
      refine ⟨rfl, rfl, rfl, fun a ha => ?_⟩
      have hin : a.atomId ∈ wordSet ((C.formingAtoms T tour).map SegmentAtom.atomId) := by
        unfold wordSet
        rw [mem_sortBy, mem_dedup]
        exact mem_map_of_mem ha
      have h0 := List.filter_eq_nil_iff.1 hcover.1 _ hin
      have h1 := List.filter_eq_nil_iff.1 hcover.2 _ hin
      rw [decide_eq_true_eq] at h0 h1
      omega

theorem run_ok {P : Plan}
    (h : runSegmentMatching T sha rejected C S tour = .ok (P, S')) :
    (C.newAtoms tour = [] ∧ P.memberRows = [] ∧ P.aliasRows = [] ∧
        S' = { S with members := S.members.filter fun r => !C.deadAtom tour r.2 }) ∨
      planRun T sha rejected C S tour = .ok P ∧ Written T C S tour P S' := by
  unfold runSegmentMatching at h
  split at h
  · next hnil =>
    obtain ⟨hP, hS⟩ := Prod.mk.inj (Except.ok.inj h)
    subst hP
    exact Or.inl ⟨by simpa using hnil, rfl, rfl, hS.symm⟩
  · obtain ⟨P', hP, h⟩ := bind_ok h
    obtain ⟨S'', hS, h⟩ := bind_ok h
    obtain ⟨rfl, rfl⟩ := Prod.mk.inj (Except.ok.inj h)
    exact Or.inr ⟨hP, write_ok hS⟩

theorem step_run_ok {w : World} {P : Plan}
    (h : runSegmentMatching T sha rejected w.catalog w.store tour = .ok (P, S')) :
    w.step T sha rejected (.run tour) = { w with store := S' } := by
  unfold World.step
  dsimp only
  rw [h]

variable (T sha rejected) in
theorem step_run_cases (w : World) (tour : String) :
    (∃ P S', runSegmentMatching T sha rejected w.catalog w.store tour = .ok (P, S') ∧
        w.step T sha rejected (.run tour) = { w with store := S' }) ∨
      (∃ e, runSegmentMatching T sha rejected w.catalog w.store tour = .error e) ∧
        w.step T sha rejected (.run tour) = w := by
  cases h : runSegmentMatching T sha rejected w.catalog w.store tour with
  | ok out => exact Or.inl ⟨out.1, out.2, rfl, step_run_ok h⟩
  | error e =>
    refine Or.inr ⟨⟨e, rfl⟩, ?_⟩
    unfold World.step
    dsimp only
    rw [h]

theorem Written.mem_members {P : Plan} (h : Written T C S tour P S')
    (hchain : ∀ e ∈ P.aliasRows, e.2 ∉ P.aliasRows.map Prod.fst) :
    r ∈ S'.members ↔ r ∈ P.memberRows ∨ stays T C tour r.2 = true ∧ r.1 ∉ P.aliasRows.map Prod.fst ∧
        (r ∈ S.members ∨ ∃ e ∈ P.aliasRows, r.1 = e.2 ∧ (e.1, r.2) ∈ S.members) := by
  rw [h.members, mem_insertRows, mem_filter, mem_repointMembers hchain, or_comm]
  refine or_congr_right ?_
  rw [and_comm]

theorem Written.nodup {P : Plan} (h : Written T C S tour P S') (hS : S.members.Nodup) : S'.members.Nodup := by
  rw [h.members]
  exact insertRows_nodup ((repointMembers_nodup hS).sublist filter_sublist)

/-! ## The foreign key -/

theorem mem_segmentRows_ids {P : Plan} (h : i ∈ P.toWrite.map Segment.id ∨ i ∈ P.aliasRows.map Prod.snd) :
    i ∈ P.segmentRows.map Prod.fst := by
  unfold Plan.segmentRows
  rw [map_map]
  show i ∈ List.map Segment.id _
  rw [map_append, mem_append]
  by_cases hw : i ∈ P.toWrite.map Segment.id
  · exact Or.inl hw
  · right
    have ha := h.resolve_left hw
    obtain ⟨e, he, rfl⟩ := List.mem_map.1 ha
    have hlive : e.2 ∈ P.segments.map Segment.id := by
      have := (List.mem_filter.1 he).2
      rwa [decide_eq_true_eq] at this
    obtain ⟨s, hs, hse⟩ := List.mem_map.1 hlive
    refine List.mem_map.2 ⟨s, List.mem_filter.2 ⟨hs, ?_⟩, hse⟩
    rw [Bool.and_eq_true, decide_eq_true_eq, decide_eq_true_eq, hse]
    exact ⟨ha, hw⟩

theorem upsertLabels_isSome {may : String → Bool} {rows : List (String × String × String)}
    {t : Table String (String × String)} (h : i ∈ rows.map Prod.fst ∨ (t.get? i).isSome) :
    ((rows.foldl (upsertLabel may) t).get? i).isSome := by
  induction rows generalizing t with
  | nil => exact h.resolve_left (by simp)
  | cons e rows ih =>
    refine ih ?_
    unfold upsertLabel
    rcases h with h | h
    · rw [map_cons, mem_cons] at h
      rcases h with rfl | h
      · right
        split
        · simp
        · next hno =>
          cases hg : t.get? e.1 with
          | none => simp [hg] at hno
          | some _ => rfl
      · exact Or.inl h
    · right
      split
      · rw [Table.get?_upsert]
        split
        · rfl
        · exact h
      · exact h

theorem repointMembers_fst (h : r ∈ repointMembers m rows) : (∃ a, (r.1, a) ∈ m) ∨ r.1 ∈ rows.map Prod.snd := by
  have hfold : ∀ (l m : List (String × String)) (r : String × String),
      r ∈ l.foldl repointInsert m → (∃ a, (r.1, a) ∈ m) ∨ r.1 ∈ l.map Prod.snd := by
    intro l
    induction l with
    | nil => exact fun m r hr => Or.inl ⟨r.2, hr⟩
    | cons e l ih =>
      intro m r hr
      rcases ih _ r hr with ⟨a, ha⟩ | hin
      · rcases mem_repointInsert.1 ha with ha | ⟨ha, -⟩
        · exact Or.inl ⟨a, ha⟩
        · right
          rw [map_cons, ← show r.1 = e.2 from ha]
          exact mem_cons_self
      · exact Or.inr (mem_cons_of_mem _ hin)
  exact hfold rows m r (mem_of_mem_filter h)

theorem Written.linked {P : Plan} (h : Written T C S tour P S') (hS : S.Linked) : S'.Linked := by
  intro r hr
  rw [h.members, mem_insertRows, mem_filter] at hr
  rw [h.segments]
  refine upsertLabels_isSome ?_
  have hrows : ∀ i, i ∈ P.toWrite.map Segment.id ∨ i ∈ P.aliasRows.map Prod.snd →
      i ∈ (sortBy Prod.fst P.segmentRows).map Prod.fst := fun i hi =>
    ((sortBy_perm _ _).map _).mem_iff.2 (mem_segmentRows_ids hi)
  rcases hr with ⟨hr, -⟩ | hr
  · rcases repointMembers_fst hr with ⟨a, ha⟩ | ht
    · exact Or.inr (hS (r.1, a) ha)
    · exact Or.inl (hrows _ (Or.inr ht))
  · refine Or.inl (hrows _ (Or.inl ?_))
    obtain ⟨s, hs, hr⟩ := List.mem_flatMap.1 hr
    obtain ⟨a, -, rfl⟩ := List.mem_map.1 hr
    exact mem_map_of_mem hs

theorem run_linked {P : Plan}
    (h : runSegmentMatching T sha rejected C S tour = .ok (P, S')) (hS : S.Linked) : S'.Linked := by
  rcases run_ok h with ⟨-, -, -, rfl⟩ | ⟨-, hw⟩
  · exact fun r hr => hS r (mem_of_mem_filter hr)
  · exact hw.linked hS

end CisApp.Segments
