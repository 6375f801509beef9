import CisApp.Segments.Ids

/-!
# Same atoms in, same Segments out

`derive_segments` sorts the atoms by id before it joins them, so the components
do not depend on the order of the list.  The label of a component does: `min`
keeps the first of the atoms that tie, and its country is part of the minted id.
`deriveSegments_sameOut_iff` says that this is the only way the order shows.
-/

namespace CisApp.Segments

open Lib List

variable {T : Text} {sha : String → String} {apart : Finset (Finset String)}
  {involving : Option (Finset String)} {atoms : List SegmentAtom}

/-! ## Labels -/

/-- An atom that may label its component: it has the canonical key, and no member of that key
comes before it. -/
structure Labels (T : Text) (members : List SegmentAtom) (a : SegmentAtom) : Prop where
  mem : a ∈ members
  key : canonicalKey (members.map (SegmentAtom.key T)) = some (a.key T)
  first : ∀ b ∈ members, b.key T = a.key T → labelKey a ≤ labelKey b

/-- The atoms that may label one component are of one country. -/
def TieFree (T : Text) (apart : Finset (Finset String)) (involving : Option (Finset String))
    (atoms : List SegmentAtom) : Prop :=
  ∀ members ∈ connected T apart involving atoms, ∀ a b, Labels T members a → Labels T members b →
    a.country = b.country

variable {members : List SegmentAtom} {a : SegmentAtom}

theorem mem_of_atomId (hid : (atoms.map SegmentAtom.atomId).Nodup)
    (hsub : ∀ a ∈ members, a ∈ atoms) (ha : a ∈ atoms) : a.atomId ∈ members.map SegmentAtom.atomId ↔ a ∈ members := by
  constructor
  · intro h
    obtain ⟨b, hb, hab⟩ := mem_map.1 h
    rw [← inj_on_of_nodup_map hid (hsub b hb) ha hab]
    exact hb
  · exact mem_map_of_mem

variable (T sha) in
theorem mintComponent_label (hid : (atoms.map SegmentAtom.atomId).Nodup)
    (hne : members ≠ []) (hsub : ∀ a ∈ members, a ∈ atoms) : ∃ label, Labels T members label ∧
      (sortBy labelKey (atoms.filter fun a =>
        a.atomId ∈ members.map SegmentAtom.atomId && a.key T = label.key T)).head? = some label ∧
      mintComponent T sha atoms members = some ⟨⟨mint sha (label.key T) label.country, label.place, label.action,
          members.map SegmentAtom.atomId⟩, label.key T, label.country⟩ := by
  obtain ⟨canonical, label, hc, hl, hm⟩ := mintComponent_spec T sha hne hsub
  obtain ⟨hmem, hmin⟩ := head?_sortBy hl
  have hnamed : ∀ b, b ∈ atoms.filter (fun a =>
      a.atomId ∈ members.map SegmentAtom.atomId && a.key T = canonical) ↔
      b ∈ members ∧ b.key T = canonical := by
    intro b
    rw [mem_filter, Bool.and_eq_true, decide_eq_true_eq, decide_eq_true_eq]
    constructor
    · rintro ⟨hb, hbm, hk⟩
      exact ⟨(mem_of_atomId hid hsub hb).1 hbm, hk⟩
    · rintro ⟨hb, hk⟩
      exact ⟨hsub b hb, mem_map_of_mem hb, hk⟩
  obtain ⟨hlm, hlk⟩ := (hnamed label).1 hmem
  subst hlk
  exact ⟨label, ⟨hlm, hc, fun b hb hk => hmin b ((hnamed b).2 ⟨hb, hk⟩)⟩, hl, hm⟩

theorem order_injective : Function.Injective Key.order := by
  intro k k' h
  unfold Key.order at h
  cases k
  cases k'
  simp_all

theorem labelKey_text {b : SegmentAtom} (h : labelKey a = labelKey b) : a.place = b.place ∧ a.action = b.action := by
  unfold labelKey at h
  simp only [toLex_inj, Prod.mk.injEq] at h
  exact h.2.2

theorem Labels.labelKey_eq {b : SegmentAtom} (ha : Labels T members a) (hb : Labels T members b) :
    a.key T = b.key T ∧ labelKey a = labelKey b := by
  have hk : a.key T = b.key T := Option.some.inj (ha.key.symm.trans hb.key)
  exact ⟨hk, le_antisymm (ha.first b hb.mem hk.symm) (hb.first a ha.mem hk)⟩

/-! ## The order of the list -/

theorem connected_perm {l : List SegmentAtom} (h : l.Perm atoms) (hid : (atoms.map SegmentAtom.atomId).Nodup) :
    connected T apart involving l = connected T apart involving atoms := by
  unfold connected
  rw [sortBy_congr SegmentAtom.atomId h ((h.map _).nodup_iff.2 hid)]

theorem deriveSegments_perm (hid : (atoms.map SegmentAtom.atomId).Nodup)
    (htie : TieFree T apart involving atoms) {l : List SegmentAtom} (h : l.Perm atoms) :
    deriveSegments T sha apart involving l = deriveSegments T sha apart involving atoms := by
  have hidl : (l.map SegmentAtom.atomId).Nodup := (h.map _).nodup_iff.2 hid
  have hc := components_connected T apart involving hid
  rw [deriveSegments_eq T sha apart involving hidl, deriveSegments_eq T sha apart involving hid,
    connected_perm h hid]
  congr 3
  refine filterMap_congr fun members hm => ?_
  have hsub : ∀ a ∈ members, a ∈ atoms := fun a ha => hc.subset hm ha
  obtain ⟨a, ha, -, haeq⟩ := mintComponent_label T sha hidl (hc.nonempty _ hm)
    fun b hb => h.mem_iff.2 (hsub b hb)
  obtain ⟨b, hb, -, hbeq⟩ := mintComponent_label T sha hid (hc.nonempty _ hm) hsub
  obtain ⟨hkey, hlabel⟩ := ha.labelKey_eq hb
  obtain ⟨hplace, haction⟩ := labelKey_text hlabel
  rw [haeq, hbeq, hkey, hplace, haction, htie members hm a b ha hb]

variable {segments : List Segment}

theorem exists_labels {apart : Finset (Finset String)} {involving : Option (Finset String)}
    (hid : (atoms.map SegmentAtom.atomId).Nodup)
    (h : deriveSegments T sha apart involving atoms = .ok segments) {s : Segment} (hs : s ∈ segments) :
    ∃ members label, (∀ a ∈ members, a ∈ atoms) ∧ Labels T members label ∧
      s.atomIds = members.map SegmentAtom.atomId ∧ s.place = label.place ∧ s.action = label.action := by
  have hc := components_connected T apart involving hid
  rw [deriveSegments_eq T sha apart involving hid] at h
  obtain rfl := Except.ok.inj h
  rw [mem_sortBy] at hs
  obtain ⟨e, he, rfl⟩ := mem_map.1 hs
  obtain ⟨members, hm, heq⟩ := mem_filterMap.1 (fst_mem_of_mem_zipIdx he)
  obtain ⟨label, hl, -, hmint⟩ := mintComponent_label T sha hid (hc.nonempty _ hm)
    fun a ha => hc.subset hm ha
  rw [hmint] at heq
  obtain heq := Option.some.inj heq
  refine ⟨members, label, fun a ha => hc.subset hm ha, hl, ?_, ?_, ?_⟩ <;> rw [← heq]

/-! ## Ids tell the country of the label -/

variable (T sha apart involving) in
theorem mintedOk (hid : (atoms.map SegmentAtom.atomId).Nodup) (hbar : ∀ a ∈ atoms, '|' ∉ a.country.toList) :
    MintedOk sha ((connected T apart involving atoms).filterMap (mintComponent T sha atoms)) := by
  have hc := components_connected T apart involving hid
  have hof : ∀ m ∈ (connected T apart involving atoms).filterMap (mintComponent T sha atoms),
      m.segment.id = mint sha m.canonical m.country ∧ m.canonical.Clean ∧
        '|' ∉ m.country.toList := by
    intro m hm
    obtain ⟨members, hmem, heq⟩ := mem_filterMap.1 hm
    obtain ⟨label, hl, -, hm'⟩ := mintComponent_label T sha hid
      (hc.nonempty _ hmem) fun a ha => hc.subset hmem ha
    rw [hm'] at heq
    obtain rfl := Option.some.inj heq
    exact ⟨rfl, key_clean _ _, hbar label (hc.subset hmem hl.mem)⟩
  refine ⟨fun m hm => (hof m hm).1, fun m hm => (hof m hm).2.1, fun m hm => (hof m hm).2.2, ?_⟩
  have hnodup : ((connected T apart involving atoms).map
      fun m => m.map SegmentAtom.atomId).flatten.Nodup := by
    rw [← map_flatten]
    exact (hc.perm.map _).nodup_iff.2 hid
  rw [← map_filterMap_mintComponent T sha hc.nonempty
    fun m hm a ha => hc.subset hm ha, nodup_flatten] at hnodup
  exact pairwise_map.1 hnodup.2

theorem deriveSegments_ids_nodup (hsha : Function.Injective sha)
    (hid : (atoms.map SegmentAtom.atomId).Nodup) (hbar : ∀ a ∈ atoms, '|' ∉ a.country.toList)
    (h : deriveSegments T sha apart involving atoms = .ok segments) : (segments.map Segment.id).Nodup := by
  rw [deriveSegments_eq T sha apart involving hid] at h
  obtain rfl := Except.ok.inj h
  rw [((sortBy_perm Segment.id _).map _).nodup_iff]
  exact uniqueIds_nodup hsha (mintedOk T sha apart involving hid hbar)

theorem exists_segment_of_minted (hsha : Function.Injective sha) {minted : List Minted}
    (hok : MintedOk sha minted) {m : Minted} (hm : m ∈ minted) :
    ∃ s ∈ uniqueIds sha minted, s.atomIds = m.segment.atomIds ∧ (s.id = mint sha m.canonical m.country ∨
        ∃ n, s.id = mintSpecific sha m.canonical m.country n) := by
  obtain ⟨i, hi⟩ := List.getElem?_of_mem hm
  have he : (m, i) ∈ minted.zipIdx := mk_mem_zipIdx_iff_getElem?.2 hi
  refine ⟨_, mem_map_of_mem he, rfl, ?_⟩
  cases hl : (remints sha minted).lookup i with
  | none => exact Or.inl (hok.id m hm)
  | some x =>
    obtain ⟨l₁, l₂, hl', -⟩ := lookup_eq_some_iff.1 hl
    obtain ⟨-, -, -, e, he', -, hi', n, hn⟩ := mem_remints hsha hok (x := (i, x)) (by rw [hl']; simp)
    obtain rfl := eq_of_index he he' hi'
    exact Or.inr ⟨n, hn⟩

theorem exists_segment_of_label (hsha : Function.Injective sha)
    (hid : (atoms.map SegmentAtom.atomId).Nodup) (hbar : ∀ a ∈ atoms, '|' ∉ a.country.toList)
    (hm : members ∈ connected T apart involving atoms) (ha : Labels T members a) :
    ∃ segments, deriveSegments T sha apart involving (a :: atoms.erase a) = .ok segments ∧
      ∃ s ∈ segments, s.atomIds = members.map SegmentAtom.atomId ∧
        (s.id = mint sha (a.key T) a.country ∨ ∃ n, s.id = mintSpecific sha (a.key T) a.country n) := by
  have hc := components_connected T apart involving hid
  have hperm : (a :: atoms.erase a).Perm atoms :=
    (perm_cons_erase (hc.subset hm ha.mem)).symm
  have hidl : ((a :: atoms.erase a).map SegmentAtom.atomId).Nodup := (hperm.map _).nodup_iff.2 hid
  have hml : members ∈ connected T apart involving (a :: atoms.erase a) := by
    rw [connected_perm hperm hid]
    exact hm
  obtain ⟨label, hlabel, hhead, heq⟩ := mintComponent_label T sha hidl
    (hc.nonempty _ hm) fun b hb => hperm.mem_iff.2 (hc.subset hm hb)
  obtain ⟨hkey, hlk⟩ := ha.labelKey_eq hlabel
  -- the first of the list that ties is the label
  have hla : label = a := by
    have hnamed : (a.atomId ∈ members.map SegmentAtom.atomId && a.key T = label.key T) = true := by
      simp only [Bool.and_eq_true, decide_eq_true_eq]
      exact ⟨mem_map_of_mem ha.mem, hkey⟩
    have hfirst : ∀ b ∈ (atoms.erase a).filter (fun b =>
        b.atomId ∈ members.map SegmentAtom.atomId && b.key T = label.key T), labelKey a ≤ labelKey b := by
      intro b hb
      obtain ⟨hbm, hbk⟩ := mem_filter.1 hb
      simp only [Bool.and_eq_true, decide_eq_true_eq] at hbk
      have hbin := (mem_of_atomId hid (fun c hc' => hc.subset hm hc')
        (mem_of_mem_erase hbm)).1 hbk.1
      exact ha.first b hbin (hbk.2.trans hkey.symm)
    rw [filter_cons, if_pos hnamed, head?_sortBy_cons hfirst] at hhead
    exact (Option.some.inj hhead).symm
  subst hla
  have hok := mintedOk T sha apart involving hidl
    fun b hb => hbar b (hperm.mem_iff.1 hb)
  obtain ⟨s, hs, hids, hor⟩ := exists_segment_of_minted hsha hok
    (mem_filterMap.2 ⟨members, hml, heq⟩)
  exact ⟨_, deriveSegments_eq T sha apart involving hidl, s, (mem_sortBy _ _ s).2 hs, hids, hor⟩

/-! ## Same atoms in, same Segments out -/

/-- What is promised of `derive_segments` on one list. -/
structure SameOut (T : Text) (sha : String → String) (apart : Finset (Finset String))
    (involving : Option (Finset String)) (atoms : List SegmentAtom) : Prop where
  order : ∀ l : List SegmentAtom, l.Perm atoms →
    deriveSegments T sha apart involving l = deriveSegments T sha apart involving atoms
  partition : ∃ segments, deriveSegments T sha apart involving atoms = .ok segments ∧
    (segments.flatMap Segment.atomIds).Perm (atoms.map SegmentAtom.atomId) ∧
    ∀ s ∈ segments, s.atomIds ≠ []
  distinct : Function.Injective sha → (∀ a ∈ atoms, '|' ∉ a.country.toList) →
    ∀ segments, deriveSegments T sha apart involving atoms = .ok segments →
      (segments.map Segment.id).Nodup

theorem segment_eq_of_atomIds {s s' : Segment}
    (hnodup : (segments.flatMap Segment.atomIds).Nodup) (hs : s ∈ segments) (hs' : s' ∈ segments)
    (hne : s.atomIds ≠ []) (h : s.atomIds = s'.atomIds) : s = s' := by
  by_contra hss
  have hpair : segments.Pairwise fun s s' => s.atomIds.Disjoint s'.atomIds :=
    (nodup_flatMap.1 hnodup).2
  have : Std.Symm fun s s' : Segment => s.atomIds.Disjoint s'.atomIds := ⟨fun _ _ h => h.symm⟩
  obtain ⟨a, ha⟩ := exists_mem_of_ne_nil _ hne
  exact hpair.forall hs hs' hss ha (h ▸ ha)

/-- **The order shows only in ties of two countries.**  Without them the result is the same for
every order of the list; with them it is not, for a hash without collisions. -/
theorem deriveSegments_sameOut_iff (T : Text) (sha : String → String)
    (apart : Finset (Finset String)) (involving : Option (Finset String)) (atoms : List SegmentAtom)
    (hid : (atoms.map SegmentAtom.atomId).Nodup) :
    (TieFree T apart involving atoms → SameOut T sha apart involving atoms) ∧
      (Function.Injective sha → (∀ a ∈ atoms, '|' ∉ a.country.toList) →
        SameOut T sha apart involving atoms → TieFree T apart involving atoms) := by
  refine ⟨fun htie => ⟨fun l hl => deriveSegments_perm hid htie hl, ?_, ?_⟩,
    fun hsha hbar hsame members hm a b ha hb => ?_⟩
  · have heq := deriveSegments_eq T sha apart involving hid
    exact ⟨_, heq, deriveSegments_partition hid heq⟩
  · exact fun hsha hbar segments h => deriveSegments_ids_nodup hsha hid hbar h
  · have hc := components_connected T apart involving hid
    obtain ⟨l, hl, s, hs, hsids, hsid⟩ := exists_segment_of_label hsha hid hbar hm ha
    obtain ⟨l', hl', s', hs', hsids', hsid'⟩ := exists_segment_of_label hsha hid hbar hm hb
    have hpa : (a :: atoms.erase a).Perm atoms := (perm_cons_erase (hc.subset hm ha.mem)).symm
    have hpb : (b :: atoms.erase b).Perm atoms := (perm_cons_erase (hc.subset hm hb.mem)).symm
    have hout := (hsame.order _ hpa).trans (hsame.order _ hpb).symm
    rw [hl, hl'] at hout
    obtain rfl := Except.ok.inj hout
    -- the Segment of the component is one Segment, so its two ids are one
    have hpart := deriveSegments_partition ((hpa.map _).nodup_iff.2 hid) hl
    have hnodup : (l.flatMap Segment.atomIds).Nodup :=
      (hpart.1.trans (hpa.map _)).nodup_iff.2 hid
    obtain rfl := segment_eq_of_atomIds hnodup hs hs' (hpart.2 s hs) (hsids.trans hsids'.symm)
    have hka : (a.key T).Clean := key_clean _ _
    have hkb : (b.key T).Clean := key_clean _ _
    have hba := hbar a (hc.subset hm ha.mem)
    have hbb := hbar b (hc.subset hm hb.mem)
    rcases hsid with hsid | ⟨n, hsid⟩
    · rcases hsid' with hsid' | ⟨n', hsid'⟩
      · exact mint_country hsha hka hkb hba hbb (hsid.symm.trans hsid')
      · exact absurd (hsid.symm.trans hsid') (mint_ne_mintSpecific hsha hka hkb hba hbb)
    · rcases hsid' with hsid' | ⟨n', hsid'⟩
      · exact absurd (hsid'.symm.trans hsid) (mint_ne_mintSpecific hsha hkb hka hbb hba)
      · exact (mintSpecific_inj hsha hka hkb hba hbb (hsid.symm.trans hsid')).2.1

/-- Two atoms of one place and two days. -/
theorem deriveSegments_sameOut_two_days : SameOut Text.ascii id ∅ none
      [⟨"x", "tour", some 1, "Hue", "walk", "Vietnam", none⟩,
        ⟨"y", "tour", some 2, "Hue Citadel", "stroll", "Vietnam", none⟩] := by
  refine (deriveSegments_sameOut_iff Text.ascii id ∅ none _ (by decide)).1 ?_
  intro members hm a b ha hb
  have hin : ∀ c ∈ members, c.country = "Vietnam" := by
    intro c hcm
    have := (components_connected Text.ascii ∅ none (by decide)).subset hm hcm
    simp only [mem_cons, not_mem_nil, or_false] at this
    rcases this with rfl | rfl <;> rfl
  rw [hin a ha.mem, hin b hb.mem]

/-- The first sixteen digits of SHA-256 of the two texts minted below. -/
def hueDigest (s : String) : String :=
  if s = "hue|walk" then "2624d7bdd32ab39b"
  else if s = "hue|walk|Vietnam" then "9c221fb63dd3c49d"
  else s

/-- A new atom, and two existing Segments of one label: one of an unknown country and one of
Vietnam, each with the id of its own mint. -/
def huePool : List SegmentAtom :=
  [⟨"x", "tour", some 1, "Hue Citadel", "walk", "Vietnam", none⟩,
    ⟨"__existing_segment__2624d7bdd32ab39b", "", none, "Hue", "walk", "", none⟩,
    ⟨"__existing_segment__9c221fb63dd3c49d", "", none, "Hue", "walk", "Vietnam", none⟩]

/-- The one Segment of the pool takes the id of whichever pseudo atom comes first. -/
theorem deriveSegments_order_shows : ¬ ∀ (apart : Finset (Finset String)) (involving : Option (Finset String))
      (atoms : List SegmentAtom), (atoms.map SegmentAtom.atomId).Nodup →
      SameOut Text.ascii hueDigest apart involving atoms := by
  intro h
  have hsame := (h ∅ (some {"x"}) huePool (by decide)).order huePool.reverse
    (reverse_perm _)
  exact absurd hsame (by decide +kernel)

end CisApp.Segments
