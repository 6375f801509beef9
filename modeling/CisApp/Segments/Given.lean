import CisApp.Segments.Ids

/-!
# The id that a Segment is given

`_unique_ids` without positions: `givenId` is the id of a minted Segment among those
that mint the same (`uniqueIds_eq`), for the stored ids of the pool.  It is no stored id
that another Segment owns (`givenId_free`), and it depends on the stored ids only as far
as they are given or tried (`reminted_congr`).
-/

namespace CisApp.Segments

open Lib List

variable (sha : String → String)

/-- The second mints of a sorted group, in its order. -/
def reminted (stored : List String) : (Key × String → Nat) → List Minted → List String
  | _, [] => []
  | seen, m :: rest =>
    let n := freeMint sha stored m stored.length (seen (m.canonical, m.country))
    mintSpecific sha m.canonical m.country n ::
      reminted stored (Function.update seen (m.canonical, m.country) (n + 1)) rest

def disowned (baseId : String) (group : List Minted) : List Minted :=
  sortBy (fun m => m.segment.atomIds) (group.filter fun m => pseudoId baseId ∉ m.segment.atomIds)

def givenId (stored : List String) (group : List Minted) (m : Minted) : String :=
  if group.length < 2 && m.segment.id ∉ stored then m.segment.id
  else
    let members := disowned m.segment.id group
    ((members.zip (reminted sha stored (fun _ => 0) members)).lookup m).getD m.segment.id

def rivals (minted : List Minted) (m : Minted) : List Minted := minted.filter fun x => x.segment.id = m.segment.id

variable {m : Minted}

theorem mem_rivals_self {minted : List Minted} (hm : m ∈ minted) : m ∈ rivals minted m :=
  mem_filter.2 ⟨hm, decide_eq_true rfl⟩

/-! ## Positions -/

section lookups

variable {α κ κ' β γ : Type} [DecidableEq κ] [DecidableEq κ']

theorem lookup_eq_none_of {l : List (κ × β)} {k : κ} (h : ∀ x ∈ l, x.1 ≠ k) : l.lookup k = none := by
  refine lookup_eq_none_iff.2 fun x hx => ?_
  exact bne_iff_ne.2 (h x hx).symm

theorem lookup_zip (f : α → κ) (g : α → κ') {l : List α} (hf : (l.map f).Nodup) (hg : (l.map g).Nodup) (ids : List β) {a : α}
    (ha : a ∈ l) : ((l.map f).zip ids).lookup (f a) = ((l.map g).zip ids).lookup (g a) := by
  induction l generalizing ids with
  | nil => cases ha
  | cons b l ih =>
    cases ids with
    | nil => rfl
    | cons x ids =>
      rw [map_cons, map_cons, zip_cons_cons, zip_cons_cons, lookup_cons, lookup_cons]
      rw [map_cons, nodup_cons] at hf hg
      rcases mem_cons.1 ha with rfl | ha
      · rw [beq_self_eq_true, beq_self_eq_true]
      · have hfa : f a ≠ f b := fun heq => hf.1 (heq ▸ mem_map_of_mem ha)
        have hga : g a ≠ g b := fun heq => hg.1 (heq ▸ mem_map_of_mem ha)
        rw [beq_eq_false_iff_ne.2 hfa, beq_eq_false_iff_ne.2 hga]
        exact ih hf.2 hg.2 ids ha

theorem lookup_flatMap {l : List γ} {f : γ → List (κ × β)} {c : γ} (hc : c ∈ l) {k : κ}
    (hother : ∀ d ∈ l, d ≠ c → ∀ x ∈ f d, x.1 ≠ k) : (l.flatMap f).lookup k = (f c).lookup k := by
  have hnone : ∀ d ∈ l, (f c).lookup k = none → (f d).lookup k = none := by
    intro d hd hnone
    by_cases hdc : d = c
    · rw [hdc]
      exact hnone
    · exact lookup_eq_none_of (hother d hd hdc)
  induction l with
  | nil => cases hc
  | cons d l ih =>
    rw [flatMap_cons, lookup_append]
    have hrest : (f c).lookup k = none → (l.flatMap f).lookup k = none := by
      intro hck
      refine lookup_eq_none_of fun x hx heq => ?_
      obtain ⟨d', hd', hx⟩ := mem_flatMap.1 hx
      have hn := lookup_eq_none_iff.1 (hnone d' (mem_cons_of_mem _ hd') hck) x hx
      exact bne_iff_ne.1 hn heq.symm
    cases hck : (f c).lookup k with
    | none => rw [hnone d mem_cons_self hck, hrest hck, Option.none_or]
    | some x =>
      by_cases hdc : d = c
      · rw [hdc, hck, Option.some_or]
      · have hcl : c ∈ l := (mem_cons.1 hc).resolve_left (Ne.symm hdc)
        rw [lookup_eq_none_of (hother d mem_cons_self hdc), Option.none_or,
          ih hcl (fun d' hd' => hother d' (mem_cons_of_mem _ hd')) fun d' hd' => hnone d' (mem_cons_of_mem _ hd'),
          hck]

end lookups

variable {sha} {stored : List String} {minted : List Minted}

theorem foldl_remintStep (l : List (Minted × Nat)) (st : (Key × String → Nat) × List (Nat × String)) :
    (l.foldl (remintStep sha stored) st).2 = st.2 ++ (l.map Prod.snd).zip (reminted sha stored st.1 (l.map Prod.fst)) := by
  induction l generalizing st with
  | nil => simp
  | cons e l ih =>
    rw [foldl_cons, ih]
    show (st.2 ++ [_]) ++ _ = _
    rw [append_assoc]
    rfl

theorem remintGroup_eq (baseId : String) (members : List (Minted × Nat)) :
    remintGroup sha stored baseId members =
      if members.length < 2 && baseId ∉ stored then []
      else
        let l := sortBy (fun e => e.1.segment.atomIds) (members.filter fun e => pseudoId baseId ∉ e.1.segment.atomIds)
        (l.map Prod.snd).zip (reminted sha stored (fun _ => 0) (l.map Prod.fst)) := by
  unfold remintGroup
  rw [foldl_remintStep]
  rfl

variable (seen : Key × String → Nat)

theorem length_reminted (l : List Minted) : (reminted sha stored seen l).length = l.length := by
  induction l generalizing seen with
  | nil => rfl
  | cons m l ih => rw [reminted, length_cons, length_cons, ih]

variable (sha stored) in
theorem zip_fst (l : List Minted) : (l.zip (reminted sha stored seen l)).map Prod.fst = l :=
  map_fst_zip (le_of_eq (length_reminted seen l).symm)

theorem zip_snd (l : List Minted) : (l.zip (reminted sha stored seen l)).map Prod.snd = reminted sha stored seen l :=
  map_snd_zip (le_of_eq (length_reminted seen l))

theorem uniqueIds_eq (hnodup : (minted.map fun m => m.segment.atomIds).Nodup) :
    uniqueIds sha minted =
      minted.map fun m => { m.segment with id := givenId sha (storedIds minted) (rivals minted m) m } := by
  have hmap : ∀ f : Minted → Segment, minted.map f = minted.zipIdx.map fun e => f e.1 := by
    intro f
    conv_lhs => rw [← zipIdx_map_fst 0 minted, map_map]
    rfl
  rw [hmap]
  refine map_congr_left fun e he => ?_
  -- the group of the Segment, with positions
  obtain ⟨b, hb⟩ : ∃ b, b = e.1.segment.id := ⟨_, rfl⟩
  obtain ⟨g, hgroup⟩ : ∃ g, g = minted.zipIdx.filter fun x => x.1.segment.id = b := ⟨_, rfl⟩
  have hfst : g.map Prod.fst = rivals minted e.1 := by
    unfold rivals
    conv_rhs => rw [← zipIdx_map_fst 0 minted, filter_map]
    rw [hgroup, hb]
    rfl
  have hlookup : (remints sha minted).lookup e.2 = (remintGroup sha (storedIds minted) b g).lookup e.2 := by
    have hg : (b, g) ∈ groups (fun e : Minted × Nat => e.1.segment.id) minted.zipIdx :=
      (mem_groups _ _ _).2 ⟨⟨e, he, hb.symm⟩, hgroup⟩
    refine lookup_flatMap hg fun g' hg' hne x hx heq => hne ?_
    rw [remintGroup_eq] at hx
    split at hx
    · cases hx
    · obtain ⟨i, s⟩ := x
      obtain ⟨hi, -⟩ := of_mem_zip hx
      obtain ⟨e', he', rfl⟩ := mem_map.1 hi
      have he'g := mem_of_mem_filter ((mem_sortBy _ _ e').1 he')
      obtain ⟨he'z, hid⟩ := (mem_group hg' e').1 he'g
      rw [eq_of_index he'z he heq] at hid
      refine Prod.ext (hid.symm.trans hb.symm) ?_
      rw [((mem_groups _ _ g').1 hg').2, hgroup, hb, hid]
  have hlen : g.length = (rivals minted e.1).length := by rw [← hfst, length_map]
  rw [hlookup, remintGroup_eq]
  unfold givenId
  rw [← hlen, ← hb]
  split
  · rfl
  · dsimp only
    -- the same members in the same order
    obtain ⟨l, hl⟩ : ∃ l, l = sortBy (fun e => e.1.segment.atomIds)
      (g.filter fun e => pseudoId b ∉ e.1.segment.atomIds) := ⟨_, rfl⟩
    have hmembers : l.map Prod.fst = disowned b (rivals minted e.1) := by
      unfold disowned
      rw [hl, map_sortBy Prod.fst (fun m : Minted => m.segment.atomIds), ← hfst, filter_map]
      rfl
    have hsub : ∀ x ∈ l, x ∈ minted.zipIdx := by
      intro x hx
      rw [hl, mem_sortBy] at hx
      have := mem_of_mem_filter hx
      rw [hgroup] at this
      exact mem_of_mem_filter this
    have hlnodup : l.Nodup := by
      rw [hl]
      refine (sortBy_perm _ _).nodup_iff.2 (List.Nodup.filter _ ?_)
      rw [hgroup]
      refine List.Nodup.filter _ (List.Nodup.of_map Prod.snd ?_)
      rw [zipIdx_map_snd]
      exact nodup_range'
    have hsnd : (l.map Prod.snd).Nodup :=
      List.Nodup.map_on (fun x hx y hy heq => eq_of_index (hsub x hx) (hsub y hy) heq) hlnodup
    have hzip : (minted.zipIdx.map fun x => x.1.segment.atomIds).Nodup := by
      rw [← zipIdx_map_fst 0 minted, map_map] at hnodup
      exact hnodup
    have hfstnodup : (l.map Prod.fst).Nodup := List.Nodup.map_on (fun x hx y hy heq =>
      inj_on_of_nodup_map hzip (hsub x hx) (hsub y hy) (by rw [heq])) hlnodup
    rw [← hl, ← hmembers]
    congr 1
    by_cases hel : e ∈ l
    · have hsame := lookup_zip Prod.snd Prod.fst hsnd hfstnodup (reminted sha (storedIds minted) (fun _ => 0) (l.map Prod.fst)) hel
      rw [hsame, hb]
    · rw [lookup_eq_none_of, lookup_eq_none_of]
      · rintro ⟨m, s⟩ hx heq
        obtain ⟨hm, -⟩ := of_mem_zip hx
        obtain ⟨e', he', hfe⟩ := mem_map.1 hm
        have hfst : e'.1 = e.1 := hfe.trans heq
        exact hel (inj_on_of_nodup_map hzip (hsub e' he') he (by rw [hfst]) ▸ he')
      · rintro ⟨i, s⟩ hx heq
        obtain ⟨hi, -⟩ := of_mem_zip hx
        obtain ⟨e', he', hse⟩ := mem_map.1 hi
        exact hel (eq_of_index (hsub e' he') he (hse.trans heq) ▸ he')

/-! ## Free mints -/

/-- The second mint may be given: it is not stored, or the Segment owns it. -/
def Free (sha : String → String) (stored : List String) (m : Minted) (n : Nat) : Prop :=
  mintSpecific sha m.canonical m.country n ∈ stored →
    pseudoId (mintSpecific sha m.canonical m.country n) ∈ m.segment.atomIds

theorem mintSpecific_number (hsha : Function.Injective sha) (k : Key) (country : String) {n n' : Nat}
    (h : mintSpecific sha k country n = mintSpecific sha k country n') : n = n' := by
  have hlist := congrArg String.toList (hsha h)
  unfold joinWith at hlist
  rw [String.toList_ofList, String.toList_ofList] at hlist
  simp only [map_cons, map_nil, List.intercalate, List.intersperse, flatten_cons, flatten_nil,
    append_nil, append_cancel_left_eq, cons_append, nil_append, List.cons.injEq, true_and] at hlist
  exact Nat.repr_injective (String.toList_inj.1 hlist)

variable (sha stored) in
theorem freeMint_first (m : Minted) (fuel n : Nat) :
    (∀ k, n ≤ k → k < freeMint sha stored m fuel n → ¬Free sha stored m k) ∧
      (Free sha stored m (freeMint sha stored m fuel n) ∨ freeMint sha stored m fuel n = n + fuel) := by
  induction fuel generalizing n with
  | zero =>
    refine ⟨fun k hk hlt => ?_, Or.inr rfl⟩
    rw [freeMint] at hlt
    omega
  | succ fuel ih =>
    unfold freeMint
    dsimp only
    split
    · next htaken =>
      rw [Bool.and_eq_true, decide_eq_true_eq, decide_eq_true_eq] at htaken
      obtain ⟨hbefore, hend⟩ := ih (n + 1)
      refine ⟨fun k hk hlt hfree => ?_, ?_⟩
      · rcases Nat.eq_or_lt_of_le hk with rfl | hk
        · exact htaken.2 (hfree htaken.1)
        · exact hbefore k hk hlt hfree
      · refine hend.imp_right fun heq => ?_
        omega
    · next hfree =>
      refine ⟨fun k hk hlt => by omega, Or.inl fun hin => ?_⟩
      by_contra hown
      exact hfree (by rw [decide_eq_true hin, decide_eq_true hown]; rfl)

variable (stored) in
theorem freeMint_free (hsha : Function.Injective sha) (m : Minted) (n : Nat) :
    Free sha stored m (freeMint sha stored m stored.length n) := by
  obtain ⟨hbefore, hend⟩ := freeMint_first sha stored m stored.length n
  by_contra hnot
  have hlast := hend.resolve_left hnot
  -- more second mints would be stored than there are stored ids
  have htaken : ∀ i, i < stored.length + 1 → mintSpecific sha m.canonical m.country (n + i) ∈ stored := by
    intro i hi
    have hk : ¬Free sha stored m (n + i) := by
      by_cases hlt : n + i < freeMint sha stored m stored.length n
      · exact hbefore _ (Nat.le_add_right n i) hlt
      · rw [show n + i = freeMint sha stored m stored.length n by omega]
        exact hnot
    by_contra hin
    exact hk fun h => absurd h hin
  have hnodup : ((List.range (stored.length + 1)).map fun i => mintSpecific sha m.canonical m.country (n + i)).Nodup := by
    refine List.Nodup.map ?_ nodup_range
    intro i j heq
    have := mintSpecific_number hsha m.canonical m.country heq
    omega
  have hsub : ((List.range (stored.length + 1)).map fun i => mintSpecific sha m.canonical m.country (n + i)) ⊆ stored := by
    intro x hx
    obtain ⟨i, hi, rfl⟩ := mem_map.1 hx
    exact htaken i (mem_range.1 hi)
  have hlen := (subperm_of_subset hnodup hsub).length_le
  rw [length_map, length_range] at hlen
  omega

variable {stored' more : List String}

theorem freeMint_congr (hsha : Function.Injective sha)
    (hstored : ∀ x, x ∈ stored' ↔ x ∈ stored ∨ x ∈ more) (m : Minted) (n : Nat)
    (hfree : mintSpecific sha m.canonical m.country (freeMint sha stored m stored.length n) ∉ more) :
    freeMint sha stored' m stored'.length n = freeMint sha stored m stored.length n := by
  obtain ⟨hbefore, -⟩ := freeMint_first sha stored m stored.length n
  obtain ⟨hbefore', -⟩ := freeMint_first sha stored' m stored'.length n
  have hend := freeMint_free stored hsha m n
  have hend' := freeMint_free stored' hsha m n
  have hle := le_freeMint sha stored m stored.length n
  have hle' := le_freeMint sha stored' m stored'.length n
  refine le_antisymm ?_ ?_
  · by_contra hlt
    refine hbefore' _ hle (by omega) fun hin => hend ?_
    exact ((hstored _).1 hin).resolve_right hfree
  · by_contra hlt
    exact hbefore _ hle' (by omega) fun hin => hend' ((hstored _).2 (Or.inl hin))

theorem reminted_congr (hsha : Function.Injective sha)
    (hstored : ∀ x, x ∈ stored' ↔ x ∈ stored ∨ x ∈ more) (seen : Key × String → Nat) (l : List Minted)
    (hfree : ∀ x ∈ reminted sha stored seen l, x ∉ more) : reminted sha stored' seen l = reminted sha stored seen l := by
  induction l generalizing seen with
  | nil => rfl
  | cons m l ih =>
    have hn := freeMint_congr hsha hstored m (seen (m.canonical, m.country)) (hfree _ mem_cons_self)
    rw [reminted, reminted, hn, ih _ fun x hx => hfree x (mem_cons_of_mem _ hx)]

theorem reminted_free (hsha : Function.Injective sha) (seen : Key × String → Nat) {l : List Minted} {x : String}
    (h : (m, x) ∈ l.zip (reminted sha stored seen l)) : x ∈ stored → pseudoId x ∈ m.segment.atomIds := by
  induction l generalizing seen with
  | nil => cases h
  | cons m' l ih =>
    rcases mem_cons.1 h with heq | h
    · obtain ⟨rfl, rfl⟩ := Prod.mk.inj heq
      exact freeMint_free _ hsha m _
    · exact ih _ h

theorem givenId_free (hsha : Function.Injective sha) {group : List Minted} (hm : m ∈ group) :
    givenId sha stored group m ∈ stored → pseudoId (givenId sha stored group m) ∈ m.segment.atomIds := by
  unfold givenId
  split
  · next hsmall =>
    rw [Bool.and_eq_true, decide_eq_true_eq, decide_eq_true_eq] at hsmall
    exact fun hin => absurd hin hsmall.2
  · dsimp only
    cases hlookup : ((disowned m.segment.id group).zip
        (reminted sha stored (fun _ => 0) (disowned m.segment.id group))).lookup m with
    | some x =>
      obtain ⟨l₁, l₂, hl, -⟩ := lookup_eq_some_iff.1 hlookup
      exact reminted_free hsha (fun _ => 0) (l := disowned m.segment.id group) (by rw [hl]; simp)
    | none =>
      -- only the owner is not given a second mint
      intro _
      by_contra hown
      have hin : m ∈ disowned m.segment.id group := by
        unfold disowned
        rw [mem_sortBy, mem_filter]
        exact ⟨hm, decide_eq_true hown⟩
      rw [← zip_fst sha stored (fun _ => 0) (disowned m.segment.id group)] at hin
      obtain ⟨x, hx, hfst⟩ := mem_map.1 hin
      exact bne_iff_ne.1 (lookup_eq_none_iff.1 hlookup x hx) hfst.symm

theorem givenId_congr (hsha : Function.Injective sha)
    (hstored : ∀ x, x ∈ stored' ↔ x ∈ stored ∨ x ∈ more) {group : List Minted}
    (hgroup : ∀ x ∈ group, x.segment.id = m.segment.id) (hnodup : (group.map fun x => x.segment.atomIds).Nodup) (hm : m ∈ group)
    (hfree : ∀ x ∈ group, givenId sha stored group x ∉ more) : givenId sha stored' group m = givenId sha stored group m := by
  by_cases hsmall : (group.length < 2 && m.segment.id ∉ stored) = true
  · have hgiven : givenId sha stored group m = m.segment.id := by
      unfold givenId
      rw [if_pos hsmall]
    have hmore := hfree m hm
    rw [hgiven] at hmore ⊢
    unfold givenId
    rw [Bool.and_eq_true, decide_eq_true_eq, decide_eq_true_eq] at hsmall
    rw [if_pos]
    rw [Bool.and_eq_true, decide_eq_true_eq, decide_eq_true_eq, hstored, not_or]
    exact ⟨hsmall.1, hsmall.2, hmore⟩
  · have hsmall' : ¬(group.length < 2 && m.segment.id ∉ stored') = true := by
      rw [Bool.and_eq_true, decide_eq_true_eq, decide_eq_true_eq] at hsmall ⊢
      rw [hstored, not_or]
      exact fun h => hsmall ⟨h.1, h.2.1⟩
    have hcontested : ∀ x ∈ group, givenId sha stored group x =
        (((disowned m.segment.id group).zip (reminted sha stored (fun _ => 0) (disowned m.segment.id group))).lookup x).getD
          m.segment.id := by
      intro x hx
      unfold givenId
      rw [hgroup x hx, if_neg hsmall]
    have hsame : reminted sha stored' (fun _ => 0) (disowned m.segment.id group) =
        reminted sha stored (fun _ => 0) (disowned m.segment.id group) := by
      refine reminted_congr hsha hstored _ _ fun x hx => ?_
      -- it is given to a rival
      rw [← zip_snd] at hx
      obtain ⟨⟨r, y⟩, hpair, rfl⟩ := mem_map.1 hx
      have hr := (of_mem_zip hpair).1
      have hin : r ∈ group := mem_of_mem_filter ((mem_sortBy _ _ r).1 hr)
      have hdistinct : (((disowned m.segment.id group).zip
          (reminted sha stored (fun _ => 0) (disowned m.segment.id group))).map Prod.fst).Nodup := by
        rw [zip_fst]
        refine (sortBy_perm _ _).nodup_iff.2 (List.Nodup.filter _ (List.Nodup.of_map _ hnodup))
      have hgiven := hfree r hin
      rw [hcontested r hin, (Table.lookup_eq_some_iff hdistinct).2 hpair] at hgiven
      exact hgiven
    unfold givenId
    rw [if_neg hsmall, if_neg hsmall']
    dsimp only
    rw [hsame]

end CisApp.Segments
