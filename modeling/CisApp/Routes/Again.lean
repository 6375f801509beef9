import CisApp.Routes.Hubs

/-!
# A second run over the same ranking

After a run the current rows are the finished Routes (`Shows`), and a family's
tours have Routes in one hub only, its home.  So in a second run the overlap finds
the home or nothing: the tours of a family that have no Route count as members, and
with too many of them the family is below the threshold in its own hub.  Then the
name decides, which need not be that of the home (`hub_created_again`).

`keptFrom` says of the state before the second run that each family finds its home
again; `second_run_quiet_iff` that this is all the second run needs to change nothing.
-/

namespace CisApp.Routes

open Lib List

theorem Db.Shows.diff {db : Db} {f : Table Identity Route} (h : db.Shows f) (hf : Finished f) :
    db.toInsert f = [] ∧ db.toSupersede f = [] := by
  constructor
  · refine List.eq_nil_iff_forall_not_mem.2 ?_
    rintro ⟨id, row⟩ hin
    obtain ⟨r, hget, hfor⟩ := (mem_toInsert h.kept hf).1 hin
    obtain ⟨id', row', hcur, hid⟩ := h.all _ r hget
    obtain ⟨r', hget', hun⟩ := h.rows id' row' hcur
    rw [hid, hget] at hget'
    obtain rfl := Option.some.inj hget'
    unfold Db.insertFor at hfor
    rw [(existing_eq_some h.kept).2 ⟨hcur, hid⟩] at hfor
    dsimp only at hfor
    rw [if_pos hun] at hfor
    cases hfor
  · refine List.eq_nil_iff_forall_not_mem.2 fun k hin => ?_
    -- whatever is superseded was current
    obtain ⟨row, hcur⟩ : ∃ row, db.Current k row := by
      unfold Db.toSupersede at hin
      rw [mem_append, mem_filterMap, mem_map] at hin
      rcases hin with ⟨e, -, hbind⟩ | ⟨⟨i, k', row'⟩, hin, rfl⟩
      · obtain ⟨⟨k', old⟩, hget, hif⟩ := Option.bind_eq_some_iff.1 hbind
        split at hif
        · cases hif
        · obtain rfl := Option.some.inj hif
          exact ⟨old, ((existing_eq_some h.kept).1 hget).1⟩
      · have hget := (Table.get?_eq_some_iff _ _ _).2 (List.mem_filter.1 hin).1
        exact ⟨row', ((existing_eq_some h.kept).1 hget).1⟩
    obtain ⟨r, hget, hun⟩ := h.rows k row hcur
    rw [(mem_toSupersede h.kept hcur).1 hin r hget] at hun
    cases hun

theorem Db.Shows.hub_eq {db : Db} {f f' : Table Identity Route} (h : db.Shows f) (hf' : Finished f')
    (hnil : db.toInsert f' = []) {i : Identity} {r' : Route} (hget : f'.get? i = some r') : ∃ r, f.get? i = some r ∧ r'.hubId = r.hubId := by
  have hnone : db.insertFor i r' = none := by
    by_contra hne
    obtain ⟨⟨id, row⟩, hfor⟩ := Option.ne_none_iff_exists'.1 hne
    obtain rfl := identity_of_insertFor (hf'.identity i r' hget) h.kept hfor
    have hin : (id, row) ∈ db.toInsert f' := (mem_toInsert h.kept hf').2 ⟨r', hget, hfor⟩
    rw [hnil] at hin
    cases hin
  unfold Db.insertFor at hnone
  split at hnone
  · split at hnone <;> cases hnone
  · next id old hold =>
    split at hnone
    · next hun =>
      obtain ⟨hcur, rfl⟩ := (existing_eq_some h.kept).1 hold
      obtain ⟨r, hr, hun'⟩ := h.rows id old hcur
      simp only [unchanged, Bool.and_eq_true, decide_eq_true_eq] at hun hun'
      exact ⟨r, hr, hun.1.2.trans hun'.1.2.symm⟩
    · cases hnone

/-! ## The hubs of a run -/

section hubs

variable {W : Mint} {db : Db}

/-- A family's hub is one of the table's, under its name there. -/
structure Resolved (db : Db) (fs : List Family) (st : Resolving) : Prop where
  keys : st.resolved.map Prod.fst = fs.map Family.key
  grows : ∀ h hub, db.hubs.get? h = some hub → st.hubs.get? h = some hub
  named : ∀ e ∈ st.resolved, ∃ hub, st.hubs.get? e.2.1 = some hub ∧ hub.name = e.2.2

theorem get?_newHub (st : Resolving) (hub : Hub) (h : String) :
    (st.hubs.insert (W.newId (st.hubs.rows.map Prod.fst)) hub).get? h =
      if h = W.newId (st.hubs.rows.map Prod.fst) then some hub else st.hubs.get? h := by
  have hfresh := (Table.get?_eq_none_iff st.hubs _).2 (W.fresh (st.hubs.rows.map Prod.fst))
  rw [Table.get?_insert]
  simp only [hfresh, and_true]

theorem Resolved.resolve {fs : List Family} {st : Resolving} (h : Resolved db fs st) (f : Family) :
    Resolved db (fs ++ [f]) (resolve W db st f) := by
  have hadd : ∀ hub name, (∃ x, st.hubs.get? hub = some x ∧ x.name = name) →
      Resolved db (fs ++ [f]) (st.add f hub name) := by
    intro hub name hx
    refine ⟨?_, h.grows, fun e he => ?_⟩
    · show (st.resolved ++ [(f.key, hub, name)]).map Prod.fst = _
      rw [map_append, map_append, h.keys]
      rfl
    · rcases List.mem_append.1 he with he | he
      · exact h.named e he
      · rw [List.mem_singleton.1 he]
        exact hx
  cases hover : db.overlapHub f with
  | some hub =>
    obtain ⟨x, hx⟩ := overlapHub_stored hover
    rw [resolve_of_overlap hover]
    refine hadd _ _ ⟨x, h.grows _ _ hx, ?_⟩
    rw [hx]
    rfl
  | none =>
    cases hnamed : namedHub st.hubs f.name st.given with
    | some hub =>
      obtain ⟨x, hx, hname, -⟩ := namedHub_eq_some hnamed
      rw [resolve_of_named hover hnamed]
      exact hadd _ _ ⟨x, hx, hname⟩
    | none =>
      rw [resolve_of_new hover hnamed]
      have hkeep : ∀ k x, st.hubs.get? k = some x →
          (st.hubs.insert (W.newId (st.hubs.rows.map Prod.fst))
            ⟨f.name, W.createdAt (st.hubs.rows.map Prod.fst)⟩).get? k = some x := by
        intro k x hx
        rw [get?_newHub, if_neg, hx]
        rintro rfl
        rw [(Table.get?_eq_none_iff st.hubs _).2 (W.fresh _)] at hx
        cases hx
      refine ⟨?_, fun k x hx => hkeep k x (h.grows k x hx), fun e he => ?_⟩
      · rw [map_append, map_append, h.keys]
        rfl
      · rcases List.mem_append.1 he with he | he
        · obtain ⟨x, hx, hname⟩ := h.named e he
          exact ⟨x, hkeep _ x hx, hname⟩
        · rw [List.mem_singleton.1 he]
          refine ⟨⟨f.name, W.createdAt (st.hubs.rows.map Prod.fst)⟩, ?_, rfl⟩
          rw [get?_newHub, if_pos rfl]

theorem resolved_all (W : Mint) (db : Db) (fs : List Family) : Resolved db fs (resolveAll W db fs) := by
  unfold resolveAll
  induction fs using List.reverseRecOn with
  | nil => exact ⟨rfl, fun _ _ h => h, fun e he => absurd he not_mem_nil⟩
  | append_singleton fs f ih =>
    rw [foldl_concat]
    exact ih.resolve f

theorem resolve_later (W : Mint) (db : Db) (fs : List Family) (st : Resolving) :
    st.created ≤ (fs.foldl (resolve W db) st).created ∧ ∃ l, (fs.foldl (resolve W db) st).resolved = st.resolved ++ l := by
  induction fs generalizing st with
  | nil => exact ⟨le_refl _, [], (append_nil _).symm⟩
  | cons f fs ih =>
    have hone : st.created ≤ (resolve W db st f).created ∧ ∃ e, (resolve W db st f).resolved = st.resolved ++ [e] := by
      cases hover : db.overlapHub f with
      | some hub =>
        rw [resolve_of_overlap hover]
        exact ⟨le_refl _, _, rfl⟩
      | none =>
        cases hnamed : namedHub st.hubs f.name st.given with
        | some hub =>
          rw [resolve_of_named hover hnamed]
          exact ⟨le_refl _, _, rfl⟩
        | none =>
          rw [resolve_of_new hover hnamed]
          exact ⟨Nat.le_succ _, _, rfl⟩
    obtain ⟨hle, e, he⟩ := hone
    obtain ⟨hle', l, hl⟩ := ih (resolve W db st f)
    refine ⟨le_trans hle hle', e :: l, ?_⟩
    rw [foldl_cons, hl, he, append_assoc]
    rfl

end hubs

/-! ## Homes -/

/-- The current Routes of the family's tours are in one hub. -/
structure Home (db : Db) (f : Family) (hub name : String) : Prop where
  stored : ∃ x, db.hubs.get? hub = some x ∧ x.name = name
  rows : ∀ id row, db.Current id row → row.identity.tourId ∈ f.tours → row.hubId = some hub
  routed : ∃ id row, db.Current id row ∧ row.identity.tourId ∈ f.tours

def Db.homeOf (db : Db) (tours : Finset String) : Option String :=
  (db.current.find? fun e => e.2.identity.tourId ∈ tours).bind fun e => e.2.hubId

/-- Each family finds its home again, by its tours there or by name. -/
def Db.keptFrom (db : Db) : List String → List Family → Bool
  | _, [] => true
  | taken, f :: rest =>
    match db.homeOf f.tours with
    | none => false
    | some hub =>
      (sharesEnough f.tours (db.toursIn hub) || namedHub db.hubs f.name taken = some hub) &&
        db.keptFrom (taken ++ [hub]) rest

section homes

variable {db : Db} {f : Family} {hub name : String}

theorem Home.homeOf (h : Home db f hub name) : db.homeOf f.tours = some hub := by
  unfold Db.homeOf
  obtain ⟨k, row, hcur, ht⟩ := h.routed
  cases hfind : db.current.find? fun e => e.2.identity.tourId ∈ f.tours with
  | none =>
    have := List.find?_eq_none.1 hfind (k, row) (mem_current.2 hcur)
    exact absurd (decide_eq_true ht) this
  | some e =>
    obtain ⟨k', row'⟩ := e
    have ht' := List.find?_some hfind
    exact h.rows k' row' (mem_current.1 (List.mem_of_find?_eq_some hfind)) (of_decide_eq_true ht')

theorem Home.meets (h : Home db f hub name) {hub' : String} : (f.tours ∩ db.toursIn hub').card ≠ 0 ↔ hub' = hub := by
  rw [Finset.card_ne_zero]
  constructor
  · rintro ⟨t, ht⟩
    obtain ⟨htf, hth⟩ := Finset.mem_inter.1 ht
    obtain ⟨k, row, hcur, hhub, rfl⟩ := mem_toursIn.1 hth
    rw [h.rows k row hcur htf] at hhub
    exact (Option.some.inj hhub).symm
  · rintro rfl
    obtain ⟨k, row, hcur, ht⟩ := h.routed
    exact ⟨row.identity.tourId, Finset.mem_inter.2 ⟨ht, mem_toursIn.2 ⟨k, row, hcur, h.rows k row hcur ht, rfl⟩⟩⟩

theorem bestHubMatch_single {members : Finset String} {old : List (String × Finset String)} {tours : Finset String}
    (hin : (hub, tours) ∈ old) (hold : (old.map Prod.fst).Nodup)
    (hmeets : ∀ e ∈ old, (members ∩ e.2).card ≠ 0 ↔ e.1 = hub) :
    bestHubMatch members old = ⟨some hub, (members ∩ tours).card / (members ∪ tours).card, (members ∩ tours).card⟩ := by
  obtain ⟨l, l', rfl⟩ := append_of_mem hin
  rw [map_append, map_cons, nodup_append, nodup_cons] at hold
  have hskip : ∀ (l : List (String × Finset String)) (best : Match), (∀ e ∈ l, (members ∩ e.2).card = 0) →
      l.foldl (fun best e =>
        let inter := (members ∩ e.2).card
        if inter = 0 then best
        else
          let found : Match := ⟨some e.1, inter / (members ∪ e.2).card, inter⟩
          if best.rank < found.rank then found else best) best = best := by
    intro l best hl
    induction l with
    | nil => rfl
    | cons e l ih =>
      rw [foldl_cons]
      rw [if_pos (hl e mem_cons_self)]
      exact ih fun e' he' => hl e' (mem_cons_of_mem _ he')
  have hother : ∀ e ∈ l ++ l', (members ∩ e.2).card = 0 := by
    intro e he
    by_contra hne
    have heq := (hmeets e (by
      rcases List.mem_append.1 he with he | he
      · exact mem_append_left _ he
      · exact mem_append_right _ (mem_cons_of_mem _ he))).1 hne
    rcases List.mem_append.1 he with he | he
    · exact hold.2.2 e.1 (mem_map_of_mem he) hub mem_cons_self heq
    · exact hold.2.1.1 (List.mem_map.2 ⟨e, he, heq⟩)
  have hcard : (members ∩ tours).card ≠ 0 := (hmeets (hub, tours) hin).2 rfl
  unfold bestHubMatch
  rw [foldl_append, hskip l _ fun e he => hother e (mem_append_left _ he), foldl_cons]
  rw [if_neg hcard, if_pos ?_]
  · exact hskip l' _ fun e he => hother e (mem_append_right _ he)
  · -- any overlap is better than none
    left
    have hinter : 0 < (members ∩ tours).card := Nat.pos_of_ne_zero hcard
    have hunion : 0 < (members ∪ tours).card :=
      lt_of_lt_of_le hinter (Finset.card_le_card (Finset.inter_subset_left.trans Finset.subset_union_left))
    positivity

theorem sharesEnough_iff {a b : Finset String} (h : (a ∩ b).card ≠ 0) :
    sharesEnough a b = true ↔ (3 : ℚ) / 10 ≤ (a ∩ b).card / (a ∪ b).card := by
  have hunion : 0 < (a ∪ b).card := lt_of_lt_of_le (Nat.pos_of_ne_zero h)
    (Finset.card_le_card (Finset.inter_subset_left.trans Finset.subset_union_left))
  unfold sharesEnough
  rw [Bool.and_eq_true, decide_eq_true_eq, decide_eq_true_eq, div_le_div_iff₀ (by norm_num) (by exact_mod_cast hunion)]
  constructor
  · rintro ⟨-, hle⟩
    have : ((3 * (a ∪ b).card : ℕ) : ℚ) ≤ ((10 * (a ∩ b).card : ℕ) : ℚ) := by exact_mod_cast hle
    push_cast at this
    linarith
  · intro hle
    refine ⟨hunion, ?_⟩
    have : ((3 * (a ∪ b).card : ℕ) : ℚ) ≤ ((10 * (a ∩ b).card : ℕ) : ℚ) := by
      push_cast
      linarith
    exact_mod_cast this

theorem Home.overlapHub (h : Home db f hub name) :
    db.overlapHub f = if sharesEnough f.tours (db.toursIn hub) then some hub else none := by
  have hcard := h.meets.2 rfl
  obtain ⟨x, hx, -⟩ := h.stored
  have hin : (hub, db.toursIn hub) ∈ db.oldHubs := by
    refine mem_oldHubs.2 ⟨⟨x, hx⟩, rfl, Nat.pos_of_ne_zero fun hzero => hcard ?_⟩
    rw [Finset.card_eq_zero.1 hzero, Finset.inter_empty]
    rfl
  have hkeys : (db.oldHubs.map Prod.fst).Nodup := by
    refine List.Nodup.sublist (List.filter_sublist.map _) ?_
    rw [map_map]
    exact db.hubs.nodup
  have hmeets : ∀ e ∈ db.oldHubs, (f.tours ∩ e.2).card ≠ 0 ↔ e.1 = hub := by
    intro e he
    obtain ⟨-, heq, -⟩ := mem_oldHubs.1 he
    rw [heq]
    exact h.meets
  have hbest := bestHubMatch_single hin hkeys hmeets
  unfold Db.overlapHub
  rw [hbest]
  by_cases henough : sharesEnough f.tours (db.toursIn hub) = true
  · rw [if_pos henough]
    exact Option.filter_eq_some_iff.2 ⟨rfl, decide_eq_true ((sharesEnough_iff hcard).1 henough)⟩
  · rw [if_neg henough]
    refine Option.filter_eq_none_iff.2 fun _ _ hle => henough ((sharesEnough_iff hcard).2 ?_)
    exact of_decide_eq_true hle

variable {st : Resolving}

theorem resolve_kept {W : Mint} (h : Home db f hub name) (hst : st.hubs = db.hubs)
    (hkept : sharesEnough f.tours (db.toursIn hub) = true ∨ namedHub db.hubs f.name st.given = some hub) :
    resolve W db st f = st.add f hub name := by
  obtain ⟨x, hx, rfl⟩ := h.stored
  have hover := h.overlapHub
  by_cases henough : sharesEnough f.tours (db.toursIn hub) = true
  · rw [if_pos henough] at hover
    rw [resolve_of_overlap hover, hx]
    rfl
  · have hnamed := hkept.resolve_left henough
    obtain ⟨y, hy, hname, -⟩ := namedHub_eq_some hnamed
    rw [if_neg henough] at hover
    rw [resolve_of_named hover (hst ▸ hnamed), ← hname, Option.some.inj (hy.symm.trans hx)]

theorem Home.resolve_some {W : Mint} {hub' : String} (h : Home db f hub name) (hst : st.hubs = db.hubs)
    (hnot : ¬sharesEnough f.tours (db.toursIn hub) = true) (hnamed : namedHub db.hubs f.name st.given = some hub') :
    resolve W db st f = st.add f hub' f.name := by
  have hover := h.overlapHub
  rw [if_neg hnot] at hover
  exact resolve_of_named hover (hst ▸ hnamed)

theorem Home.resolve_none {W : Mint} (h : Home db f hub name) (hst : st.hubs = db.hubs)
    (hnot : ¬sharesEnough f.tours (db.toursIn hub) = true) (hnamed : namedHub db.hubs f.name st.given = none) :
    (resolve W db st f).created = st.created + 1 := by
  have hover := h.overlapHub
  rw [if_neg hnot] at hover
  rw [resolve_of_new hover (hst ▸ hnamed)]

theorem resolve_of_kept (W : Mint) {fs : List Family} {es : List (String × String × String)}
    (h : List.Forall₂ (fun f e => e.1 = f.key ∧ Home db f e.2.1 e.2.2) fs es) (st : Resolving) (hst : st.hubs = db.hubs)
    (hkept : db.keptFrom st.given fs = true) : fs.foldl (resolve W db) st = ⟨db.hubs, st.resolved ++ es, st.created⟩ := by
  induction h generalizing st with
  | nil =>
    obtain ⟨hubs, resolved, created⟩ := st
    subst hst
    rw [append_nil]
    rfl
  | @cons f e fs es hhead _ ih =>
    obtain ⟨hkey, hhome⟩ := hhead
    unfold Db.keptFrom at hkept
    rw [hhome.homeOf] at hkept
    rw [Bool.and_eq_true, Bool.or_eq_true, decide_eq_true_eq] at hkept
    obtain ⟨hone, hrest⟩ := hkept
    have hfold := ih (st.add f e.2.1 e.2.2) hst (by rw [given_add]; exact hrest)
    rw [foldl_cons, resolve_kept hhome hst hone, hfold]
    show (⟨db.hubs, (st.resolved ++ [(f.key, e.2.1, e.2.2)]) ++ es, st.created⟩ : Resolving) = _
    rw [← hkey, append_assoc]
    rfl

theorem kept_of_resolve (W : Mint) {fs : List Family} {es : List (String × String × String)}
    (h : List.Forall₂ (fun f e => e.1 = f.key ∧ Home db f e.2.1 e.2.2) fs es) (st : Resolving) (hst : st.hubs = db.hubs)
    (hcreated : (fs.foldl (resolve W db) st).created = st.created)
    (hhubs : (fs.foldl (resolve W db) st).resolved.map (fun e => e.2.1) = st.given ++ es.map fun e => e.2.1) :
    db.keptFrom st.given fs = true := by
  induction h generalizing st with
  | nil => rfl
  | @cons f e fs es hhead _ ih =>
    obtain ⟨hkey, hhome⟩ := hhead
    rw [foldl_cons] at hcreated hhubs
    obtain ⟨hle, l, hl⟩ := resolve_later W db fs (resolve W db st f)
    have hone : sharesEnough f.tours (db.toursIn e.2.1) = true ∨
        namedHub db.hubs f.name st.given = some e.2.1 := by
      by_cases henough : sharesEnough f.tours (db.toursIn e.2.1) = true
      · exact Or.inl henough
      · right
        cases hnamed : namedHub db.hubs f.name st.given with
        | none =>
          have := hhome.resolve_none (W := W) hst henough hnamed
          omega
        | some hub =>
          rw [hl, hhome.resolve_some hst henough hnamed] at hhubs
          have hgiven := given_add st f hub f.name
          unfold Resolving.given at hgiven
          rw [map_append, hgiven, append_assoc] at hhubs
          rw [(List.cons.inj (append_cancel_left hhubs)).1]
    rw [resolve_kept hhome hst hone] at hcreated hhubs
    unfold Db.keptFrom
    rw [hhome.homeOf]
    rw [Bool.and_eq_true, Bool.or_eq_true, decide_eq_true_eq]
    refine ⟨hone, ?_⟩
    rw [← given_add st f e.2.1 e.2.2]
    refine ih (st.add f e.2.1 e.2.2) hst hcreated ?_
    rw [hhubs, given_add, append_assoc]
    rfl

end homes

/-! ## Two runs -/

section twice

variable {W : Mint} {P : Plan} {db : Db}

theorem finish_hub {resolved : List (String × String × String)} {r : Route} {key hub name : String}
    (hkey : P.familyOf.get? r.tourId = some key) (hhub : resolved.lookup key = some (hub, name)) :
    (finish P resolved r).hubId = some hub := by
  unfold finish
  rw [hkey, Option.bind_some, hhub]

theorem finish_identity (resolved : List (String × String × String)) (r : Route) :
    (finish P resolved r).identity = r.identity := by
  unfold finish
  split <;> rfl

theorem finishedBy_hub {resolved : List (String × String × String)} {i : Identity} {r : Route} {key hub name : String}
    (hget : (finishedBy P resolved).get? i = some r) (hkey : P.familyOf.get? i.tourId = some key)
    (hhub : resolved.lookup key = some (hub, name)) : r.hubId = some hub := by
  obtain ⟨hin, hi⟩ := Table.mem_of_dictBy hget
  obtain ⟨r₀, -, rfl⟩ := List.mem_map.1 hin
  rw [finish_identity] at hi
  subst hi
  exact finish_hub hkey hhub

theorem exists_finishedBy (resolved : List (String × String × String)) {r : Route} (hr : r ∈ P.routes) :
    ∃ r', (finishedBy P resolved).get? r.identity = some r' := by
  have hin : finish P resolved r ∈ P.routes.map (finish P resolved) := mem_map_of_mem hr
  obtain ⟨r', hr'⟩ := Table.exists_of_dictBy Route.identity hin
  rw [finish_identity] at hr'
  exact ⟨r', hr'⟩

theorem detect_shows (hdb : db.Kept) (huuids : ∀ r ∈ P.routes, ':' ∉ r.tourId.toList) :
    (detect W P db).1.hubs = (resolveAll W db P.families).hubs ∧
      (detect W P db).1.Shows (finishedBy P (resolveAll W db P.families).resolved) := by
  obtain ⟨routes, hsome, hshows⟩ := shows_write hdb
    (finished_finishedBy huuids (resolveAll W db P.families).resolved) (resolveAll W db P.families).hubs
  unfold detect
  dsimp only
  rw [hsome]
  exact ⟨rfl, hshows⟩

theorem detect_report (hdb : db.Kept) (huuids : ∀ r ∈ P.routes, ':' ∉ r.tourId.toList) :
    (detect W P db).2 = some ⟨(db.toInsert (finishedBy P (resolveAll W db P.families).resolved)).length,
      (db.toSupersede (finishedBy P (resolveAll W db P.families).resolved)).length,
      (resolveAll W db P.families).created⟩ := by
  obtain ⟨routes, hsome, -⟩ := shows_write hdb
    (finished_finishedBy huuids (resolveAll W db P.families).resolved) (resolveAll W db P.families).hubs
  unfold detect
  dsimp only
  rw [hsome]

theorem detect_homes (hdb : db.Kept) (huuids : ∀ r ∈ P.routes, ':' ∉ r.tourId.toList) (hP : P.Sound) :
    List.Forall₂ (fun f e => e.1 = f.key ∧ Home (detect W P db).1 f e.2.1 e.2.2) P.families
      (resolveAll W db P.families).resolved := by
  have hres := resolved_all W db P.families
  obtain ⟨hhubs, hshows⟩ := detect_shows (W := W) hdb huuids
  have hkeys : ((resolveAll W db P.families).resolved.map Prod.fst).Nodup := by
    rw [hres.keys]
    exact hP.keys
  refine List.forall₂_iff_get.2 ⟨?_, fun i hi hi' => ?_⟩
  · rw [← length_map Family.key, ← hres.keys, length_map]
  · obtain ⟨f, hf⟩ : ∃ f, P.families.get ⟨i, hi⟩ = f := ⟨_, rfl⟩
    obtain ⟨e, he⟩ : ∃ e, (resolveAll W db P.families).resolved.get ⟨i, hi'⟩ = e := ⟨_, rfl⟩
    have hfin : f ∈ P.families := hf ▸ get_mem _ _
    have hein : e ∈ (resolveAll W db P.families).resolved := he ▸ get_mem _ _
    have hkey : e.1 = f.key := by
      have := congrArg (fun l => l[i]?) hres.keys
      simp only [List.getElem?_map] at this
      rw [List.getElem?_eq_getElem hi', List.getElem?_eq_getElem hi] at this
      rw [← he, ← hf]
      exact Option.some.inj this
    rw [hf, he]
    have hlookup : (resolveAll W db P.families).resolved.lookup f.key = some e.2 := by
      rw [← hkey]
      exact (Table.lookup_eq_some_iff hkeys).2 hein
    refine ⟨hkey, hhubs ▸ hres.named e hein, fun k row hcur ht => ?_, ?_⟩
    · obtain ⟨r, hget, hun⟩ := hshows.rows k row hcur
      have hhub := finishedBy_hub hget ((hP.tours f hfin _).1 ht) hlookup
      simp only [unchanged, Bool.and_eq_true, decide_eq_true_eq] at hun
      rw [← hun.1.2, hhub]
    · obtain ⟨r, hr, ht⟩ := hP.routed f hfin
      obtain ⟨r', hr'⟩ := exists_finishedBy (resolveAll W db P.families).resolved hr
      obtain ⟨k, row, hcur, hid⟩ := hshows.all _ r' hr'
      exact ⟨k, row, hcur, hid ▸ ht⟩

theorem lookup_of_key {l : List (String × String × String)} {k : String} (h : k ∈ l.map Prod.fst) :
    ∃ e, l.lookup k = some e := by
  rw [← Option.isSome_iff_exists, lookup_isSome_iff]
  obtain ⟨e, he, rfl⟩ := List.mem_map.1 h
  exact ⟨e, he, beq_self_eq_true _⟩

theorem hubs_eq_of_lookup {l l' : List (String × String × String)} (hkeys : l.map Prod.fst = l'.map Prod.fst)
    (hl : (l.map Prod.fst).Nodup) (h : ∀ k ∈ l.map Prod.fst, (l.lookup k).map Prod.fst = (l'.lookup k).map Prod.fst) :
    l.map (fun e => e.2.1) = l'.map fun e => e.2.1 := by
  have hread : ∀ m : List (String × String × String), (m.map Prod.fst).Nodup →
      m.map (fun e => some e.2.1) = (m.map Prod.fst).map fun k => (m.lookup k).map Prod.fst := by
    intro m hm
    rw [map_map]
    refine map_congr_left fun e he => ?_
    rw [Function.comp, (Table.lookup_eq_some_iff hm).2 he]
    rfl
  have heq : l.map (fun e => some e.2.1) = l'.map fun e => some e.2.1 := by
    rw [hread l hl, hread l' (hkeys ▸ hl), ← hkeys]
    exact map_congr_left h
  refine List.map_injective_iff.2 (Option.some_injective String) ?_
  rw [map_map, map_map]
  exact heq

theorem detect_again_iff (hdb : db.Kept) (huuids : ∀ r ∈ P.routes, ':' ∉ r.tourId.toList) (hP : P.Sound) (W' : Mint) :
    (detect W' P (detect W P db).1).2 = some ⟨0, 0, 0⟩ ↔ (detect W P db).1.keptFrom [] P.families = true := by
  have hhomes := detect_homes (W := W) hdb huuids hP
  obtain ⟨-, hshows⟩ := detect_shows (W := W) hdb huuids
  have hfinished := finished_finishedBy huuids (resolveAll W' (detect W P db).1 P.families).resolved
  rw [detect_report hshows.kept huuids]
  constructor
  · intro hquiet
    have hquiet := Option.some.inj hquiet
    have hwritten : (detect W P db).1.toInsert
        (finishedBy P (resolveAll W' (detect W P db).1 P.families).resolved) = [] :=
      List.length_eq_zero_iff.1 (congrArg Report.routesWritten hquiet)
    have hcreated : (resolveAll W' (detect W P db).1 P.families).created = 0 := congrArg Report.hubsCreated hquiet
    have hres := resolved_all W db P.families
    have hres' := resolved_all W' (detect W P db).1 P.families
    refine kept_of_resolve W' hhomes ⟨(detect W P db).1.hubs, [], 0⟩ rfl hcreated ?_
    show (resolveAll W' (detect W P db).1 P.families).resolved.map (fun e => e.2.1) = _
    refine hubs_eq_of_lookup (hres'.keys.trans hres.keys.symm) (hres'.keys ▸ hP.keys) fun k hk => ?_
    -- a Route of the family is in both hubs
    rw [hres'.keys] at hk
    obtain ⟨f, hf, rfl⟩ := List.mem_map.1 hk
    obtain ⟨r, hr, ht⟩ := hP.routed f hf
    have hfam := (hP.tours f hf _).1 ht
    obtain ⟨e, he⟩ := lookup_of_key (hres.keys ▸ mem_map_of_mem hf)
    obtain ⟨e', he'⟩ := lookup_of_key (hres'.keys ▸ mem_map_of_mem hf)
    obtain ⟨r', hr'⟩ := exists_finishedBy (resolveAll W' (detect W P db).1 P.families).resolved hr
    obtain ⟨r₀, hr₀, hsame⟩ := hshows.hub_eq hfinished hwritten hr'
    rw [he, he', Option.map_some, Option.map_some, ← finishedBy_hub hr' hfam he', ← finishedBy_hub hr₀ hfam he]
    exact hsame
  · intro hkept
    have hagain : resolveAll W' (detect W P db).1 P.families =
        ⟨(detect W P db).1.hubs, (resolveAll W db P.families).resolved, 0⟩ :=
      resolve_of_kept W' hhomes ⟨(detect W P db).1.hubs, [], 0⟩ rfl hkept
    obtain ⟨hinsert, hsupersede⟩ := hshows.diff (finished_finishedBy huuids _)
    rw [hagain]
    rw [hinsert, hsupersede]
    rfl

end twice

/-- Whatever rankings were seen before: a second run over the same rows inserts no Route, supersedes none and creates no
hub exactly when, after the first one, each family shares enough with the tours of its hub, or finds the hub as the oldest
free one of its name. -/
theorem second_run_quiet_iff (events : List Event) (W W' : Mint) (R R' : Ranking) (hrows : R'.rows.Perm R.rows) :
    let after := (runRouteDetection W R (run step Db.empty events)).1
    (runRouteDetection W' R' after).2 = some ⟨0, 0, 0⟩ ↔ after.keptFrom [] (plan R).families = true := by
  intro after
  show (detect W' (plan R') after).2 = _ ↔ _
  rw [plan_perm hrows]
  exact detect_again_iff (kept_run events) (uuids_plan R) (plan_sound R) W'

/-- The four tours of one journey find their hub again. -/
theorem second_run_quiet_together :
    (runRouteDetection longerId together (runRouteDetection longerId together (run step Db.empty [])).1).2 =
      some ⟨0, 0, 0⟩ :=
  (second_run_quiet_iff [] longerId longerId together together (List.Perm.refl _)).2 (by decide +kernel)

/-- One of the four tours is turned round, and the others take one day. -/
def turned : Ranking where
  rows := [⟨"t", "a", "Q", "walk", 1⟩, ⟨"s", "a", "P", "walk", 2⟩] ++
    ["b", "c", "d"].flatMap fun tour => [⟨"s", tour, "P", "walk", 1⟩, ⟨"t", tour, "Q", "walk", 1⟩]
  distinct := by decide
  uuids := by decide

/-- Only one of the four tours has a Route left, so that the family is not found in its own hub, and the hub's name is that
of the old journey: the same ranking makes a hub again. -/
theorem hub_created_again :
    let after := run step Db.empty [.detect longerId together, .detect longerId turned]
    (runRouteDetection longerId turned after).2 ≠ some ⟨0, 0, 0⟩ := by
  decide +kernel

end CisApp.Routes
