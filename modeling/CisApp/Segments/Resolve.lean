import CisApp.Segments.Repeat

/-!
# Old ids keep resolving

An id that gives way leaves an alias row, and readers follow the rows to the end
(`Store.resolve`).  Each run advances every row once, so while alias old ids have no
members and targets are no alias old ids (`Flat`), every chain is one row long and
nothing is lost.  `Careful` is the condition on the state before a run that keeps
it so: claimed ids are given up, and a tour of unknown country mints no alias old
id.  `careful_resolves` is about every moment of every such sequence; `Tracked`
remembers the rows there ever were of atoms that stayed.
-/

namespace CisApp.Segments

open Lib List Option

variable {T : Text} {sha : String → String} {rejected : String → Finset String → Bool}
  {C : Catalog} {S : Store} {tour : String}

/-! ## Chains -/

/-- Zero or more rows of `atom_segment_alias` lead from one id to the other. -/
def Leads (aliases : Table String String) : String → String → Prop :=
  Relation.ReflTransGen fun old canonical => aliases.get? old = some canonical

/-- A Segment with members, or the start of a chain that ends at one. -/
def Resolves (S : Store) (s : String) : Prop :=
  S.hasMembers s = true ∨
    ∃ r, Leads S.aliases s r ∧ S.aliases.get? r = none ∧ S.hasMembers r = true

/-- `resolve_segment_aliases`: an id without members is followed, `fuel` rows at most. -/
def Store.resolve (S : Store) : Nat → String → String
  | 0, s => s
  | fuel + 1, s =>
    if S.hasMembers s then s
    else
      match S.aliases.get? s with
      | some canonical => if canonical = s then s else S.resolve fuel canonical
      | none => s

/-- Alias old ids have no members, and targets are none of them. -/
structure Flat (S : Store) : Prop where
  keys : ∀ k c, S.aliases.get? k = some c → S.hasMembers k = false
  ends : ∀ k c, S.aliases.get? k = some c → S.aliases.get? c = none
  linked : S.Linked

/-! ## The alias table -/

theorem get?_upserts_of_not_mem {rows : List (String × String)} {t : Table String String} {k : String}
    (h : k ∉ rows.map Prod.fst) : (rows.foldl (fun t e => t.upsert e.1 e.2) t).get? k = t.get? k := by
  induction rows generalizing t with
  | nil => rfl
  | cons e rows ih =>
    rw [map_cons, mem_cons, not_or] at h
    rw [foldl_cons, ih h.2, Table.get?_upsert, if_neg h.1]

theorem get?_upserts_of_mem {rows : List (String × String)} {t : Table String String} {k c : String}
    (h : (k, c) ∈ rows) (hone : ∀ c', (k, c') ∈ rows → c' = c) :
    (rows.foldl (fun t e => t.upsert e.1 e.2) t).get? k = some c := by
  induction rows generalizing t with
  | nil => cases h
  | cons e rows ih =>
    rw [foldl_cons]
    by_cases hin : ∃ c', (k, c') ∈ rows
    · obtain ⟨c', hc'⟩ := hin
      rw [hone c' (mem_cons_of_mem _ hc')] at hc'
      exact ih hc' fun c' h' => hone c' (mem_cons_of_mem _ h')
    · have hk : k ∉ rows.map Prod.fst := fun hk => by
        obtain ⟨e', he', rfl⟩ := mem_map.1 hk
        exact hin ⟨e'.2, he'⟩
      rcases mem_cons.1 h with rfl | h
      · rw [get?_upserts_of_not_mem hk, Table.get?_upsert, if_pos rfl]
      · exact absurd ⟨c, h⟩ hin

section aliases

variable {A : Table String String} {rows : List (String × String)}
  (hone : ∀ k c c', (k, c) ∈ rows → (k, c') ∈ rows → c = c')
  (htarget : ∀ e ∈ rows, e.2 ∉ rows.map Prod.fst ∧ A.get? e.2 = none)
  (hends : ∀ k c, A.get? k = some c → A.get? c = none)

include hone htarget hends

theorem get?_writeAliases (k : String) : (∀ c, (k, c) ∈ rows → (writeAliases A rows).get? k = some c) ∧
      (k ∉ rows.map Prod.fst → ∀ c, A.get? k = some c → (∀ d, (c, d) ∈ rows → (writeAliases A rows).get? k = some d) ∧
          (c ∉ rows.map Prod.fst → (writeAliases A rows).get? k = some c)) ∧
      (k ∉ rows.map Prod.fst → A.get? k = none → (writeAliases A rows).get? k = none) := by
  by_cases hnil : rows = []
  · subst hnil
    refine ⟨fun c h => absurd h not_mem_nil, fun _ c hc => ⟨fun d h => absurd h not_mem_nil,
      fun _ => hc⟩, fun _ h => h⟩
  -- the table after the upserts, and one hop on
  generalize hB : rows.foldl (fun t e => t.upsert e.1 e.2) A = B
  have hnew : ∀ k c, (k, c) ∈ rows → B.get? k = some c := fun k c h => by
    rw [← hB]
    exact get?_upserts_of_mem h fun c' h' => hone k c' c h' h
  have hold : ∀ k, k ∉ rows.map Prod.fst → B.get? k = A.get? k := fun k h => by
    rw [← hB]
    exact get?_upserts_of_not_mem h
  have hstop : ∀ k c, (k, c) ∈ rows → B.get? c = none := fun k c h => by
    rw [hold c (htarget _ h).1]
    exact (htarget _ h).2
  have hget : ∀ k c d, B.get? k = some c → (B.get? c).getD c = d → B.get? d = none →
      (writeAliases A rows).get? k = some d := by
    intro k c d hk hc hd
    have hne : k ≠ d := by
      rintro rfl
      rw [hk] at hd
      cases hd
    unfold writeAliases advance
    rw [if_neg (by simpa using hnil), hB, Table.get?_delete, Table.get?_update, hk]
    simp [hc, hne]
  refine ⟨fun c h => ?_, fun hk c hc => ⟨fun d h => ?_, fun hck => ?_⟩, fun hk hn => ?_⟩
  · refine hget k c c (hnew k c h) ?_ (hstop k c h)
    rw [hstop k c h]
    rfl
  · refine hget k c d ((hold k hk).trans hc) ?_ (hstop c d h)
    rw [hnew c d h]
    rfl
  · have hcn : B.get? c = none := (hold c hck).trans (hends k c hc)
    refine hget k c c ((hold k hk).trans hc) ?_ hcn
    rw [hcn]
    rfl
  · unfold writeAliases advance
    rw [if_neg (by simpa using hnil), hB, Table.get?_delete, Table.get?_update, hold k hk, hn]
    rfl

theorem writeAliases_cases {k d : String} (h : (writeAliases A rows).get? k = some d) :
    (k, d) ∈ rows ∨ k ∉ rows.map Prod.fst ∧ ∃ c, A.get? k = some c ∧ ((c, d) ∈ rows ∨ d = c ∧ c ∉ rows.map Prod.fst) := by
  obtain ⟨h1, h2, h3⟩ := get?_writeAliases hone htarget hends k
  by_cases hk : k ∈ rows.map Prod.fst
  · obtain ⟨e, he, rfl⟩ := mem_map.1 hk
    rw [h1 e.2 he] at h
    rw [← Option.some.inj h]
    exact Or.inl he
  · right
    refine ⟨hk, ?_⟩
    cases hA : A.get? k with
    | none =>
      rw [h3 hk hA] at h
      cases h
    | some c =>
      refine ⟨c, rfl, ?_⟩
      by_cases hc : c ∈ rows.map Prod.fst
      · obtain ⟨e, he, rfl⟩ := mem_map.1 hc
        rw [(h2 hk _ hA).1 e.2 he] at h
        rw [← Option.some.inj h]
        exact Or.inl he
      · rw [(h2 hk _ hA).2 hc] at h
        exact Or.inr ⟨(Option.some.inj h).symm, hc⟩

end aliases

/-! ## One run -/

/-- The condition on the state before a run. -/
def Careful (T : Text) (sha : String → String) (rejected : String → Finset String → Bool)
    (w : World) : Act → Prop
  | .run tour => ∀ derived, derivedSegments T sha w.catalog w.store tour rejected = .ok derived →
      GivesUp derived (assigned T w.catalog w.store tour) ∧
        (T.countryNorm (tourCountry w.catalog tour) = "" →
          ∀ s ∈ derived, w.store.aliases.get? s.id = none)
  | .edit _ => True

theorem hasMembers_of_claimed {i : String} (h : i ∈ claimed T C S tour) : S.hasMembers i = true := by
  rcases mem_append.1 h with h | h
  · obtain ⟨a, -, hai⟩ := mem_filterMap.1 h
    exact hasMembers_of_assigned hai
  · obtain ⟨x, hx, rfl⟩ := mem_map.1 h
    obtain ⟨s, -, -, hs, hxs⟩ := mem_pseudoAtoms hx
    rw [hxs, storedId_pseudoId]
    exact hs

section step

variable {derived : List Segment} {P : Plan} {S' : Store}
  (hd : derivedSegments T sha C S tour rejected = .ok derived)
  (hg : Guarded T C S (T.countryNorm (tourCountry C tour)) (claimed T C S tour)
    (keptSegments derived (assigned T C S tour))
    (flatten (settled derived (assigned T C S tour))) P)
  (hgives : GivesUp derived (assigned T C S tour))
  (hfresh : T.countryNorm (tourCountry C tour) = "" → ∀ s ∈ derived, S.aliases.get? s.id = none)
  (hflat : Flat S)

include hd hg hfresh hflat

theorem finalId_not_alias {s : Segment} (hs : s ∈ derived)
    (hwritten : hasReal s = true ∨ ∃ p, (flatten (settled derived (assigned T C S tour))).get? p =
      some ((granted derived (assigned T C S tour)).ids s.id)) :
    S.aliases.get? (finalId derived (assigned T C S tour) P s.id) = none := by
  by_cases hcl : (granted derived (assigned T C S tour)).ids s.id ∈ claimed T C S tour
  · -- a claimed id has members
    unfold finalId
    rw [newId_of_claimed hg hcl]
    by_contra hne
    obtain ⟨c, hc⟩ := ne_none_iff_exists'.1 hne
    have hmem := hasMembers_of_claimed hcl
    rw [hflat.keys _ c hc] at hmem
    cases hmem
  · have hun := mem_writtenUnclaimed hs hwritten hcl
    have hown : (granted derived (assigned T C S tour)).ids s.id = s.id := by
      rcases (granted_spec derived (assigned T C S tour)).source s.id (mem_map_of_mem hs) with
        h | h
      · exact h
      · obtain ⟨s', hs', -, a, ha, hap⟩ := held_pos.1 (mem_claims.1 h).holds
        exact absurd (mem_claimed hd hs' ha hap) hcl
    unfold finalId
    rcases newId_cases P.remints ((granted derived (assigned T C S tour)).ids s.id) with hsame | hnew
    · rw [hsame]
      by_cases hcountry : T.countryNorm (tourCountry C tour) = ""
      · rw [hown]
        exact hfresh hcountry s hs
      · -- with a known country the guard mints an alias old id again
        by_contra hne
        have helse : belongsElsewhere T C S (T.countryNorm (tourCountry C tour))
            ((granted derived (assigned T C S tour)).ids s.id) = true := by
          unfold belongsElsewhere
          rw [isSome_iff_ne_none.2 hne, Bool.or_true, Bool.and_true]
          simpa using hcountry
        have hin := newId_mem_of_key (hg.elsewhere _ hun helse)
        rw [hsame] at hin
        exact hne (hg.fresh _ hin).2.2.2
    · exact (hg.fresh _ hnew).2.2.2

include hgives

theorem aliasRows_target {e : String × String} (he : e ∈ P.aliasRows) :
    e.2 ∉ P.aliasRows.map Prod.fst ∧ S.aliases.get? e.2 = none := by
  refine ⟨aliasRows_no_chain hg hgives hflat.linked e he, ?_⟩
  obtain ⟨c, hc, hne, heq⟩ := (mem_aliasRows hg hgives).1 he
  obtain ⟨s, hs, rfl⟩ := mem_map.1 hc.mem
  rw [heq]
  refine finalId_not_alias hd hg hfresh hflat hs (Or.inr ⟨e.1, ?_⟩)
  rw [flatten_eq hgives, get?_settled]
  exact ⟨s.id, hc, rfl, hne.symm⟩

omit hd hfresh in
theorem aliasRows_key {e : String × String} (he : e ∈ P.aliasRows) : S.aliases.get? e.1 = none := by
  obtain ⟨c, hc, -, -⟩ := (mem_aliasRows hg hgives).1 he
  obtain ⟨s, -, -, a, -, hap⟩ := held_pos.1 hc.holds
  by_contra hne
  obtain ⟨d, hd'⟩ := ne_none_iff_exists'.1 hne
  have hmem := hasMembers_of_assigned hap
  rw [hflat.keys _ d hd'] at hmem
  cases hmem

theorem Written.aliases_get? (hw : Written T C S tour P S') (k : String) :
    (∀ c, (k, c) ∈ P.aliasRows → S'.aliases.get? k = some c) ∧
      (k ∉ P.aliasRows.map Prod.fst → ∀ c, S.aliases.get? k = some c →
        (∀ d, (c, d) ∈ P.aliasRows → S'.aliases.get? k = some d) ∧
          (c ∉ P.aliasRows.map Prod.fst → S'.aliases.get? k = some c)) ∧
      (k ∉ P.aliasRows.map Prod.fst → S.aliases.get? k = none → S'.aliases.get? k = none) := by
  rw [hw.aliases]
  exact get?_writeAliases (fun k c c' => aliasRows_unique hg hgives)
    (fun e he => aliasRows_target hd hg hgives hfresh hflat he) hflat.ends k

theorem Written.not_under_key (hw : Written T C S tour P S') {k a : String}
    (hr : (k, a) ∈ S'.members) : k ∉ P.aliasRows.map Prod.fst ∧ S.aliases.get? k = none := by
  rcases (hw.mem_members (aliasRows_no_chain hg hgives hflat.linked)).1 hr with
    h | ⟨-, hkey, h | ⟨e, he, hk, -⟩⟩
  · obtain ⟨s, hs, hin, hreal, hid⟩ := (mem_memberRows hg).1 h
    rw [show k = _ from hid]
    refine ⟨finalId_not_old hg hgives hflat.linked (mem_map_of_mem hs), ?_⟩
    refine finalId_not_alias hd hg hfresh hflat hs (Or.inl (List.any_eq_true.2 ⟨_, hin, ?_⟩))
    rw [hreal]
    rfl
  · refine ⟨hkey, ?_⟩
    by_contra hne
    obtain ⟨c, hc⟩ := ne_none_iff_exists'.1 hne
    have hmem : S.hasMembers k = true := List.any_eq_true.2 ⟨(k, a), h, by simp⟩
    rw [hflat.keys k c hc] at hmem
    cases hmem
  · rw [show k = e.2 from hk]
    exact aliasRows_target hd hg hgives hfresh hflat he

theorem Written.flat (hw : Written T C S tour P S') : Flat S' := by
  have hcases : ∀ k d, S'.aliases.get? k = some d → (k, d) ∈ P.aliasRows ∨
      k ∉ P.aliasRows.map Prod.fst ∧ ∃ c, S.aliases.get? k = some c ∧
        ((c, d) ∈ P.aliasRows ∨ d = c ∧ c ∉ P.aliasRows.map Prod.fst) := by
    intro k d h
    rw [hw.aliases] at h
    exact writeAliases_cases (fun k c c' => aliasRows_unique hg hgives)
      (fun e he => aliasRows_target hd hg hgives hfresh hflat he) hflat.ends h
  refine ⟨fun k d h => ?_, fun k d h => ?_, hw.linked hflat.linked⟩
  · rw [Bool.eq_false_iff]
    intro hmem
    obtain ⟨r, hr, hrk⟩ := List.any_eq_true.1 hmem
    rw [decide_eq_true_eq] at hrk
    obtain ⟨hkey, hnone⟩ := hw.not_under_key hd hg hgives hfresh hflat (k := r.1) (a := r.2) hr
    rw [hrk] at hkey hnone
    rcases hcases k d h with hin | ⟨-, c, hc, -⟩
    · exact hkey (mem_map_of_mem hin)
    · rw [hnone] at hc
      cases hc
  · -- every target is one of a new row, or an old one that stands
    obtain ⟨-, -, hnone⟩ := hw.aliases_get? hd hg hgives hfresh hflat d
    rcases hcases k d h with hin | ⟨-, c, hc, hin | ⟨rfl, hck⟩⟩
    · obtain ⟨h1, h2⟩ := aliasRows_target hd hg hgives hfresh hflat hin
      exact hnone h1 h2
    · obtain ⟨h1, h2⟩ := aliasRows_target hd hg hgives hfresh hflat hin
      exact hnone h1 h2
    · exact hnone hck (hflat.ends k _ hc)

theorem Written.held (hw : Written T C S tour P S') {r a : String} (ha : stays T C tour a = true)
    (h : (r, a) ∈ S.members ∨ ∃ c, S.aliases.get? r = some c ∧ (c, a) ∈ S.members) :
    (r, a) ∈ S'.members ∨ ∃ c, S'.aliases.get? r = some c ∧ (c, a) ∈ S'.members := by
  have hmem := fun {x} => hw.mem_members (r := x) (aliasRows_no_chain hg hgives hflat.linked)
  obtain ⟨hnew, hold, -⟩ := hw.aliases_get? hd hg hgives hfresh hflat r
  -- rows under an old id move to its target, the others stay
  have hmoved : ∀ c t, (c, t) ∈ P.aliasRows → (c, a) ∈ S.members → (t, a) ∈ S'.members := by
    intro c t he hc
    exact hmem.2 (Or.inr ⟨ha, (aliasRows_target hd hg hgives hfresh hflat he).1, Or.inr ⟨(c, t), he, rfl, hc⟩⟩)
  rcases h with h | ⟨c, hc, h⟩
  · by_cases hk : r ∈ P.aliasRows.map Prod.fst
    · obtain ⟨e, he, rfl⟩ := mem_map.1 hk
      exact Or.inr ⟨e.2, hnew e.2 he, hmoved e.1 e.2 he h⟩
    · exact Or.inl (hmem.2 (Or.inr ⟨ha, hk, Or.inl h⟩))
  · right
    have hr : r ∉ P.aliasRows.map Prod.fst := fun hk => by
      obtain ⟨e, he, rfl⟩ := mem_map.1 hk
      rw [aliasRows_key hg hgives hflat he] at hc
      cases hc
    by_cases hk : c ∈ P.aliasRows.map Prod.fst
    · obtain ⟨e, he, rfl⟩ := mem_map.1 hk
      exact ⟨e.2, (hold hr _ hc).1 e.2 he, hmoved e.1 e.2 he h⟩
    · exact ⟨c, (hold hr c hc).2 hk, hmem.2 (Or.inr ⟨ha, hk, Or.inl h⟩)⟩

end step

/-! ## Runs -/

/-- The world, and every row there was whose atom no run has excluded or deleted since. -/
structure Tracked where
  world : World
  held : List (String × String)

def Tracked.init (C : Catalog) : Tracked := ⟨World.init C, []⟩

def Tracked.step (T : Text) (sha : String → String) (rejected : String → Finset String → Bool)
    (w : Tracked) (act : Act) : Tracked where
  world := w.world.step T sha rejected act
  held :=
    match act with
    | .run tour =>
      match runSegmentMatching T sha rejected w.world.catalog w.world.store tour with
      | .ok (_, S') => (S'.members ++ w.held).filter fun r => stays T w.world.catalog tour r.2
      | .error _ => w.held
    | .edit _ => w.held

/-- The aliases are flat, and each row there was is there still, or one alias on. -/
structure Kept (w : Tracked) : Prop where
  flat : Flat w.world.store
  held : ∀ r a, (r, a) ∈ w.held → (r, a) ∈ w.world.store.members ∨
    ∃ c, w.world.store.aliases.get? r = some c ∧ (c, a) ∈ w.world.store.members

theorem kept_init (C : Catalog) : Kept (Tracked.init C) := by
  refine ⟨⟨fun k c h => ?_, fun k c h => ?_, fun r h => absurd h not_mem_nil⟩,
    fun r a h => absurd h not_mem_nil⟩ <;> cases h

theorem Flat.filter (h : Flat S) (p : String × String → Bool) :
    Flat { S with members := S.members.filter p } := by
  refine ⟨fun k c hk => ?_, h.ends, fun r hr => h.linked r (mem_of_mem_filter hr)⟩
  rw [Bool.eq_false_iff]
  intro hmem
  obtain ⟨r, hr, hrk⟩ := List.any_eq_true.1 hmem
  have : S.hasMembers k = true := List.any_eq_true.2 ⟨r, mem_of_mem_filter hr, hrk⟩
  rw [h.keys k c hk] at this
  cases this

theorem Kept.step {w : Tracked} {act : Act} (h : Kept w) (hc : Careful T sha rejected w.world act) :
    Kept (w.step T sha rejected act) := by
  cases act with
  | edit C => exact ⟨h.flat, h.held⟩
  | run tour =>
    cases hrun : runSegmentMatching T sha rejected w.world.catalog w.world.store tour with
    | error e =>
      have hstep : w.step T sha rejected (.run tour) = w := by
        unfold Tracked.step World.step
        simp only [hrun]
      rw [hstep]
      exact h
    | ok out =>
      obtain ⟨P, S'⟩ := out
      have hstep : w.step T sha rejected (.run tour) = ⟨{ w.world with store := S' },
          (S'.members ++ w.held).filter fun r => stays T w.world.catalog tour r.2⟩ := by
        unfold Tracked.step World.step
        simp only [hrun]
      rw [hstep]
      -- what a row held before the run is afterwards
      have hgo : Flat S' ∧ ∀ r a, stays T w.world.catalog tour a = true →
          ((r, a) ∈ w.world.store.members ∨
            ∃ c, w.world.store.aliases.get? r = some c ∧ (c, a) ∈ w.world.store.members) →
          (r, a) ∈ S'.members ∨ ∃ c, S'.aliases.get? r = some c ∧ (c, a) ∈ S'.members := by
        rcases run_ok hrun with ⟨-, -, -, rfl⟩ | ⟨hplan, hw⟩
        · refine ⟨h.flat.filter _, fun r a ha hr => ?_⟩
          unfold stays at ha
          rw [Bool.and_eq_true] at ha
          rcases hr with hr | ⟨c, hc', hr⟩
          · exact Or.inl (mem_filter.2 ⟨hr, ha.2⟩)
          · exact Or.inr ⟨c, hc', mem_filter.2 ⟨hr, ha.2⟩⟩
        · obtain ⟨derived, hd, -, hg⟩ := planRun_ok hplan
          obtain ⟨hgives, hfresh⟩ := hc derived hd
          exact ⟨hw.flat hd hg hgives hfresh h.flat, fun r a ha hr => hw.held hd hg hgives hfresh h.flat ha hr⟩
      refine ⟨hgo.1, fun r a hr => ?_⟩
      obtain ⟨hin, ha⟩ := mem_filter.1 hr
      rcases mem_append.1 hin with hin | hin
      · exact Or.inl hin
      · exact hgo.2 r a ha (h.held r a hin)

theorem hasMembers_of_mem {s a : String} (h : (s, a) ∈ S.members) : S.hasMembers s = true :=
  List.any_eq_true.2 ⟨(s, a), h, by simp⟩

theorem Flat.leads (h : Flat S) {s r : String} (hsr : Leads S.aliases s r) : s = r ∨ S.aliases.get? s = some r := by
  rcases Relation.ReflTransGen.cases_head hsr with heq | ⟨c, hc, hcr⟩
  · exact Or.inl heq
  · right
    rcases Relation.ReflTransGen.cases_head hcr with rfl | ⟨d, hd, -⟩
    · exact hc
    · rw [h.ends s c hc] at hd
      cases hd

theorem Flat.resolves_of_alias (h : Flat S) {s c : String} (hc : S.aliases.get? s = some c)
    (hmem : S.hasMembers c = true) : Resolves S s ∧ S.hasMembers (S.resolve 20 s) = true := by
  refine ⟨Or.inr ⟨c, Relation.ReflTransGen.single hc, h.ends s c hc, hmem⟩, ?_⟩
  have hne : c ≠ s := by
    rintro rfl
    rw [h.ends c c hc] at hc
    cases hc
  have hres : S.resolve 20 s = c := by
    simp [Store.resolve, h.keys s c hc, hc, hne, hmem]
  rw [hres]
  exact hmem

theorem Kept.resolves {w : Tracked} (h : Kept w) {s r a : String}
    (hsr : Leads w.world.store.aliases s r) (hr : (r, a) ∈ w.held) :
    Resolves w.world.store s ∧ w.world.store.hasMembers (w.world.store.resolve 20 s) = true := by
  rcases h.flat.leads hsr with rfl | hal
  · rcases h.held s a hr with hin | ⟨c, hc, hin⟩
    · have hmem := hasMembers_of_mem hin
      refine ⟨Or.inl hmem, ?_⟩
      have hres : w.world.store.resolve 20 s = s := by simp [Store.resolve, hmem]
      rw [hres]
      exact hmem
    · exact h.flat.resolves_of_alias hc (hasMembers_of_mem hin)
  · rcases h.held r a hr with hin | ⟨c, hc, -⟩
    · exact h.flat.resolves_of_alias hal (hasMembers_of_mem hin)
    · rw [h.flat.ends s r hal] at hc
      cases hc

/-- **Run.**  In every sequence of careful runs from empty tables, at every moment, an id that held
an atom or leads to one that did, and whose atom no run has excluded or deleted since, resolves. -/
theorem careful_resolves (T : Text) (sha : String → String)
    (rejected : String → Finset String → Bool) (C : Catalog) (acts : List Act)
    (h : Along (World.step T sha rejected) (Careful T sha rejected) (World.init C) acts) :
    Always (Tracked.step T sha rejected) (fun w => ∀ s r a, Leads w.world.store.aliases s r →
      (r, a) ∈ w.held → Resolves w.world.store s ∧
        w.world.store.hasMembers (w.world.store.resolve 20 s) = true) (Tracked.init C) acts := by
  have hup : Along (Tracked.step T sha rejected) (fun w act => Careful T sha rejected w.world act)
      (Tracked.init C) acts := (along_map Tracked.world fun _ _ => rfl).1 h
  have hkept : Always (Tracked.step T sha rejected) Kept (Tracked.init C) acts :=
    Along.always (fun w act hw hc => hw.step hc) (kept_init C) hup
  refine hkept.mono fun w hw => ?_
  intro s r a hsr hr
  exact hw.resolves hsr hr

theorem careful_of_free {w : World} {tour : String} (hcountry : T.countryNorm (tourCountry w.catalog tour) ≠ "")
    (h : ((derivedSegments T sha w.catalog w.store tour rejected).toOption.all fun derived =>
      (claims derived (assigned T w.catalog w.store tour)).all fun e =>
        e.2 = e.1 || e.1 ∉ derived.map Segment.id) = true) : Careful T sha rejected w (.run tour) := by
  intro derived hd
  rw [hd] at h
  refine ⟨fun p c hc hne hp => ?_, fun hno => absurd hno hcountry⟩
  have := List.all_eq_true.1 h (p, c) (mem_claims.2 hc)
  rw [Bool.or_eq_true, decide_eq_true_eq, decide_eq_true_eq] at this
  rcases this with heq | hfree
  · exact absurd heq hne
  · exact absurd hp hfree

def visitAt (tour atomId place : String) : String × AtomRow :=
  (atomId, { tourId := tour, place := some place, action := some "visit" })

def threeTours : Table String TourRow :=
  ⟨[("r", { country := some "Japan" }), ("s", { country := some "Japan" }),
    ("t", { country := some "Japan" })], by decide⟩

def cityTours : Catalog :=
  ⟨⟨[visitAt "r" "v" "Kobe Zoo", visitAt "s" "x" "Kobe Tower", visitAt "t" "z" "Kobe"], by decide⟩,
    threeTours, by decide⟩

set_option maxRecDepth 100000 in
/-- The third tour merges the Segments of the other two. -/
theorem careful_resolves_city : Always (Tracked.step Text.ascii id fun _ _ => false)
      (fun w => ∀ s r a, Leads w.world.store.aliases s r → (r, a) ∈ w.held →
        Resolves w.world.store s ∧ w.world.store.hasMembers (w.world.store.resolve 20 s) = true)
      (Tracked.init cityTours) [.run "r", .run "s", .run "t"] :=
  careful_resolves Text.ascii id (fun _ _ => false) cityTours [.run "r", .run "s", .run "t"]
    ⟨careful_of_free (by decide +kernel) (by decide +kernel),
      careful_of_free (by decide +kernel) (by decide +kernel),
      careful_of_free (by decide +kernel) (by decide +kernel), trivial⟩

def cityDigest : String → String :=
  tableDigest [("kobe|visit|Japan", "ce7bc415d14bf8dc"), ("kobe zoo|visit|Japan", "fc42723a5b2bed0f"),
    ("kobe tower|visit|Japan", "8e81f711abb76bb8")]

/-- A first day of the second tour, before and after it is typed as transit. -/
def orientation (activityType : String) : String × AtomRow :=
  ("w", { tourId := "s", place := some "Kobe", action := some "visit for orientation",
          activityType := some activityType })

def cityBefore : Catalog :=
  ⟨⟨[visitAt "r" "v" "Kobe Zoo", orientation "culture", visitAt "s" "x" "Kobe Tower",
    visitAt "t" "z" "Kobe"], by decide⟩, threeTours, by decide⟩

def cityAfter : Catalog :=
  ⟨⟨[visitAt "r" "v" "Kobe Zoo", orientation "transit", visitAt "s" "x" "Kobe Tower",
    visitAt "s" "y" "Kobe Zoo", visitAt "t" "z" "Kobe"], by decide⟩, threeTours, by decide⟩

theorem not_resolves {s : String} (hmem : S.hasMembers s = false) (hal : S.aliases.get? s = none) : ¬ Resolves S s := by
  rintro (h | ⟨r, hsr, -, hr⟩)
  · rw [hmem] at h
    cases h
  · rcases Relation.ReflTransGen.cases_head hsr with rfl | ⟨c, hc, -⟩
    · rw [hmem] at hr
      cases hr
    · rw [hal] at hc
      cases hc

set_option maxRecDepth 100000 in
/-- The zoo's id gives way to the tower's while it stays live; when the two merge the other way,
the opposite aliases erase each other, and the tower's id is lost. -/
theorem resolves_fails_city : ¬ ∀ (sha : String → String), Function.Injective sha →
      ∀ (rejected : String → Finset String → Bool) (C : Catalog) (acts : List Act),
      Always (Tracked.step Text.ascii sha rejected) (fun w => ∀ s r a,
        Leads w.world.store.aliases s r → (r, a) ∈ w.held → Resolves w.world.store s) (Tracked.init C) acts := by
  intro h
  have hsha : Function.Injective cityDigest := tableDigest_injective (by decide) (by decide)
  have hlast := (h cityDigest hsha (fun _ _ => false) cityBefore
    [.run "r", .run "s", .edit cityAfter, .run "s", .run "t"]).run
  have hlost : (fun w : Tracked => !w.world.store.hasMembers "8e81f711abb76bb8" &&
      (w.world.store.aliases.get? "8e81f711abb76bb8").isNone && ("8e81f711abb76bb8", "x") ∈ w.held)
      (run (Tracked.step Text.ascii cityDigest fun _ _ => false) (Tracked.init cityBefore)
        [.run "r", .run "s", .edit cityAfter, .run "s", .run "t"]) = true := by decide +kernel
  simp only [Bool.and_eq_true, Bool.not_eq_true', Option.isNone_iff_eq_none, decide_eq_true_eq] at hlost
  exact not_resolves hlost.1.1 hlost.1.2 (hlast _ _ "x" Relation.ReflTransGen.refl hlost.2)

end CisApp.Segments
