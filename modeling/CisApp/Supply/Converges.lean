import CisApp.Lib.Outcome
import CisApp.Supply.Pull

/-! The consumer converges.

What an entity looked like at a version never changes afterwards (`Views`), so a row, the facts that a pull has read and
Booking itself can be compared by version alone.  Rows never get ahead of what was read, what was read is at least as new
as every event of the batch and every event consumed so far (`Seen`), and a row at the version of Booking holds Booking's
facts.  So the event of the newest version, once consumed, leaves the row as Booking has it (`Core.settled`), whatever
came before it and in whatever order. -/

namespace CisApp.Supply

open List

/-- What each entity looks like at each version: its row in the facts view. -/
abbrev Views := String → Nat → Option Facts

def taken (inbox : Table (String × String) InboxRow) (e : Event) : Bool :=
  (contracts.lookup e.entityType).any fun contract => (inbox.get? (contract, e.id)).isSome

/-- The row is as Booking has the entity. -/
def Matches (x : BookingEntity) (row : Option EntityRow) : Prop :=
  match x.facts with
  | some facts => ∃ r, row = some r ∧ r.appliedVersion = x.version ∧ r.facts = facts ∧ r.active = facts.isActive
  | none => ∀ r, row = some r → r.active = false ∧ r.contentStatus = .unpublished

/-! ## Invariants -/

/-- Booking and its outbox. -/
structure World (supplies : Table String BookingEntity) (outbox : List Event) (views : Views) : Prop where
  current : ∀ id x, supplies.get? id = some x → views id x.version = x.facts
  events : ∀ e ∈ outbox, ∃ x, supplies.get? e.entityId = some x ∧ e.version ≤ x.version ∧ e.entityType = x.entityType
  latest : ∀ e ∈ outbox, ∀ x, supplies.get? e.entityId = some x →
    ∃ e' ∈ outbox, e'.entityId = e.entityId ∧ e'.version = x.version
  ids : ∀ e ∈ outbox, ∀ e' ∈ outbox, e.id = e'.id → e = e'
  seqs : ∀ e ∈ outbox, ∀ e' ∈ outbox, e.feedSeq = e'.feedSeq → e = e'

/-- A row holds the facts of its version; it is off only by its facts or since the entity was found to have left. -/
def RowOk (views : Views) (id : String) (x : BookingEntity) (r : EntityRow) : Prop :=
  r.appliedVersion ≤ x.version ∧ views id r.appliedVersion = some r.facts ∧
    (r.active = false → r.contentStatus = .unpublished) ∧
    (r.active = r.facts.isActive ∨
      r.active = false ∧ ∃ v, r.appliedVersion < v ∧ v ≤ x.version ∧ views id v = none)

/-- The rows and the inbox. -/
structure Core (supplies : Table String BookingEntity) (outbox : List Event) (views : Views) (rows : Table String EntityRow)
    (inbox : Table (String × String) InboxRow) : Prop where
  row : ∀ id r, rows.get? id = some r → ∃ x, supplies.get? id = some x ∧ RowOk views id x r
  inboxed : ∀ k r, inbox.get? k = some r → ∃ e ∈ outbox, e.id = k.2
  settled : ∀ e ∈ outbox, taken inbox e = true → ∀ x, supplies.get? e.entityId = some x → e.version = x.version →
    Matches x (rows.get? e.entityId)

/-- The facts that the pull has of an entity are those of a version that is not older than any row, any event of the
batch and any event consumed. -/
def Seen (supplies : Table String BookingEntity) (outbox : List Event) (views : Views) (events : List Event)
    (facts : Table String (Nat × Facts)) (rows : Table String EntityRow) (inbox : Table (String × String) InboxRow)
    (id : String) : Prop :=
  ∃ x v, supplies.get? id = some x ∧ v ≤ x.version ∧ facts.get? id = (views id v).map (v, ·) ∧
    (∀ e ∈ outbox, e.entityId = id → e ∈ events ∨ taken inbox e = true → e.version ≤ v) ∧
    ∀ r, rows.get? id = some r → r.appliedVersion ≤ v

theorem not_taken_of_fresh {supplies : Table String BookingEntity} {outbox : List Event} {views : Views}
    {rows : Table String EntityRow} {inbox : Table (String × String) InboxRow} (h : Core supplies outbox views rows inbox)
    {e : Event} (hfresh : ∀ e' ∈ outbox, e'.id ≠ e.id) : taken inbox e = false := by
  by_contra htaken
  rw [Bool.not_eq_false] at htaken
  obtain ⟨contract, -, hsome⟩ := (Option.any_eq_true _ _).1 htaken
  obtain ⟨r, hr⟩ := Option.isSome_iff_exists.1 hsome
  obtain ⟨e', he', hid⟩ := h.inboxed _ r hr
  exact hfresh e' he' hid

/-! ## Booking changes -/

section change

variable {supplies : Table String BookingEntity} {outbox : List Event} {views : Views} {e : Event} {facts : Option Facts}

def Views.set (views : Views) (e : Event) (facts : Option Facts) : Views :=
  fun id v => if id = e.entityId ∧ v = e.version then facts else views id v

theorem views_set_of_le (hnew : ∀ x, supplies.get? e.entityId = some x → x.version < e.version) {id : String} {x : BookingEntity}
    (hx : supplies.get? id = some x) {v : Nat} (hv : v ≤ x.version) : views.set e facts id v = views id v := by
  refine if_neg ?_
  rintro ⟨rfl, rfl⟩
  have := hnew x hx
  omega

theorem RowOk.set (hnew : ∀ x, supplies.get? e.entityId = some x → x.version < e.version) {id : String} {x : BookingEntity}
    (hx : supplies.get? id = some x) {r : EntityRow} (h : RowOk views id x r) {x' : BookingEntity} (hle : x.version ≤ x'.version) :
    RowOk (views.set e facts) id x' r := by
  obtain ⟨hver, hview, hcheck, hactive⟩ := h
  refine ⟨hver.trans hle, ?_, hcheck, ?_⟩
  · rw [views_set_of_le hnew hx hver]
    exact hview
  · refine hactive.imp_right fun ⟨hoff, v, hlt, hv, hnone⟩ => ⟨hoff, v, hlt, hv.trans hle, ?_⟩
    rw [views_set_of_le hnew hx hv]
    exact hnone

theorem supplies_set (hnew : ∀ x, supplies.get? e.entityId = some x → x.version < e.version) {id : String} {x : BookingEntity}
    (hx : supplies.get? id = some x) : ∃ x', (supplies.upsert e.entityId ⟨e.entityType, e.version, facts⟩).get? id = some x' ∧
      x.version ≤ x'.version := by
  rw [Table.get?_upsert]
  by_cases hid : id = e.entityId
  · subst hid
    rw [if_pos rfl]
    exact ⟨_, rfl, (hnew x hx).le⟩
  · rw [if_neg hid]
    exact ⟨x, hx, le_refl _⟩

theorem apart_concat {α : Type} {f : Event → α} (h : ∀ a ∈ outbox, ∀ b ∈ outbox, f a = f b → a = b)
    (hfresh : ∀ e' ∈ outbox, f e' ≠ f e) : ∀ a ∈ outbox ++ [e], ∀ b ∈ outbox ++ [e], f a = f b → a = b := by
  intro a ha b hb heq
  rcases List.mem_append.1 ha with ha | ha
  · rcases List.mem_append.1 hb with hb | hb
    · exact h a ha b hb heq
    · rw [List.mem_singleton.1 hb] at heq
      exact absurd heq (hfresh a ha)
  · rcases List.mem_append.1 hb with hb | hb
    · rw [List.mem_singleton.1 ha] at heq
      exact absurd heq.symm (hfresh b hb)
    · rw [List.mem_singleton.1 ha, List.mem_singleton.1 hb]

theorem World.change (h : World supplies outbox views)
    (hnew : ∀ x, supplies.get? e.entityId = some x → x.version < e.version ∧ x.entityType = e.entityType)
    (hfresh : ∀ e' ∈ outbox, e'.id ≠ e.id) (hlast : ∀ e' ∈ outbox, e'.feedSeq < e.feedSeq) :
    World (supplies.upsert e.entityId ⟨e.entityType, e.version, facts⟩) (outbox ++ [e]) (views.set e facts) := by
  have hver : ∀ x, supplies.get? e.entityId = some x → x.version < e.version := fun x hx => (hnew x hx).1
  refine ⟨fun id x hx => ?_, fun e' he' => ?_, fun e' he' x hx => ?_, apart_concat h.ids hfresh,
    apart_concat h.seqs fun e' he' => (hlast e' he').ne⟩
  · rw [Table.get?_upsert] at hx
    split at hx
    · next hid =>
      obtain rfl := Option.some.inj hx
      unfold Views.set
      rw [if_pos ⟨hid, rfl⟩]
    · rw [views_set_of_le hver hx (le_refl _)]
      exact h.current id x hx
  · rw [Table.get?_upsert]
    rcases List.mem_append.1 he' with he' | he'
    · obtain ⟨x, hx, hle, hty⟩ := h.events e' he'
      by_cases hid : e'.entityId = e.entityId
      · rw [if_pos hid]
        rw [hid] at hx
        obtain ⟨hlt, htype⟩ := hnew x hx
        exact ⟨_, rfl, hle.trans hlt.le, hty.trans htype⟩
      · rw [if_neg hid]
        exact ⟨x, hx, hle, hty⟩
    · obtain rfl := List.mem_singleton.1 he'
      rw [if_pos rfl]
      exact ⟨_, rfl, le_refl _, rfl⟩
  · rw [Table.get?_upsert] at hx
    split at hx
    · next hid =>
      obtain rfl := Option.some.inj hx
      exact ⟨e, mem_append_right _ mem_cons_self, hid.symm, rfl⟩
    · next hid =>
      rcases List.mem_append.1 he' with he' | he'
      · obtain ⟨e'', he'', hsame, hv⟩ := h.latest e' he' x hx
        exact ⟨e'', mem_append_left _ he'', hsame, hv⟩
      · exact absurd (congrArg Event.entityId (List.mem_singleton.1 he')) hid

variable {rows : Table String EntityRow} {inbox : Table (String × String) InboxRow}

theorem Core.change (h : Core supplies outbox views rows inbox) (hw : World supplies outbox views)
    (hnew : ∀ x, supplies.get? e.entityId = some x → x.version < e.version)
    (hfresh : ∀ e' ∈ outbox, e'.id ≠ e.id) :
    Core (supplies.upsert e.entityId ⟨e.entityType, e.version, facts⟩) (outbox ++ [e]) (views.set e facts) rows inbox := by
  refine ⟨fun id r hr => ?_, fun k r hk => ?_, fun e' he' htaken x hx hver => ?_⟩
  · obtain ⟨x, hx, hok⟩ := h.row id r hr
    obtain ⟨x', hx', hle⟩ := @supplies_set _ _ facts hnew _ _ hx
    exact ⟨x', hx', hok.set hnew hx hle⟩
  · obtain ⟨e', he', hid⟩ := h.inboxed k r hk
    exact ⟨e', mem_append_left _ he', hid⟩
  · rcases List.mem_append.1 he' with he' | he'
    · obtain ⟨x₀, hx₀, hle, -⟩ := hw.events e' he'
      rw [Table.get?_upsert] at hx
      split at hx
      · -- an event of an older version is not the newest
        next hid =>
        rw [hid] at hx₀
        have := hnew x₀ hx₀
        obtain rfl := Option.some.inj hx
        dsimp only at hver
        omega
      · exact h.settled e' he' htaken x hx hver
    · rw [List.mem_singleton.1 he', not_taken_of_fresh h hfresh] at htaken
      cases htaken

theorem Seen.change {events : List Event} {read : Table String (Nat × Facts)} {id : String}
    (h : Seen supplies outbox views events read rows inbox id) (hcore : Core supplies outbox views rows inbox)
    (hnew : ∀ x, supplies.get? e.entityId = some x → x.version < e.version)
    (hfresh : ∀ e' ∈ outbox, e'.id ≠ e.id) (hevents : ∀ e' ∈ events, e' ∈ outbox) :
    Seen (supplies.upsert e.entityId ⟨e.entityType, e.version, facts⟩) (outbox ++ [e]) (views.set e facts) events read
      rows inbox id := by
  obtain ⟨x, v, hx, hv, hread, hbound, hrows⟩ := h
  obtain ⟨x', hx', hle⟩ := @supplies_set _ _ facts hnew _ _ hx
  refine ⟨x', v, hx', hv.trans hle, ?_, fun e' he' hid hin => ?_, hrows⟩
  · rw [views_set_of_le hnew hx hv]
    exact hread
  · rcases List.mem_append.1 he' with he' | he'
    · exact hbound e' he' hid hin
    · obtain rfl := List.mem_singleton.1 he'
      rcases hin with hin | hin
      · exact absurd rfl (hfresh _ (hevents _ hin))
      · rw [not_taken_of_fresh hcore hfresh] at hin
        cases hin

end change

/-! ## One event -/

section event

variable {supplies : Table String BookingEntity} {outbox : List Event} {views : Views} {events : List Event}
  {facts : Table String (Nat × Facts)} {w : Work}

/-- In the middle of a batch: what the pull keeps of the entities is what the rows say. -/
structure Mid (supplies : Table String BookingEntity) (outbox : List Event) (views : Views) (events : List Event)
    (facts : Table String (Nat × Facts)) (w : Work) : Prop where
  core : Core supplies outbox views w.rows w.inbox
  seen : ∀ e ∈ events, (contracts.lookup e.entityType).isSome → Seen supplies outbox views events facts w.rows w.inbox e.entityId
  cache : ∀ e ∈ events, w.entities.get? e.entityId = (w.rows.get? e.entityId).map EntityRow.state

theorem taken_upsert {inbox : Table (String × String) InboxRow} {contract : String} {r : InboxRow} {e e' : Event}
    (h : taken (inbox.upsert (contract, e.id) r) e' = true) : taken inbox e' = true ∨ e'.id = e.id := by
  obtain ⟨c, hc, hsome⟩ := (Option.any_eq_true _ _).1 h
  rw [Table.get?_upsert] at hsome
  split at hsome
  · next hkey => exact Or.inr (congrArg Prod.snd hkey)
  · exact Or.inl ((Option.any_eq_true _ _).2 ⟨c, hc, hsome⟩)

/-- What an event does to its entity `x`, when the facts that were read are those of the version `v`. -/
structure Moved (views : Views) (e : Event) (x : BookingEntity) (v : Nat) (w w' : Work) : Prop where
  inbox : w'.inbox = w.inbox
  others : ∀ id, id ≠ e.entityId → w'.rows.get? id = w.rows.get? id ∧ w'.entities.get? id = w.entities.get? id
  cache : w'.entities.get? e.entityId = (w'.rows.get? e.entityId).map EntityRow.state
  row : ∀ r, w'.rows.get? e.entityId = some r → RowOk views e.entityId x r ∧ r.appliedVersion ≤ v
  newest : v = x.version → Matches x (w'.rows.get? e.entityId)

theorem Mid.record (h : Mid supplies outbox views events facts w) (hw : World supplies outbox views) {e : Event}
    (he : e ∈ events) (heout : e ∈ outbox) (contract : String) (r : InboxRow) {w' : Work} {x : BookingEntity} {v : Nat}
    (hx : supplies.get? e.entityId = some x) (hv : v ≤ x.version)
    (hfacts : facts.get? e.entityId = (views e.entityId v).map (v, ·))
    (hbound : ∀ e' ∈ outbox, e'.entityId = e.entityId → e' ∈ events ∨ taken w.inbox e' = true → e'.version ≤ v)
    (hmoved : Moved views e x v w w') :
    Mid supplies outbox views events facts { w' with inbox := w'.inbox.upsert (contract, e.id) r } := by
  have htaken : ∀ e' ∈ outbox, taken (w'.inbox.upsert (contract, e.id) r) e' = true → taken w.inbox e' = true ∨ e' = e := by
    intro e' he' ht
    rw [hmoved.inbox] at ht
    exact (taken_upsert ht).imp_right (hw.ids e' he' e heout)
  have hread : ∀ e' ∈ outbox, e' ∈ events ∨ taken (w'.inbox.upsert (contract, e.id) r) e' = true →
      e' ∈ events ∨ taken w.inbox e' = true := by
    intro e' he' hin
    rcases hin with hin | hin
    · exact Or.inl hin
    · rcases htaken e' he' hin with hin | rfl
      · exact Or.inr hin
      · exact Or.inl he
  refine ⟨⟨fun id r' hr' => ?_, fun k r' hk => ?_, fun e' he' ht x' hx' hver => ?_⟩, fun e' he' hc => ?_, fun e' he' => ?_⟩
  · by_cases hid : id = e.entityId
    · subst hid
      exact ⟨x, hx, (hmoved.row r' hr').1⟩
    · refine h.core.row id r' ?_
      rw [← (hmoved.others id hid).1]
      exact hr'
  · rw [Table.get?_upsert, hmoved.inbox] at hk
    split at hk
    · next hkey => exact ⟨e, heout, (congrArg Prod.snd hkey).symm⟩
    · exact h.core.inboxed k r' hk
  · by_cases hid : e'.entityId = e.entityId
    · -- an event of the newest version was read with the facts of that version
      rw [hid] at hx' ⊢
      obtain rfl := Option.some.inj (hx.symm.trans hx')
      have hle := hbound e' he' hid (hread e' he' (Or.inr ht))
      exact hmoved.newest (by omega)
    · rw [(hmoved.others _ hid).1]
      rcases htaken e' he' ht with ht | rfl
      · exact h.core.settled e' he' ht x' hx' hver
      · exact absurd rfl hid
  · by_cases hid : e'.entityId = e.entityId
    · rw [hid]
      exact ⟨x, v, hx, hv, hfacts, fun e'' he'' hid' hin => hbound e'' he'' hid' (hread e'' he'' hin),
        fun r' hr' => (hmoved.row r' hr').2⟩
    · obtain ⟨x', v', hx', hv', hf', hb', hr'⟩ := h.seen e' he' hc
      refine ⟨x', v', hx', hv', hf', fun e'' he'' hid' hin => hb' e'' he'' hid' (hread e'' he'' hin),
        fun r' hget => hr' r' ?_⟩
      rw [← (hmoved.others _ hid).1]
      exact hget
  · by_cases hid : e'.entityId = e.entityId
    · rw [hid]
      exact hmoved.cache
    · rw [(hmoved.others _ hid).1, (hmoved.others _ hid).2]
      exact h.cache e' he'

theorem appliedRow_ok {id : String} {x : BookingEntity} {v : Nat} {data : Facts} (hv : v ≤ x.version)
    (hview : views id v = some data) (entity : Option EntityState) (entityType : String) :
    RowOk views id x (appliedRow entity entityType data v) := by
  refine ⟨hv, hview, fun hoff => ?_, Or.inl rfl⟩
  have hoff' : data.isActive = false := hoff
  show statusAfterApply entity data.isActive = .unpublished
  rw [hoff']
  rfl

theorem applyFacts_ok {entity : Option EntityState} {entityType id : String} {data : Facts} {v : Nat} {w' : Work}
    (hcache : entity = (w.rows.get? id).map EntityRow.state) (h : applyFacts w entity entityType id data v = .ok w') :
    w'.inbox = w.inbox ∧
      (∀ k, k ≠ id → w'.rows.get? k = w.rows.get? k ∧ w'.entities.get? k = w.entities.get? k) ∧
      ∃ ty, w'.rows.get? id = some { appliedRow entity entityType data v with entityType := ty } ∧
        w'.entities.get? id = some (appliedRow entity entityType data v).state := by
  unfold applyFacts at h
  cases entity with
  | none =>
    dsimp only at h
    split at h
    · cases h
    · cases h
      refine ⟨rfl, fun k hk => ?_, entityType, ?_⟩
      · rw [Table.get?_upsert, if_neg hk, Table.get?_upsert, if_neg hk]
        exact ⟨rfl, rfl⟩
      · rw [Table.get?_upsert, if_pos rfl, Table.get?_upsert, if_pos rfl]
        exact ⟨rfl, rfl⟩
  | some entity =>
    obtain ⟨r, hr, hstate⟩ := Option.map_eq_some_iff.1 hcache.symm
    cases h
    refine ⟨rfl, fun k hk => ?_, r.entityType, ?_⟩
    · rw [Table.get?_update, Table.get?_upsert, if_neg hk]
      refine ⟨?_, rfl⟩
      cases w.rows.get? k with
      | none => rfl
      | some r' =>
        rw [Option.map_some, if_neg (by simpa using hk)]
    · rw [Table.get?_update, Table.get?_upsert, if_pos rfl, hr]
      subst hstate
      refine ⟨?_, rfl⟩
      rw [Option.map_some, if_pos (by simp)]
      rfl

theorem unpublish_ok {r : EntityRow} {id : String} (hr : w.rows.get? id = some r)
    (hcache : w.entities.get? id = some r.state) (hcheck : r.active = false → r.contentStatus = .unpublished) :
    (unpublish w r.state id).inbox = w.inbox ∧
      (∀ k, k ≠ id → (unpublish w r.state id).rows.get? k = w.rows.get? k ∧
        (unpublish w r.state id).entities.get? k = w.entities.get? k) ∧
      (unpublish w r.state id).rows.get? id = some { r with active := false, contentStatus := .unpublished } ∧
      (unpublish w r.state id).entities.get? id =
        some ({ r with active := false, contentStatus := .unpublished } : EntityRow).state := by
  unfold unpublish
  split
  · refine ⟨rfl, fun k hk => ?_, ?_, ?_⟩
    · rw [Table.get?_update, Table.get?_upsert, if_neg hk]
      refine ⟨?_, rfl⟩
      cases w.rows.get? k with
      | none => rfl
      | some r' =>
        rw [Option.map_some, if_neg (by simpa using hk)]
    · rw [Table.get?_update, hr, Option.map_some, if_pos (by simp)]
    · rw [Table.get?_upsert, if_pos rfl]
      rfl
  · next hoff =>
    -- it is off already
    rw [Bool.or_eq_true, not_or] at hoff
    have hactive : r.active = false := Bool.eq_false_of_not_eq_true hoff.1
    have hsame : ({ r with active := false, contentStatus := .unpublished } : EntityRow) = r := by
      rw [← hcheck hactive, ← hactive]
    rw [hsame]
    exact ⟨rfl, fun k _ => ⟨rfl, rfl⟩, hr, hcache⟩

section moved

variable {e : Event} {x : BookingEntity} {v : Nat}
  (hrow : ∀ r, w.rows.get? e.entityId = some r → RowOk views e.entityId x r ∧ r.appliedVersion ≤ v)
  (hcache : w.entities.get? e.entityId = (w.rows.get? e.entityId).map EntityRow.state)
  (hcurrent : views e.entityId x.version = x.facts)

include hrow hcache hcurrent

theorem moved_missing (hv : v ≤ x.version) (hview : views e.entityId v = none) {w' : Work}
    (h : perform w e none (w.entities.get? e.entityId) .missing = .ok w') : Moved views e x v w w' := by
  have hgone : v = x.version → x.facts = none := by
    rintro rfl
    rw [← hcurrent, hview]
  cases hr : w.rows.get? e.entityId with
  | none =>
    rw [hr] at hcache
    rw [hcache] at h
    cases h
    refine ⟨rfl, fun _ _ => ⟨rfl, rfl⟩, by rw [hcache, hr], hrow, fun hver => ?_⟩
    unfold Matches
    rw [hgone hver, hr]
    intro r' hr'
    cases hr'
  | some r =>
    obtain ⟨⟨hle, hfact, hcheck, -⟩, hle'⟩ := hrow r hr
    rw [hr] at hcache
    have hstate : w.entities.get? e.entityId = some r.state := hcache
    rw [hstate] at h
    cases h
    obtain ⟨hinbox, hothers, hnewrow, hnewcache⟩ := unpublish_ok hr hstate hcheck
    -- the row is of a version at which it was there
    have hlt : r.appliedVersion < v := by
      rcases Nat.lt_or_eq_of_le hle' with hlt | heq
      · exact hlt
      · rw [heq, hview] at hfact
        cases hfact
    refine ⟨hinbox, hothers, ?_, fun r' hr' => ?_, fun hver => ?_⟩
    · rw [hnewrow, hnewcache]
      rfl
    · rw [hnewrow] at hr'
      obtain rfl := Option.some.inj hr'
      exact ⟨⟨hle, hfact, fun _ => rfl, Or.inr ⟨rfl, v, hlt, hv, hview⟩⟩, hle'⟩
    · unfold Matches
      rw [hgone hver, hnewrow]
      intro r' hr'
      obtain rfl := Option.some.inj hr'
      exact ⟨rfl, rfl⟩

omit hrow in
theorem moved_applied (hv : v ≤ x.version) {data : Facts} (hview : views e.entityId v = some data) {w' : Work}
    (h : perform w e (some (v, data)) (w.entities.get? e.entityId) .applied = .ok w') : Moved views e x v w w' := by
  obtain ⟨hinbox, hothers, ty, hnewrow, hnewcache⟩ := applyFacts_ok hcache h
  refine ⟨hinbox, hothers, ?_, fun r' hr' => ?_, fun hver => ?_⟩
  · rw [hnewrow, hnewcache]
    rfl
  · rw [hnewrow] at hr'
    obtain rfl := Option.some.inj hr'
    exact ⟨appliedRow_ok hv hview _ ty, le_refl v⟩
  · have hfacts : x.facts = some data := by
      rw [← hcurrent, ← hver, hview]
    unfold Matches
    rw [hfacts]
    exact ⟨_, hnewrow, hver, rfl, rfl⟩

theorem moved_older {data : Facts} (hview : views e.entityId v = some data)
    (hout : outcomeFor (w.entities.get? e.entityId) (some v) = .skippedOlder) : Moved views e x v w w := by
  refine ⟨rfl, fun _ _ => ⟨rfl, rfl⟩, hcache, hrow, fun hver => ?_⟩
  have hnewer : (w.entities.get? e.entityId).any (v ≤ ·.appliedVersion) = true := by
    unfold outcomeFor at hout
    dsimp only at hout
    split at hout
    · next hany => exact hany
    · cases hout
  obtain ⟨ent, hent, hge⟩ := (Option.any_eq_true _ _).1 hnewer
  rw [hcache] at hent
  obtain ⟨r, hr, rfl⟩ := Option.map_eq_some_iff.1 hent
  obtain ⟨⟨-, hfact, -, hactive⟩, hle⟩ := hrow r hr
  have heq : r.appliedVersion = v := by
    have hge' : v ≤ r.appliedVersion := of_decide_eq_true hge
    omega
  have hdata : r.facts = data := by
    rw [heq, hview] at hfact
    exact (Option.some.inj hfact).symm
  have hfacts : x.facts = some data := by
    rw [← hcurrent, ← hver, hview]
  unfold Matches
  rw [hfacts]
  refine ⟨r, hr, heq.trans hver, hdata, ?_⟩
  rcases hactive with hactive | ⟨-, v', hlt, hle', -⟩
  · rw [hactive, hdata]
  · omega

theorem moved_perform (hv : v ≤ x.version) {current : Option (Nat × Facts)}
    (hread : current = (views e.entityId v).map (v, ·)) {w' : Work}
    (h : perform w e current (w.entities.get? e.entityId)
      (outcomeFor (w.entities.get? e.entityId) (current.map (·.1))) = .ok w') : Moved views e x v w w' := by
  cases hview : views e.entityId v with
  | none =>
    rw [hread, hview] at h
    exact moved_missing hrow hcache hcurrent hv hview h
  | some data =>
    have hsome : current = some (v, data) := by
      rw [hread, hview]
      rfl
    subst hsome
    have hmap : Option.map (·.1) (some (v, data)) = some v := rfl
    rw [hmap] at h
    cases hout : outcomeFor (w.entities.get? e.entityId) (some v) with
    | applied =>
      rw [hout] at h
      exact moved_applied hcache hcurrent hv hview h
    | missing =>
      unfold outcomeFor at hout
      dsimp only at hout
      split at hout <;> cases hout
    | skippedOlder =>
      rw [hout] at h
      cases h
      exact moved_older hrow hcache hcurrent hview hout

end moved

theorem Mid.applyEvent (h : Mid supplies outbox views events facts w) (hw : World supplies outbox views) {e : Event}
    (he : e ∈ events) (heout : e ∈ outbox) {w' : Work} (hok : applyEvent facts w e = .ok w') :
    Mid supplies outbox views events facts w' := by
  unfold Supply.applyEvent at hok
  split at hok
  · cases hok
  · next contract hcontract =>
    split at hok
    · cases hok
    · split at hok
      · cases hok
        exact h
      · obtain ⟨x, v, hx, hv, hfacts, hbound, hrows⟩ := h.seen e he (by rw [hcontract]; rfl)
        have hrow : ∀ r, w.rows.get? e.entityId = some r → RowOk views e.entityId x r ∧ r.appliedVersion ≤ v := by
          intro r hr
          obtain ⟨x', hx', hrok⟩ := h.core.row _ r hr
          obtain rfl := Option.some.inj (hx.symm.trans hx')
          exact ⟨hrok, hrows r hr⟩
        obtain ⟨w₁, hperform, rfl⟩ := Lib.map_eq_ok_iff.1 hok
        have hmoved := moved_perform hrow (h.cache e he) (hw.current _ x hx) hv hfacts hperform
        exact h.record hw he heout contract _ hx hv hfacts hbound hmoved

theorem Mid.foldlM (hw : World supplies outbox views) (hevents : ∀ e ∈ events, e ∈ outbox) {l : List Event}
    (hl : ∀ e ∈ l, e ∈ events) (h : Mid supplies outbox views events facts w) {w' : Work}
    (hok : l.foldlM (Supply.applyEvent facts) w = .ok w') : Mid supplies outbox views events facts w' := by
  induction l generalizing w with
  | nil =>
    cases hok
    exact h
  | cons e l ih =>
    rw [foldlM_cons] at hok
    cases hone : Supply.applyEvent facts w e with
    | error err =>
      rw [hone] at hok
      cases hok
    | ok w₁ =>
      rw [hone] at hok
      have he := hl e mem_cons_self
      exact ih (fun e' he' => hl e' (mem_cons_of_mem _ he')) (h.applyEvent hw he (hevents e he) hone) hok

end event

/-! ## What a pull reads -/

theorem get?_foldl {ρ : Type} {f : Table String ρ → String → Table String ρ} {g : String → Option ρ}
    (hf : ∀ t id, f t id = match g id with
      | some r => t.upsert id r
      | none => t) (ids : List String) (t : Table String ρ) (id : String) :
    (ids.foldl f t).get? id = if id ∈ ids then (g id).or (t.get? id) else t.get? id := by
  induction ids generalizing t with
  | nil => rfl
  | cons k ids ih =>
    have hone : (f t k).get? id = if id = k then (g id).or (t.get? id) else t.get? id := by
      rw [hf]
      by_cases hk : id = k
      · subst hk
        rw [if_pos rfl]
        cases g id with
        | none => rfl
        | some r =>
          rw [Table.get?_upsert, if_pos rfl]
          rfl
      · rw [if_neg hk]
        cases g k with
        | none => rfl
        | some r =>
          rw [Table.get?_upsert, if_neg hk]
    rw [foldl_cons, ih, hone]
    by_cases hk : id = k
    · rw [if_pos hk, if_pos (List.mem_cons.2 (Or.inl hk))]
      split
      · cases g id <;> rfl
      · rfl
    · rw [if_neg hk]
      by_cases hin : id ∈ ids
      · rw [if_pos hin, if_pos (mem_cons_of_mem _ hin)]
      · rw [if_neg hin, if_neg (fun h => (List.mem_cons.1 h).elim hk hin)]

theorem get?_readEntities (rows : Table String EntityRow) (events : List Event) {e : Event} (he : e ∈ events) :
    (readEntities rows events).get? e.entityId = (rows.get? e.entityId).map EntityRow.state := by
  unfold readEntities
  rw [@get?_foldl _ _ (fun id => (rows.get? id).map EntityRow.state), if_pos (mem_map_of_mem he)]
  · cases rows.get? e.entityId <;> rfl
  · intro t id
    cases rows.get? id <;> rfl

theorem get?_readFacts {supplies : Table String BookingEntity} {events : List Event} {facts : Table String (Nat × Facts)}
    {e : Event} (he : e ∈ events) {x : BookingEntity} (hx : supplies.get? e.entityId = some x)
    (hty : e.entityType = x.entityType) (ty : String) :
    (readFacts supplies ty events facts).get? e.entityId =
      if x.entityType = ty then (x.facts.map (x.version, ·)).or (facts.get? e.entityId) else facts.get? e.entityId := by
  unfold readFacts
  rw [@get?_foldl _ _ (fun id => (supplies.get? id).bind fun x =>
    if x.entityType = ty then x.facts.map (x.version, ·) else none), hx, Option.bind_some]
  · by_cases hsame : x.entityType = ty
    · have hmem : e.entityId ∈ (events.filter (·.entityType = ty)).map (·.entityId) :=
        mem_map_of_mem (List.mem_filter.2 ⟨he, by simpa using hty.trans hsame⟩)
      rw [if_pos hmem, if_pos hsame, if_pos hsame]
    · split <;> rfl
  · intro t id
    cases supplies.get? id with
    | none => rfl
    | some x =>
      obtain ⟨ty', version, data⟩ := x
      cases data with
      | none =>
        rw [Option.bind_some]
        rw [Option.map_none, ite_self]
      | some data =>
        rw [Option.bind_some]
        dsimp only
        split <;> rfl

theorem mem_outboxSql {outbox : List Event} {cursor limit : Nat} {e : Event} (he : e ∈ outboxSql outbox cursor limit) :
    e ∈ outbox ∧ cursor < e.feedSeq := by
  have hmem := List.mem_mergeSort.1 (mem_of_mem_take he)
  rw [mem_filter, decide_eq_true_eq] at hmem
  exact hmem

theorem outboxSql_page {outbox : List Event} {cursor limit : Nat} {last e : Event}
    (hseq : ∀ a ∈ outbox, ∀ b ∈ outbox, a.feedSeq = b.feedSeq → a = b)
    (hlast : (outboxSql outbox cursor limit).getLast? = some last) (he : e ∈ outbox) (hlt : cursor < e.feedSeq)
    (hle : e.feedSeq ≤ last.feedSeq) : e ∈ outboxSql outbox cursor limit := by
  have hsorted : ((outbox.filter (cursor < ·.feedSeq)).mergeSort fun a b => a.feedSeq ≤ b.feedSeq).Pairwise
      fun a b => a.feedSeq ≤ b.feedSeq := by
    refine (pairwise_mergeSort (fun a b c hab hbc => ?_) (fun a b => ?_) _).imp fun h => of_decide_eq_true h
    · simp only [decide_eq_true_eq] at *
      omega
    · simp only [Bool.or_eq_true, decide_eq_true_eq]
      omega
  have hmem : e ∈ (outbox.filter (cursor < ·.feedSeq)).mergeSort fun a b => a.feedSeq ≤ b.feedSeq :=
    List.mem_mergeSort.2 (List.mem_filter.2 ⟨he, by simpa using hlt⟩)
  have hin := mem_outboxSql (mem_of_getLast? hlast)
  have hlastin : last ∈ outboxSql outbox cursor limit := mem_of_getLast? hlast
  rw [← take_append_drop limit (List.mergeSort _ _)] at hmem hsorted
  rcases List.mem_append.1 hmem with hmem | hmem
  · exact hmem
  · -- what is cut off is not before the last
    have hge := (List.pairwise_append.1 hsorted).2.2 last hlastin e hmem
    rw [hseq e he last hin.1 (by omega)]
    exact hlastin

/-! ## The system -/

/-- A pull that has its batch. -/
structure Reading (s : State) (views : Views) (p : Pull) (events : List Event) : Prop where
  batch : ∀ e ∈ events, e ∈ s.outbox
  stage : p.unread = ["hotel", "service"] ∨ p.unread = ["service"] ∨ p.unread = []
  later : ∀ e ∈ events, e.entityType ∈ p.unread → p.facts.get? e.entityId = none
  seen : ∀ e ∈ events, (contracts.lookup e.entityType).isSome → e.entityType ∉ p.unread →
    Seen s.supplies s.outbox views events p.facts s.rows s.inbox e.entityId
  page : ∀ last, events.getLast? = some last → ∀ e ∈ s.outbox, p.cursor < e.feedSeq → e.feedSeq ≤ last.feedSeq → e ∈ events

structure Inv (s : State) (views : Views) : Prop where
  world : World s.supplies s.outbox views
  core : Core s.supplies s.outbox views s.rows s.inbox
  passed : ∀ e ∈ s.outbox, e.feedSeq ≤ s.cursor → taken s.inbox e = true
  cursor : ∀ p, s.pull = some p → p.cursor = s.cursor
  fresh : ∀ p, s.pull = some p → p.events = none → p.facts = Table.empty
  reading : ∀ p, s.pull = some p → ∀ events, p.events = some events → Reading s views p events

theorem inv_idle {s : State} {views : Views} (hw : World s.supplies s.outbox views)
    (hcore : Core s.supplies s.outbox views s.rows s.inbox)
    (hpassed : ∀ e ∈ s.outbox, e.feedSeq ≤ s.cursor → taken s.inbox e = true) (hpull : s.pull = none) : Inv s views := by
  refine ⟨hw, hcore, hpassed, fun p hp => ?_, fun p hp => ?_, fun p hp => ?_⟩
  · rw [hpull] at hp
    cases hp
  · rw [hpull] at hp
    cases hp
  · rw [hpull] at hp
    cases hp

theorem inv_init (supplies : Table String BookingEntity) :
    Inv (init supplies) fun id _ => (supplies.get? id).bind (·.facts) := by
  refine inv_idle ⟨fun id x hx => ?_, ?_, ?_, ?_, ?_⟩ ⟨?_, ?_, ?_⟩ ?_ rfl
  · show (supplies.get? id).bind (·.facts) = x.facts
    rw [show supplies.get? id = some x from hx]
    rfl
  · exact fun _ he => absurd he not_mem_nil
  · exact fun _ he => absurd he not_mem_nil
  · exact fun _ he => absurd he not_mem_nil
  · exact fun _ he => absurd he not_mem_nil
  · intro id r hr
    cases hr
  · intro k r hk
    cases hk
  · exact fun _ he => absurd he not_mem_nil
  · exact fun _ he => absurd he not_mem_nil

variable {s : State} {views : Views}

theorem Inv.change (h : Inv s views) {e : Event} (facts : Option Facts) (hacc : s.accepts e = true) :
    Inv (step s (.change e facts)) (views.set e facts) := by
  unfold step
  dsimp only
  rw [if_pos hacc]
  unfold State.accepts at hacc
  rw [Bool.and_eq_true, Bool.and_eq_true, decide_eq_true_eq, all_eq_true] at hacc
  obtain ⟨⟨hall, hevents⟩, hcursor⟩ := hacc
  have hnew : ∀ x, s.supplies.get? e.entityId = some x → x.version < e.version ∧ x.entityType = e.entityType := by
    intro x hx
    rw [hx] at hall
    simpa using hall
  have hver : ∀ x, s.supplies.get? e.entityId = some x → x.version < e.version := fun x hx => (hnew x hx).1
  have hfresh : ∀ e' ∈ s.outbox, e'.id ≠ e.id := by
    intro e' he'
    have := hevents e' he'
    rw [Bool.and_eq_true, decide_eq_true_eq] at this
    exact this.1
  have hlast : ∀ e' ∈ s.outbox, e'.feedSeq < e.feedSeq := by
    intro e' he'
    have := hevents e' he'
    rw [Bool.and_eq_true, decide_eq_true_eq, decide_eq_true_eq] at this
    exact this.2
  refine ⟨h.world.change hnew hfresh hlast, h.core.change h.world hver hfresh, ?_, h.cursor, h.fresh, ?_⟩
  · intro e' he' hle
    rcases List.mem_append.1 he' with he' | he'
    · exact h.passed e' he' hle
    · rw [List.mem_singleton.1 he'] at hle
      dsimp only at hle
      omega
  · intro p hp events hevs
    have hread := h.reading p hp events hevs
    refine ⟨fun e' he' => mem_append_left _ (hread.batch e' he'), hread.stage, hread.later, ?_, ?_⟩
    · intro e' he' hc hunread
      exact (hread.seen e' he' hc hunread).change h.core hver hfresh hread.batch
    · intro last hl e' he' hlt hle
      rcases List.mem_append.1 he' with he' | he'
      · exact hread.page last hl e' he' hlt hle
      · rw [List.mem_singleton.1 he'] at hle
        have := hlast last (hread.batch last (mem_of_getLast? hl))
        omega

theorem Core.review {id : String} {r : EntityRow} {status : ContentStatus} {published : Option String}
    (h : Core s.supplies s.outbox views s.rows s.inbox) (hr : s.rows.get? id = some r)
    (hcheck : (r.active || status = .unpublished) = true) :
    Core s.supplies s.outbox views (s.rows.upsert id { r with contentStatus := status, publishedVersion := published })
      s.inbox := by
  have hoff : r.active = false → status = .unpublished := by
    intro hactive
    rw [hactive, Bool.false_or, decide_eq_true_eq] at hcheck
    exact hcheck
  refine ⟨fun k r' hr' => ?_, h.inboxed, fun e he ht x hx hver => ?_⟩
  · rw [Table.get?_upsert] at hr'
    split at hr'
    · next hk =>
      obtain rfl := Option.some.inj hr'
      obtain ⟨x, hx, hver, hview, -, hactive⟩ := h.row id r hr
      rw [hk]
      exact ⟨x, hx, hver, hview, hoff, hactive⟩
    · exact h.row k r' hr'
  · have hm := h.settled e he ht x hx hver
    rw [Table.get?_upsert]
    split
    · next hid =>
      rw [hid, hr] at hm
      unfold Matches at hm ⊢
      cases hfacts : x.facts with
      | none =>
        rw [hfacts] at hm
        intro r' hr'
        obtain rfl := Option.some.inj hr'
        have hactive := (hm r rfl).1
        exact ⟨hactive, hoff hactive⟩
      | some facts =>
        rw [hfacts] at hm
        obtain ⟨r', hr', hrest⟩ := hm
        obtain rfl := Option.some.inj hr'
        exact ⟨_, rfl, hrest⟩
    · exact hm

theorem Seen.review {id k : String} {r : EntityRow} {status : ContentStatus} {published : Option String}
    {events : List Event} {facts : Table String (Nat × Facts)} (hr : s.rows.get? id = some r)
    (h : Seen s.supplies s.outbox views events facts s.rows s.inbox k) :
    Seen s.supplies s.outbox views events facts
      (s.rows.upsert id { r with contentStatus := status, publishedVersion := published }) s.inbox k := by
  obtain ⟨x, v, hx, hv, hread, hbound, hrows⟩ := h
  refine ⟨x, v, hx, hv, hread, hbound, fun r' hr' => ?_⟩
  rw [Table.get?_upsert] at hr'
  split at hr'
  · next hk =>
    obtain rfl := Option.some.inj hr'
    exact hrows r (by rw [hk]; exact hr)
  · exact hrows r' hr'

theorem Inv.review (h : Inv s views) (id : String) (status : ContentStatus) (published : Option String) :
    Inv (step s (.review id status published)) views := by
  unfold step
  dsimp only
  split
  · exact h
  · next r hr =>
    split
    · next hcheck =>
      rw [Bool.and_eq_true] at hcheck
      refine ⟨h.world, h.core.review hr hcheck.1, h.passed, h.cursor, h.fresh, fun p hp events hevs => ?_⟩
      have hread := h.reading p hp events hevs
      exact ⟨hread.batch, hread.stage, hread.later, fun e he hc hu => (hread.seen e he hc hu).review hr, hread.page⟩
    · exact h

theorem Inv.readOutbox (h : Inv s views) {p : Pull} (hp : s.pull = some p) (hnone : p.events = none) :
    Inv (advance s p) views := by
  unfold advance
  rw [hnone]
  refine ⟨h.world, h.core, h.passed, ?_, ?_, ?_⟩
  · intro q hq
    obtain rfl := Option.some.inj hq
    exact h.cursor p hp
  · intro q hq hev
    obtain rfl := Option.some.inj hq
    cases hev
  · intro q hq events hev
    obtain rfl := Option.some.inj hq
    obtain rfl := Option.some.inj hev
    refine ⟨fun e he => (mem_outboxSql he).1, Or.inl rfl, fun e he _ => ?_, fun e he hc hu => ?_, ?_⟩
    · show p.facts.get? e.entityId = none
      rw [h.fresh p hp hnone]
      rfl
    · -- every type with a contract is still to read
      exfalso
      obtain ⟨c, hc'⟩ := Option.isSome_iff_exists.1 hc
      obtain ⟨l₁, l₂, heq, -⟩ := List.lookup_eq_some_iff.1 hc'
      refine hu ?_
      show e.entityType ∈ contracts.map (·.1)
      rw [heq]
      simp
    · intro last hlast e he hlt hle
      exact outboxSql_page h.world.seqs hlast he hlt hle

theorem Inv.readFacts (h : Inv s views) {p : Pull} (hp : s.pull = some p) {events : List Event}
    (hev : p.events = some events) {ty : String} {rest : List String} (hunread : p.unread = ty :: rest) :
    Inv (advance s p) views := by
  have hread := h.reading p hp events hev
  unfold advance
  rw [hev, hunread]
  refine ⟨h.world, h.core, h.passed, ?_, ?_, ?_⟩
  · intro q hq
    obtain rfl := Option.some.inj hq
    exact h.cursor p hp
  · intro q hq hnone
    obtain rfl := Option.some.inj hq
    cases hnone
  · intro q hq events' hev'
    obtain rfl := Option.some.inj hq
    obtain rfl := Option.some.inj hev'
    have hnotin : ty ∉ rest := by
      rcases hread.stage with hst | hst | hst
      · rw [hst] at hunread
        cases hunread
        decide
      · rw [hst] at hunread
        cases hunread
        decide
      · rw [hst] at hunread
        cases hunread
    refine ⟨hread.batch, ?_, fun e he hin => ?_, fun e he hc hu => ?_, hread.page⟩
    · rcases hread.stage with hst | hst | hst
      · rw [hst] at hunread
        cases hunread
        exact Or.inr (Or.inl rfl)
      · rw [hst] at hunread
        cases hunread
        exact Or.inr (Or.inr rfl)
      · rw [hst] at hunread
        cases hunread
    · obtain ⟨x, hx, -, hty⟩ := h.world.events e (hread.batch e he)
      show (Supply.readFacts s.supplies ty events p.facts).get? e.entityId = none
      rw [get?_readFacts he hx hty, if_neg]
      · refine hread.later e he ?_
        rw [hunread]
        exact mem_cons_of_mem _ hin
      · rintro rfl
        rw [← hty] at hnotin
        exact hnotin hin
    · obtain ⟨x, hx, -, hty⟩ := h.world.events e (hread.batch e he)
      have hget := @get?_readFacts _ _ p.facts _ he _ hx hty ty
      by_cases hsame : x.entityType = ty
      · -- read just now
        have hnone : p.facts.get? e.entityId = none := by
          refine hread.later e he ?_
          rw [hunread, hty, hsame]
          exact mem_cons_self
        rw [if_pos hsame, hnone, Option.or_none] at hget
        refine ⟨x, x.version, hx, le_refl _, ?_, fun e' he' hid _ => ?_, fun r hr => ?_⟩
        · rw [h.world.current _ x hx]
          exact hget
        · obtain ⟨x', hx', hle, -⟩ := h.world.events e' he'
          rw [hid] at hx'
          obtain rfl := Option.some.inj (hx.symm.trans hx')
          exact hle
        · obtain ⟨x', hx', hok⟩ := h.core.row _ r hr
          obtain rfl := Option.some.inj (hx.symm.trans hx')
          exact hok.1
      · have hnot : e.entityType ∉ p.unread := by
          rw [hunread]
          intro hin
          rcases List.mem_cons.1 hin with heq | hin
          · exact hsame (hty.symm.trans heq)
          · exact hu hin
        obtain ⟨x', v, hx', hv, hfacts, hbound, hrows⟩ := hread.seen e he hc hnot
        rw [if_neg hsame] at hget
        exact ⟨x', v, hx', hv, hget.trans hfacts, hbound, hrows⟩

theorem applyFacts_inbox {w w' : Work} {entity : Option EntityState} {entityType id : String} {data : Facts} {v : Nat}
    (h : applyFacts w entity entityType id data v = .ok w') : w'.inbox = w.inbox := by
  unfold applyFacts at h
  split at h
  · split at h
    · cases h
    · cases h
      rfl
  · cases h
    rfl

theorem unpublish_inbox (w : Work) (entity : EntityState) (id : String) : (unpublish w entity id).inbox = w.inbox := by
  unfold unpublish
  split <;> rfl

theorem perform_inbox {w w' : Work} {e : Event} {current : Option (Nat × Facts)} {entity : Option EntityState}
    {outcome : Outcome} (h : perform w e current entity outcome = .ok w') : w'.inbox = w.inbox := by
  cases outcome with
  | applied =>
    cases current with
    | none =>
      cases h
      rfl
    | some c => exact applyFacts_inbox h
  | skippedOlder =>
    cases h
    rfl
  | missing =>
    cases entity with
    | none =>
      cases h
      rfl
    | some entity =>
      cases h
      exact unpublish_inbox _ _ _

theorem taken_upsert_of (inbox : Table (String × String) InboxRow) (k : String × String) (r : InboxRow) {e : Event}
    (h : taken inbox e = true) : taken (inbox.upsert k r) e = true := by
  obtain ⟨c, hc, hsome⟩ := (Option.any_eq_true _ _).1 h
  refine (Option.any_eq_true _ _).2 ⟨c, hc, ?_⟩
  rw [Table.get?_upsert]
  split
  · rfl
  · exact hsome

theorem applyEvent_taken {facts : Table String (Nat × Facts)} {w w' : Work} {e : Event}
    (h : applyEvent facts w e = .ok w') :
    taken w'.inbox e = true ∧ ∀ e', taken w.inbox e' = true → taken w'.inbox e' = true := by
  unfold applyEvent at h
  split at h
  · cases h
  · next contract hcontract =>
    split at h
    · cases h
    · split at h
      · next hseen =>
        cases h
        refine ⟨?_, fun _ ht => ht⟩
        unfold taken
        rw [hcontract]
        exact hseen
      · obtain ⟨w₁, hdone, rfl⟩ := Lib.map_eq_ok_iff.1 h
        have hinbox := perform_inbox hdone
        rw [hinbox]
        refine ⟨?_, fun e' ht => taken_upsert_of _ _ _ ht⟩
        unfold taken
        rw [hcontract, Option.any_some, Table.get?_upsert, if_pos rfl]
        rfl

theorem foldlM_taken {facts : Table String (Nat × Facts)} {l : List Event} {w w' : Work}
    (h : l.foldlM (applyEvent facts) w = .ok w') :
    (∀ e ∈ l, taken w'.inbox e = true) ∧ ∀ e, taken w.inbox e = true → taken w'.inbox e = true := by
  induction l generalizing w with
  | nil =>
    cases h
    exact ⟨fun _ he => absurd he not_mem_nil, fun _ ht => ht⟩
  | cons e l ih =>
    rw [foldlM_cons] at h
    cases hone : applyEvent facts w e with
    | error err =>
      rw [hone] at h
      cases h
    | ok w₁ =>
      rw [hone] at h
      obtain ⟨htaken, hkeep⟩ := applyEvent_taken hone
      obtain ⟨hall, hkeep'⟩ := ih h
      refine ⟨fun e' he' => ?_, fun e' ht => hkeep' e' (hkeep e' ht)⟩
      rcases List.mem_cons.1 he' with rfl | he'
      · exact hkeep' _ htaken
      · exact hall e' he'

theorem Inv.finish (h : Inv s views) {p : Pull} (hp : s.pull = some p) {events : List Event}
    (hev : p.events = some events) (hunread : p.unread = []) : Inv (advance s p) views := by
  have hread := h.reading p hp events hev
  unfold advance
  rw [hev, hunread]
  dsimp only
  split
  · exact inv_idle h.world h.core h.passed rfl
  · next w hw =>
    have hmid : Mid s.supplies s.outbox views events p.facts w := by
      refine Mid.foldlM h.world hread.batch (fun e he => he) ⟨h.core, fun e he hc => ?_, fun e he => ?_⟩ hw
      · refine hread.seen e he hc ?_
        rw [hunread]
        exact not_mem_nil
      · exact get?_readEntities s.rows events he
    obtain ⟨htaken, hkeep⟩ := foldlM_taken hw
    refine inv_idle h.world hmid.core (fun e he hle => ?_) rfl
    by_cases hold : e.feedSeq ≤ s.cursor
    · exact hkeep e (h.passed e he hold)
    · rw [← h.cursor p hp] at hold
      cases hlast : events.getLast? with
      | none =>
        rw [hlast] at hle
        exact absurd hle hold
      | some last =>
        rw [hlast] at hle
        exact htaken e (hread.page last hlast e he (by omega) hle)

theorem Inv.step (h : Inv s views) (act : Act) : ∃ views', Inv (step s act) views' := by
  cases act with
  | change e facts =>
    by_cases hacc : s.accepts e = true
    · exact ⟨_, h.change facts hacc⟩
    · refine ⟨views, ?_⟩
      unfold Supply.step
      dsimp only
      rw [if_neg hacc]
      exact h
  | review id status published => exact ⟨views, h.review id status published⟩
  | rewind cursor =>
    refine ⟨views, ?_⟩
    unfold Supply.step
    dsimp only
    split
    · next hback =>
      rw [Bool.and_eq_true, decide_eq_true_eq, Option.isNone_iff_eq_none] at hback
      exact inv_idle h.world h.core (fun e he hle => h.passed e he (hle.trans hback.2)) hback.1
    · exact h
  | start limit =>
    refine ⟨views, ?_⟩
    unfold Supply.step
    dsimp only
    split
    · refine ⟨h.world, h.core, h.passed, fun p hp => ?_, fun p hp _ => ?_, fun p hp events hev => ?_⟩
      · obtain rfl := Option.some.inj hp
        rfl
      · obtain rfl := Option.some.inj hp
        rfl
      · obtain rfl := Option.some.inj hp
        cases hev
    · exact h
  | advance =>
    refine ⟨views, ?_⟩
    unfold Supply.step
    cases hp : s.pull with
    | none => exact h
    | some p =>
      cases hev : p.events with
      | none => exact h.readOutbox hp hev
      | some events =>
        cases hunread : p.unread with
        | nil => exact h.finish hp hev hunread
        | cons ty rest => exact h.readFacts hp hev hunread
  | fail =>
    exact ⟨views, inv_idle h.world h.core h.passed rfl⟩

theorem inv_run (h : Inv s views) (acts : List Act) : ∃ views', Inv (run Supply.step s acts) views' := by
  induction acts generalizing s views with
  | nil => exact ⟨views, h⟩
  | cons act acts ih =>
    obtain ⟨views', h'⟩ := h.step act
    exact ih h'

/-- After any run: an entity with an event, all of whose events are consumed, is as Booking has it, and an inactive row
is unpublished.  The events up to the cursor are consumed. -/
theorem supply_converges (supplies : Table String BookingEntity) (acts : List Act) :
    (∀ id x, (run step (init supplies) acts).supplies.get? id = some x →
      (∃ e ∈ (run step (init supplies) acts).outbox, e.entityId = id) →
      (∀ e ∈ (run step (init supplies) acts).outbox, e.entityId = id →
        (run step (init supplies) acts).consumed e = true) →
      Matches x ((run step (init supplies) acts).rows.get? id)) ∧
    (∀ id r, (run step (init supplies) acts).rows.get? id = some r → r.active = false →
      r.contentStatus = .unpublished) ∧
    ∀ e ∈ (run step (init supplies) acts).outbox, e.feedSeq ≤ (run step (init supplies) acts).cursor →
      (run step (init supplies) acts).consumed e = true := by
  obtain ⟨views, h⟩ := inv_run (inv_init supplies) acts
  refine ⟨fun id x hx hsome hall => ?_, fun id r hr hoff => ?_, h.passed⟩
  · obtain ⟨e, he, rfl⟩ := hsome
    obtain ⟨e', he', hid, hver⟩ := h.world.latest e he x hx
    have hm := h.core.settled e' he' (hall e' he' hid) x (by rw [hid]; exact hx) hver
    rw [hid] at hm
    exact hm
  · obtain ⟨x, -, hok⟩ := h.core.row id r hr
    exact hok.2.2.1 hoff

end CisApp.Supply
