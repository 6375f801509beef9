import CisApp.Lib.Transaction

/-!
# The versions of a tour, their Masters, and the served state

A key of the catalog is a group of source versions (`raw_tours`); a version may
have a Master (`published_tours`) under the same tour id.  `servedState` is the
row of `v_tour_liveness` (migration 272) for the key: the CASE over the
aggregate of its versions, with `current` the version the aggregate takes first.

* `servedState_of_live`, `servedState_of_noLive`: the state is read off the Master
  of the live version, or off what became of the versions.
-/

namespace CisApp.Lifecycle

open Lib Option

abbrev Tour := Nat

inductive SourceStatus where
  | active
  | superseded
  | trashed
deriving Repr, DecidableEq

/-- The lifecycle columns of `raw_tours`; `deleted` is `deleted_at IS NOT NULL`. -/
structure Source where
  status : SourceStatus
  deleted : Bool
  version : Nat
deriving Repr, DecidableEq

inductive MasterStatus where
  | active
  | inactive
  | trashed
deriving Repr, DecidableEq

/-- Why a Master is not active (`master_status_reason`). -/
inductive MasterReason where
  | staffDeactivated
  | staffTrashed
  | sourceDeleted
  | superseded
deriving Repr, DecidableEq

structure Master where
  status : MasterStatus
  reason : Option MasterReason
  deleted : Bool
deriving Repr, DecidableEq

inductive RowId where
  | source (t : Tour)
  | master (t : Tour)
deriving Repr, DecidableEq

inductive Row where
  | source (r : Source)
  | master (r : Master)
deriving Repr, DecidableEq

/-- The rows of both tables, for the versions of one key. -/
abbrev Rows := Table RowId Row

def source? (rows : Rows) (t : Tour) : Option Source :=
  match rows.get? (.source t) with
  | some (.source r) => some r
  | _ => none

def master? (rows : Rows) (t : Tour) : Option Master :=
  match rows.get? (.master t) with
  | some (.master r) => some r
  | _ => none

def Source.live (r : Source) : Bool := r.status = .active && !r.deleted

def Source.gone (r : Source) : Bool := r.status = .trashed || r.deleted

/-! ## The updates of a row -/

def Source.trash (r : Source) : Source := { r with status := .trashed, deleted := true }

def Source.restore (r : Source) : Source := { r with status := .active, deleted := false }

def Source.supersede (r : Source) : Source := { r with status := .superseded }

def Source.activate (r : Source) : Source := { r with status := .active }

def Master.pause (m : Master) : Master :=
  { m with status := .inactive, reason := some .staffDeactivated }

def Master.activate (m : Master) : Master := { m with status := .active, reason := none }

def Master.trash (_ : Master) : Master :=
  { status := .trashed, reason := some .staffTrashed, deleted := true }

def Master.restore (_ : Master) : Master :=
  { status := .inactive, reason := some .staffDeactivated, deleted := false }

/-- The switch-off of an active Master over a source that is not live. -/
def Master.switchOff (m : Master) (why : MasterReason) : Master :=
  { m with status := .inactive, reason := some why }

/-! ## `v_tour_liveness` -/

/-- The values of (`state`, `reason`). -/
inductive Liveness where
  | served
  | masterInactive
  | supersededPending
  | masterTrashed
  | sourceDeleted
  | supersededOrphan
deriving Repr, DecidableEq

inductive State where
  | served
  | paused
  | retired
deriving Repr, DecidableEq

def Liveness.state : Liveness → State
  | .served => .served
  | .masterInactive => .paused
  | .supersededPending => .paused
  | .masterTrashed => .retired
  | .sourceDeleted => .retired
  | .supersededOrphan => .retired

def versions (rows : Rows) : List (Tour × Source) :=
  rows.rows.filterMap fun e =>
    match e with
    | (.source t, .source r) => some (t, r)
    | _ => none

/-- `ORDER BY live DESC, source_version DESC, tour_id`. -/
def before (a b : Tour × Source) : Bool :=
  if a.2.live ≠ b.2.live then a.2.live
  else if a.2.version ≠ b.2.version then b.2.version < a.2.version
  else a.1 ≤ b.1

def current (rows : Rows) : Option Tour := (Table.firstBy before (versions rows)).map Prod.fst

def everMaster (rows : Rows) : Bool := (versions rows).any fun v => (master? rows v.1).isSome

def hasLive (rows : Rows) : Bool := (versions rows).any fun v => v.2.live

def anyDeleted (rows : Rows) : Bool := (versions rows).any fun v => v.2.gone

/-- The state by the Master of the live version. -/
def stateOf : Option Master → Liveness
  | some m =>
    if m.status = .active && !m.deleted then .served
    else if m.status = .trashed || m.deleted then .masterTrashed
    else .masterInactive
  | none => .supersededPending

/-- The row of the view, none for a key never served. -/
def servedState (rows : Rows) : Option Liveness :=
  if everMaster rows then
    some
      (if hasLive rows then stateOf ((current rows).bind (master? rows))
       else if anyDeleted rows then .sourceDeleted
       else .supersededOrphan)
  else none

/-! ## Reading the rows -/

section reads

variable {rows : Rows} {t : Tour}

variable {r : Source}

theorem source?_eq_some : source? rows t = some r ↔ rows.get? (.source t) = some (.source r) := by
  unfold source?
  cases h : rows.get? (.source t) with
  | none => simp
  | some v => cases v <;> simp

theorem master?_eq_some {m : Master} : master? rows t = some m ↔ rows.get? (.master t) = some (.master m) := by
  unfold master?
  cases h : rows.get? (.master t) with
  | none => simp
  | some v => cases v <;> simp

@[simp] theorem source?_upsert (u : Tour) (r : Source) :
    source? (rows.upsert (.source u) (.source r)) t = if t = u then some r else source? rows t := by
  unfold source?
  by_cases h : t = u
  · simp [h]
  · simp [h]

@[simp] theorem master?_upsert_source (u : Tour) (r : Row) : master? (rows.upsert (.source u) r) t = master? rows t := by
  unfold master?
  rw [Table.get?_upsert, if_neg (by simp)]

@[simp] theorem master?_upsert (u : Tour) (m : Master) :
    master? (rows.upsert (.master u) (.master m)) t = if t = u then some m else master? rows t := by
  unfold master?
  by_cases h : t = u
  · simp [h]
  · simp [h]

@[simp] theorem source?_upsert_master (u : Tour) (r : Row) : source? (rows.upsert (.master u) r) t = source? rows t := by
  unfold source?
  rw [Table.get?_upsert, if_neg (by simp)]

theorem mem_versions : (t, r) ∈ versions rows ↔ source? rows t = some r := by
  rw [source?_eq_some, Table.get?_eq_some_iff]
  unfold versions
  rw [List.mem_filterMap]
  constructor
  · rintro ⟨⟨k, v⟩, hmem, heq⟩
    cases k <;> cases v <;> simp at heq
    obtain ⟨rfl, rfl⟩ := heq
    exact hmem
  · intro h
    exact ⟨_, h, rfl⟩

theorem everMaster_iff : everMaster rows = true ↔ ∃ t, (source? rows t).isSome ∧ (master? rows t).isSome := by
  unfold everMaster
  rw [List.any_eq_true]
  constructor
  · rintro ⟨⟨t, r⟩, hmem, hm⟩
    exact ⟨t, by rw [mem_versions.1 hmem]; rfl, hm⟩
  · rintro ⟨t, hs, hm⟩
    obtain ⟨r, hr⟩ := isSome_iff_exists.1 hs
    exact ⟨(t, r), mem_versions.2 hr, hm⟩

theorem any_versions {p : Source → Bool} :
    ((versions rows).any fun v => p v.2) = true ↔ ∃ t r, source? rows t = some r ∧ p r = true := by
  rw [List.any_eq_true]
  constructor
  · rintro ⟨⟨t, r⟩, hmem, hp⟩
    exact ⟨t, r, mem_versions.1 hmem, hp⟩
  · rintro ⟨t, r, hr, hp⟩
    exact ⟨(t, r), mem_versions.2 hr, hp⟩

theorem hasLive_iff : hasLive rows = true ↔ ∃ t r, source? rows t = some r ∧ r.live = true :=
  any_versions

theorem before_total (a b : Tour × Source) : before a b = true ∨ before b a = true := by
  unfold before
  by_cases hl : a.2.live = b.2.live
  · by_cases hv : a.2.version = b.2.version
    · simp only [hl, hv, ne_eq, not_true_eq_false, if_false, decide_eq_true_eq]
      exact Nat.le_total a.1 b.1
    · have hv' : ¬ b.2.version = a.2.version := fun h => hv h.symm
      simp only [hl, hv, hv', ne_eq, not_true_eq_false, not_false_eq_true, if_false, if_true, decide_eq_true_eq]
      omega
  · cases ha : a.2.live <;> cases hb : b.2.live <;> simp_all

theorem before_trans (a b c : Tour × Source) (hab : before a b = true) (hbc : before b c = true) : before a c = true := by
  unfold before at *
  cases ha : a.2.live <;> cases hb : b.2.live <;> cases hc : c.2.live <;>
    simp only [ha, hb, hc, ne_eq, not_true_eq_false, not_false_eq_true, if_false, if_true, reduceCtorEq] at *
  all_goals
    split at hab <;> split at hbc <;> split <;> simp only [decide_eq_true_eq] at * <;>
      first | omega | exact Nat.le_trans hab hbc

/-- At most one version of the key is active (`uq_raw_tours_active_per_group`). -/
def OneActive (rows : Rows) : Prop :=
  ∀ t u r v, source? rows t = some r → source? rows u = some v → r.status = .active →
    v.status = .active → t = u

theorem current_of_live (hone : OneActive rows) (hr : source? rows t = some r)
    (hlive : r.live = true) : current rows = some t := by
  unfold current
  cases hf : Table.firstBy before (versions rows) with
  | none =>
    rw [Table.firstBy_eq_none] at hf
    have := mem_versions.2 hr
    rw [hf] at this
    cases this
  | some a =>
    obtain ⟨hmem, hmin⟩ := Table.firstBy_spec before before_total before_trans _ a hf
    have hfirst := hmin _ (mem_versions.2 hr)
    have halive : a.2.live = true := by
      unfold before at hfirst
      cases ha : a.2.live with
      | true => rfl
      | false => simp [ha, hlive] at hfirst
    have hsrc := mem_versions.1 hmem
    unfold Source.live at hlive halive
    simp only [Bool.and_eq_true, decide_eq_true_eq] at hlive halive
    rw [map_some, hone a.1 t a.2 r hsrc hr halive.1 hlive.1]

theorem servedState_of_live (hone : OneActive rows) (hr : source? rows t = some r) (hlive : r.live = true) :
    servedState rows = if everMaster rows then some (stateOf (master? rows t)) else none := by
  unfold servedState
  rw [if_pos (hasLive_iff.2 ⟨t, r, hr, hlive⟩), current_of_live hone hr hlive, bind_some]

theorem servedState_of_noLive (h : hasLive rows = false) : servedState rows = if everMaster rows then
      some (if anyDeleted rows then .sourceDeleted else .supersededOrphan) else none := by
  unfold servedState
  rw [h]
  rfl

end reads

/-! ## A key before its first Master -/

/-- Versions only, as `insert_new_sources` and the source actions leave them. -/
structure NeverServed (rows : Rows) : Prop where
  noMaster : ∀ t, master? rows t = none
  one : OneActive rows

/-- The row that `insert_new_sources` starts a key with. -/
def ingested (t : Tour) : Rows :=
  ⟨[(.source t, .source ⟨.active, false, 1⟩)], List.nodup_singleton _⟩

theorem source?_ingested {t u : Tour} {r : Source} (h : source? (ingested t) u = some r) : u = t := by
  rw [← mem_versions] at h
  have : u = t ∧ r = ⟨.active, false, 1⟩ := by simpa [versions, ingested] using h
  exact this.1

theorem neverServed_ingested (t : Tour) : NeverServed (ingested t) where
  noMaster := by
    intro u
    by_contra hne
    obtain ⟨m, hm⟩ := ne_none_iff_exists'.1 hne
    rw [master?_eq_some, Table.get?_eq_some_iff] at hm
    simp [ingested] at hm
  one := by
    intro u w r v hr hv _ _
    rw [source?_ingested hr, source?_ingested hv]

end CisApp.Lifecycle
