import CisApp.Retention.Rollups

/-! The hourly usage rollup (`api/services/usage_rollup.py`, `services/jobs/ai_usage_rollup_job.py`) beside the
retention of the ledgers it is made from (`services/jobs/retention_job.py`).

A rollup run clamps its range to the raw window at its own `now` and rewrites it chunk by chunk: the rows of the
chunk's hours are deleted and inserted again from the ledgers.  A retention run deletes ledger rows before its
cutoff.  `shared.dfs_call_log` and `geo.geocode_call` have no retention.

Times are microseconds from 1 January 2000; an earlier `from` or `to` counts as that, which `clamp_range` does not
tell apart.  Costs are in units of `10⁻⁸` in the ledgers (`numeric(12, 8)` of `decision_log`) and of `10⁻⁶` in the
rollup. -/

namespace CisApp.Usage

open Lib Retention List

/-! ## The ranges -/

def chunk : Nat := 24 * hour

def rawWindow : Nat := 175 * dayLength

def lateHours : Nat := 6

def floorHour (t : Nat) : Nat := t / hour * hour

def ceilHour (t : Nat) : Nat := if floorHour t = t then t else floorHour t + hour

/-- `chunks`; a list of `b - a` of them is long enough. -/
def chunksFrom (b : Nat) : Nat → Nat → List (Nat × Nat)
  | 0, _ => []
  | fuel + 1, a => if a < b then (a, min (a + chunk) b) :: chunksFrom b fuel (min (a + chunk) b) else []

def chunks (a b : Nat) : List (Nat × Nat) := chunksFrom b ((b - a) / chunk + 1) a

def clampRange (since until' now : Nat) : Option (Nat × Nat) :=
  let lo := floorHour (now - rawWindow) + hour
  let hi := floorHour now + hour
  let a := max (floorHour since) lo
  let b := min (ceilHour until') hi
  if b ≤ a then none else some (a, b)

/-- A time of the payload: an ISO date-time, or something else. -/
inductive IsoTime where
  | time (t : Nat)
  | malformed
deriving Repr, DecidableEq

inductive RollupMode where
  | schedule
  | backfill
  | manual
deriving Repr, DecidableEq

structure RollupPayload where
  /-- `none`: not one of `MODES`. -/
  mode : Option RollupMode
  from? : Option IsoTime
  to? : Option IsoTime
deriving Repr, DecidableEq

/-- `plan`; `none` is `NonRetryable`. -/
def plan (payload : RollupPayload) (now : Nat) : Option (Nat × Nat) :=
  let stop := floorHour now + hour
  match payload.mode with
  | none => none
  | some .schedule => clampRange (stop - lateHours * hour) stop now
  | some .backfill =>
    match payload.from? with
    | some .malformed => none
    | some (.time t) => clampRange t stop now
    | none => clampRange (now - rawWindow) stop now
  | some .manual =>
    match payload.from?, payload.to? with
    | some (.time since), some (.time until') => clampRange since until' now
    | _, _ => none

/-! ## The tables -/

inductive Source where
  | llm
  | jev
  | dfs
  | geocoder
deriving Repr, DecidableEq

variable {δ : Type}

/-- A ledger row; `dims` are the stored dimensions. -/
structure LedgerRow (δ : Type) where
  source : Source
  at₀ : Nat
  dims : δ
  requests : Nat
  cost : Nat
deriving DecidableEq

inductive Metric where
  | ledgerRows
  | requests
  | costUsd

/-- What the `SELECT` makes of the rows of a group; the cost is rounded to the column's scale. -/
def Metric.measure : Metric → List (LedgerRow δ) → Nat
  | .ledgerRows, rows => rows.length
  | .requests, rows => (rows.map LedgerRow.requests).sum
  | .costUsd, rows => ((rows.map LedgerRow.cost).sum + 50) / 100

def LedgerRow.key (r : LedgerRow δ) : Nat × Source × δ := (floorHour r.at₀, r.source, r.dims)

/-- A row of `shared.ai_usage_hourly`. -/
structure HourRow (δ : Type) where
  key : Nat × Source × δ
  value : Metric → Nat

inductive Kind where
  | llmCallLog
  | decisionLog
deriving Repr, DecidableEq

def Kind.source : Kind → Source
  | .llmCallLog => .llm
  | .decisionLog => .jev

/-- The window of its only part, 180 days for both (`CACHE_MAX_AGE_DAYS`). -/
def windowDays : Nat := 180

structure RetentionRun where
  cut : Nat
  override : Bool

/-- `override_cutoff` and the policy's cutoff; only `llm_call_log` of the two accepts an override. -/
def Kind.cutoff (kind : Kind) (payload : Payload) (now : Nat) (env : String) : Option RetentionRun :=
  if payload.trigger = .manualOverride ∧ kind = .decisionLog then none
  else
    match overrideCutoff false payload (dayOf now) env with
    | .error _ => none
    | .ok (some day) => some ⟨day, true⟩
    | .ok none => some ⟨dayOf now - windowDays, false⟩

/-- A rollup run: when it made its plan, and the chunks to do. -/
structure RollupRun where
  plannedAt : Nat
  pending : List (Nat × Nat)

structure State (δ : Type) where
  now : Nat
  ledger : List (LedgerRow δ)
  inserted : List (LedgerRow δ)
  /-- The rows that retention runs have deleted, and whether the run was an override. -/
  deleted : List (Bool × LedgerRow δ)
  hourly : List (HourRow δ)
  retention : Kind → Option RetentionRun
  rollup : Option RollupRun

def init : State δ := ⟨midnight 8766, [], [], [], [], fun _ => none, none⟩

inductive Act (δ : Type) where
  | tick (d : Nat)
  | insert (row : LedgerRow δ)
  | startRetention (kind : Kind) (env : String) (payload : Payload) (windows candidates : Nat)
      (prevLive : Option LiveResult)
  | purge (kind : Kind) (batch : LedgerRow δ → Bool)
  | endRetention (kind : Kind)
  | startRollup (payload : RollupPayload)
  | roll
  | endRollup

section Step

variable [DecidableEq δ]

/-- The `INSERT … SELECT` of a chunk. -/
def rolled (ledger : List (LedgerRow δ)) (a b : Nat) : List (HourRow δ) :=
  let rows := ledger.filter fun r => a ≤ r.at₀ && r.at₀ < b
  (GroupBy.groups LedgerRow.key rows).map fun k =>
    ⟨k, fun m => m.measure (rows.filter fun r => r.key = k)⟩

def step (s : State δ) : Act δ → State δ
  | .tick d => { s with now := s.now + d }
  | .insert row => { s with ledger := s.ledger ++ [row], inserted := s.inserted ++ [row] }
  | .startRetention kind env payload windows candidates prevLive =>
    if (s.retention kind).isSome then s
    else
      match kind.cutoff payload s.now env, decideMode payload windows candidates prevLive with
      | some run, .ok (.live, _) => { s with retention := Function.update s.retention kind (some run) }
      | _, _ => s
  | .purge kind batch =>
    match s.retention kind with
    | none => s
    | some run =>
      let gone := fun r : LedgerRow δ => decide (r.source = kind.source) && r.at₀ < midnight run.cut && batch r
      { s with
        ledger := s.ledger.filter fun r => !gone r
        deleted := s.deleted ++ (s.ledger.filter gone).map fun r => (run.override, r) }
  | .endRetention kind => { s with retention := Function.update s.retention kind none }
  | .startRollup payload =>
    match s.rollup, plan payload s.now with
    | none, some (a, b) => { s with rollup := some ⟨s.now, chunks a b⟩ }
    | _, _ => s
  | .roll =>
    match s.rollup with
    | some ⟨plannedAt, (a, b) :: pending⟩ =>
      { s with
        hourly := (s.hourly.filter fun x => !(a ≤ x.key.1 && x.key.1 < b)) ++ rolled s.ledger a b
        rollup := some ⟨plannedAt, pending⟩ }
    | _ => s
  | .endRollup => { s with rollup := none }

end Step

/-! ## Totals -/

def State.total (s : State δ) (h : Nat) (source : Source) (m : Metric) : Nat :=
  ((s.hourly.filter fun x => x.key.1 = h && x.key.2.1 = source).map fun x => x.value m).sum

def NeverLess (s s' : State δ) : Prop := ∀ h source m, s.total h source m ≤ s'.total h source m

/-- A chunk is rolled at most five days after its run's plan, and no row of its hours was deleted by an
override. -/
def Fresh (s : State δ) : Act δ → Prop
  | .roll =>
    match s.rollup with
    | some ⟨plannedAt, (a, b) :: _⟩ =>
      s.now ≤ plannedAt + 5 * dayLength ∧ ∀ r, (true, r) ∈ s.deleted → ¬ (a ≤ r.at₀ ∧ r.at₀ < b)
    | _ => True
  | _ => True

/-! ## Hours and chunks -/

theorem hour_dvd_floorHour (t : Nat) : hour ∣ floorHour t := Dvd.intro_left (t / hour) rfl

theorem floorHour_le (t : Nat) : floorHour t ≤ t := Nat.div_mul_le_self t hour

theorem lt_floorHour_add (t : Nat) : t < floorHour t + hour := by
  have h := Nat.lt_div_mul_add (a := t) (b := hour) (by decide)
  exact h

theorem hour_dvd_ceilHour (t : Nat) : hour ∣ ceilHour t := by
  unfold ceilHour
  split
  · next h => exact h ▸ hour_dvd_floorHour t
  · exact (Nat.dvd_add_right (hour_dvd_floorHour t)).2 dvd_rfl

theorem le_floorHour_iff {a : Nat} (ha : hour ∣ a) (t : Nat) : a ≤ floorHour t ↔ a ≤ t := by
  obtain ⟨n, rfl⟩ := ha
  constructor
  · exact fun h => h.trans (floorHour_le t)
  · intro h
    have hn : n ≤ t / hour := (Nat.le_div_iff_mul_le (by decide)).2 (by rwa [Nat.mul_comm])
    show hour * n ≤ t / hour * hour
    rw [Nat.mul_comm]
    exact Nat.mul_le_mul_right hour hn

theorem floorHour_lt_iff {b : Nat} (hb : hour ∣ b) (t : Nat) : floorHour t < b ↔ t < b := by
  rw [← Nat.not_le, ← Nat.not_le, le_floorHour_iff hb]

theorem hour_dvd_chunk : hour ∣ chunk := ⟨24, by decide⟩

theorem mem_chunksFrom {b : Nat} (hb : hour ∣ b) {fuel a : Nat} (ha : hour ∣ a) {c : Nat × Nat}
    (hc : c ∈ chunksFrom b fuel a) : hour ∣ c.1 ∧ hour ∣ c.2 ∧ a ≤ c.1 := by
  induction fuel generalizing a with
  | zero => cases hc
  | succ fuel ih =>
    have hnext : hour ∣ min (a + chunk) b := by
      rcases Nat.le_total (a + chunk) b with h | h
      · rw [Nat.min_eq_left h]
        exact dvd_add ha hour_dvd_chunk
      · rwa [Nat.min_eq_right h]
    rw [chunksFrom] at hc
    split at hc
    · next hab =>
      rcases mem_cons.1 hc with rfl | hc
      · exact ⟨ha, hnext, le_rfl⟩
      · obtain ⟨h1, h2, h3⟩ := ih hnext hc
        refine ⟨h1, h2, le_trans ?_ h3⟩
        omega
    · cases hc

theorem clampRange_spec {since until' now a b : Nat} (h : clampRange since until' now = some (a, b)) :
    hour ∣ a ∧ hour ∣ b ∧ now - rawWindow < a := by
  unfold clampRange at h
  simp only at h
  split at h
  · cases h
  · obtain ⟨rfl, rfl⟩ := Prod.mk.injEq _ _ _ _ ▸ Option.some.inj h
    refine ⟨?_, ?_, ?_⟩
    · rcases max_choice (floorHour since) (floorHour (now - rawWindow) + hour) with h | h <;> rw [h]
      · exact hour_dvd_floorHour since
      · exact dvd_add (hour_dvd_floorHour _) dvd_rfl
    · rcases min_choice (ceilHour until') (floorHour now + hour) with h | h <;> rw [h]
      · exact hour_dvd_ceilHour until'
      · exact dvd_add (hour_dvd_floorHour _) dvd_rfl
    · exact lt_max_of_lt_right (lt_floorHour_add (now - rawWindow))

theorem plan_spec {payload : RollupPayload} {now a b : Nat} (h : plan payload now = some (a, b)) :
    hour ∣ a ∧ hour ∣ b ∧ now - rawWindow < a := by
  unfold plan at h
  split at h
  · cases h
  · exact clampRange_spec h
  · split at h
    · cases h
    · exact clampRange_spec h
    · exact clampRange_spec h
  · split at h
    · exact clampRange_spec h
    · cases h

theorem midnight_window_le {now plannedAt : Nat} (h : now ≤ plannedAt + 5 * dayLength) :
    midnight (dayOf now - windowDays) ≤ plannedAt - rawWindow := by
  have hday : dayOf now * dayLength ≤ now := Nat.div_mul_le_self now dayLength
  have hsub : midnight (dayOf now - windowDays) = dayOf now * dayLength - windowDays * dayLength :=
    Nat.sub_mul _ _ _
  have hwindow : windowDays * dayLength = rawWindow + 5 * dayLength := by decide
  omega

theorem midnight_mono {d d' : Nat} (h : d ≤ d') : midnight d ≤ midnight d' := Nat.mul_le_mul_right _ h

theorem dayOf_mono {t t' : Nat} (h : t ≤ t') : dayOf t ≤ dayOf t' := Nat.div_le_div_right h

/-! ## The figures of the inserted rows -/

theorem Metric.measure_mono (m : Metric) {l l' : List (LedgerRow δ)} (h : l.Subperm l') : m.measure l ≤ m.measure l' := by
  have hsum : ∀ f : LedgerRow δ → Nat, (l.map f).sum ≤ (l'.map f).sum := by
    intro f
    obtain ⟨mid, hperm, hsub⟩ := h
    rw [← (hperm.map f).sum_eq]
    exact (hsub.map f).sum_le_sum fun _ _ => Nat.zero_le _
  cases m with
  | ledgerRows => exact h.length_le
  | requests => exact hsum LedgerRow.requests
  | costUsd => exact Nat.div_le_div_right (Nat.add_le_add_right (hsum LedgerRow.cost) 50)

section Figures

variable [DecidableEq δ]

def ofHour (h : Nat) (source : Source) (k : Nat × Source × δ) : Bool := k.1 = h && k.2.1 = source

def figure (rows : List (LedgerRow δ)) (h : Nat) (source : Source) (m : Metric) : Nat :=
  GroupBy.groupTotal LedgerRow.key (ofHour h source) m.measure rows

theorem figure_mono {rows more : List (LedgerRow δ)} {h : Nat} (source : Source) (m : Metric)
    (hsub : ∀ k : Nat × Source × δ, k.1 = h →
      (rows.filter fun r => r.key = k).Subperm (more.filter fun r => r.key = k)) :
    figure rows h source m ≤ figure more h source m := by
  refine GroupBy.groupTotal_mono _ _ (fun hl => m.measure_mono hl) fun k hk => hsub k ?_
  exact of_decide_eq_true (Bool.and_eq_true_iff.1 hk).1

theorem rolled_total (ledger : List (LedgerRow δ)) (a b h : Nat) (source : Source) (m : Metric) :
    (((rolled ledger a b).filter fun x => x.key.1 = h && x.key.2.1 = source).map fun x => x.value m).sum =
      figure (ledger.filter fun r => a ≤ r.at₀ && r.at₀ < b) h source m := by
  unfold rolled figure GroupBy.groupTotal
  rw [filter_map, map_map]
  rfl

theorem mem_rolled {ledger : List (LedgerRow δ)} {a b : Nat} (ha : hour ∣ a) (hb : hour ∣ b) {x : HourRow δ}
    (hx : x ∈ rolled ledger a b) : a ≤ x.key.1 ∧ x.key.1 < b := by
  obtain ⟨k, hk, rfl⟩ := mem_map.1 hx
  obtain ⟨r, hr, rfl⟩ := mem_map.1 (mem_dedup.1 hk)
  obtain ⟨h1, h2⟩ := Bool.and_eq_true_iff.1 (mem_filter.1 hr).2
  exact ⟨(le_floorHour_iff ha _).2 (of_decide_eq_true h1), (floorHour_lt_iff hb _).2 (of_decide_eq_true h2)⟩

theorem filter_key_chunk {a b : Nat} (ha : hour ∣ a) (hb : hour ∣ b) (rows : List (LedgerRow δ))
    {k : Nat × Source × δ} (hk : a ≤ k.1 ∧ k.1 < b) :
    ((rows.filter fun r => a ≤ r.at₀ && r.at₀ < b).filter fun r => r.key = k) = rows.filter fun r => r.key = k := by
  rw [filter_filter]
  refine filter_congr fun r _ => ?_
  by_cases hr : r.key = k
  · have hhour : floorHour r.at₀ = k.1 := congrArg Prod.fst hr
    have h1 : a ≤ r.at₀ := (le_floorHour_iff ha _).1 (hhour ▸ hk.1)
    have h2 : r.at₀ < b := (floorHour_lt_iff hb _).1 (hhour ▸ hk.2)
    simp [hr, h1, h2]
  · simp [hr]

end Figures

/-! ## The invariant -/

/-- What the runs keep up: the deleted rows are known, those without an override are old, the chunks to do lie
in the raw window of their plan, and no figure is more than its inserted rows make. -/
structure Inv [DecidableEq δ] (s : State δ) : Prop where
  kept : s.inserted.Perm (s.ledger ++ s.deleted.map Prod.snd)
  old : ∀ r, (false, r) ∈ s.deleted → r.at₀ < midnight (dayOf s.now - windowDays)
  cut : ∀ kind run, s.retention kind = some run → run.override = false → run.cut ≤ dayOf s.now - windowDays
  pending : ∀ run, s.rollup = some run → ∀ c ∈ run.pending,
    hour ∣ c.1 ∧ hour ∣ c.2 ∧ run.plannedAt - rawWindow < c.1
  bound : ∀ h source m, s.total h source m ≤ figure s.inserted h source m

section Steps

variable [DecidableEq δ]

theorem inv_init : Inv (init : State δ) where
  kept := List.Perm.refl _
  old r hr := by cases hr
  cut kind run h := by cases h
  pending run h := by cases h
  bound h source m := Nat.zero_le _

theorem total_roll (s : State δ) (a b : Nat) (rollup : Option RollupRun) (h : Nat) (source : Source)
    (m : Metric) :
    State.total { s with
        hourly := (s.hourly.filter fun x => !(a ≤ x.key.1 && x.key.1 < b)) ++ rolled s.ledger a b
        rollup } h source m =
      (((s.hourly.filter fun x => !(a ≤ x.key.1 && x.key.1 < b)).filter
        fun x => x.key.1 = h && x.key.2.1 = source).map fun x => x.value m).sum +
      figure (s.ledger.filter fun r => a ≤ r.at₀ && r.at₀ < b) h source m := by
  unfold State.total
  rw [filter_append, map_append, sum_append, rolled_total]

variable {a b : Nat}

theorem left_total_outside (s : State δ) {h : Nat} (hh : ¬ (a ≤ h ∧ h < b)) (source : Source) (m : Metric) :
    (((s.hourly.filter fun x => !(a ≤ x.key.1 && x.key.1 < b)).filter
      fun x => x.key.1 = h && x.key.2.1 = source).map fun x => x.value m).sum = s.total h source m := by
  rw [filter_filter]
  congr 2
  refine filter_congr fun x _ => ?_
  by_cases hx : x.key.1 = h
  · subst hx
    have hout : (decide (a ≤ x.key.1) && decide (x.key.1 < b)) = false := by
      by_contra hne
      obtain ⟨h1, h2⟩ := Bool.and_eq_true_iff.1 (Bool.eq_true_of_not_eq_false hne)
      exact hh ⟨of_decide_eq_true h1, of_decide_eq_true h2⟩
    rw [hout]
    simp
  · simp [hx]

theorem left_total_inside (s : State δ) {h : Nat} (hh : a ≤ h ∧ h < b) (source : Source) (m : Metric) :
    (((s.hourly.filter fun x => !(a ≤ x.key.1 && x.key.1 < b)).filter
      fun x => x.key.1 = h && x.key.2.1 = source).map fun x => x.value m).sum = 0 := by
  have hnil : ((s.hourly.filter fun x => !(a ≤ x.key.1 && x.key.1 < b)).filter
      fun x => x.key.1 = h && x.key.2.1 = source) = [] := by
    rw [filter_filter, filter_eq_nil_iff]
    intro x _ hx
    obtain ⟨hkey, hout⟩ := Bool.and_eq_true_iff.1 hx
    have hhour : x.key.1 = h := of_decide_eq_true (Bool.and_eq_true_iff.1 hkey).1
    simp [hhour, hh.1, hh.2] at hout
  rw [hnil]
  rfl

theorem figure_chunk_outside (rows : List (LedgerRow δ)) {h : Nat} (ha : hour ∣ a) (hb : hour ∣ b)
    (hh : ¬ (a ≤ h ∧ h < b)) (source : Source) (m : Metric) :
    figure (rows.filter fun r => a ≤ r.at₀ && r.at₀ < b) h source m = 0 := by
  rw [← rolled_total]
  have hnil : ((rolled rows a b).filter fun x => x.key.1 = h && x.key.2.1 = source) = [] := by
    rw [filter_eq_nil_iff]
    intro x hx hkey
    have hhour : x.key.1 = h := of_decide_eq_true (Bool.and_eq_true_iff.1 hkey).1
    exact hh (hhour ▸ mem_rolled ha hb hx)
  rw [hnil]
  rfl

theorem total_roll_cases (s : State δ) (ha : hour ∣ a) (hb : hour ∣ b) (rollup : Option RollupRun)
    (h : Nat) (source : Source) (m : Metric) :
    let s' : State δ := { s with
      hourly := (s.hourly.filter fun x => !(a ≤ x.key.1 && x.key.1 < b)) ++ rolled s.ledger a b
      rollup }
    ((a ≤ h ∧ h < b) ∧ s'.total h source m =
      figure (s.ledger.filter fun r => a ≤ r.at₀ && r.at₀ < b) h source m) ∨
    (¬ (a ≤ h ∧ h < b) ∧ s'.total h source m = s.total h source m) := by
  intro s'
  have htotal := total_roll s a b rollup h source m
  by_cases hh : a ≤ h ∧ h < b
  · rw [left_total_inside s hh, Nat.zero_add] at htotal
    exact Or.inl ⟨hh, htotal⟩
  · rw [left_total_outside s hh, figure_chunk_outside s.ledger ha hb hh, Nat.add_zero] at htotal
    exact Or.inr ⟨hh, htotal⟩

theorem cutoff_spec {kind : Kind} {payload : Payload} {now : Nat} {env : String} {run : RetentionRun}
    (h : kind.cutoff payload now env = some run) (hrun : run.override = false) : run.cut = dayOf now - windowDays := by
  unfold Kind.cutoff at h
  split at h
  · cases h
  · split at h
    · cases h
    · obtain rfl := Option.some.inj h
      cases hrun
    · obtain rfl := Option.some.inj h
      rfl

variable {s : State δ}

theorem Inv.deleted_outside (hs : Inv s) {run : RollupRun} (hrun : s.rollup = some run)
    {c : Nat × Nat} (hc : c ∈ run.pending) (hnow : s.now ≤ run.plannedAt + 5 * dayLength)
    (hoverride : ∀ r, (true, r) ∈ s.deleted → ¬ (c.1 ≤ r.at₀ ∧ r.at₀ < c.2)) :
    ∀ r ∈ s.deleted.map Prod.snd, ¬ (c.1 ≤ r.at₀ ∧ r.at₀ < c.2) := by
  intro r hr hin
  obtain ⟨⟨flag, r⟩, hmem, rfl⟩ := mem_map.1 hr
  cases flag with
  | true => exact hoverride r hmem hin
  | false =>
    have hold := hs.old r hmem
    have hwindow := midnight_window_le hnow
    have hstart := (hs.pending run hrun c hc).2.2
    have hle : c.1 ≤ r.at₀ := hin.1
    omega

theorem Inv.figure_chunk (hs : Inv s) (ha : hour ∣ a) (hb : hour ∣ b)
    (hout : ∀ r ∈ s.deleted.map Prod.snd, ¬ (a ≤ r.at₀ ∧ r.at₀ < b)) {h : Nat} (hh : a ≤ h ∧ h < b)
    (source : Source) (m : Metric) :
    figure s.inserted h source m ≤ figure (s.ledger.filter fun r => a ≤ r.at₀ && r.at₀ < b) h source m := by
  refine figure_mono source m fun k hk => ?_
  have hk' : a ≤ k.1 ∧ k.1 < b := hk ▸ hh
  have hnone : (s.deleted.map Prod.snd).filter (fun r => r.key = k) = [] := by
    rw [filter_eq_nil_iff]
    intro r hr hkey
    have hhour : floorHour r.at₀ = k.1 := congrArg Prod.fst (of_decide_eq_true hkey)
    exact hout r hr ⟨(le_floorHour_iff ha _).1 (hhour ▸ hk'.1), (floorHour_lt_iff hb _).1 (hhour ▸ hk'.2)⟩
  rw [filter_key_chunk ha hb s.ledger hk']
  have hperm := hs.kept.filter fun r => r.key = k
  rw [filter_append, hnone, append_nil] at hperm
  exact hperm.subperm

theorem Inv.figure_le (hs : Inv s) (P : LedgerRow δ → Bool) (h : Nat) (source : Source)
    (m : Metric) : figure (s.ledger.filter P) h source m ≤ figure s.inserted h source m := by
  refine figure_mono source m fun k _ => ?_
  have hsub : (s.ledger.filter P).Subperm s.inserted :=
    (filter_sublist.subperm.trans (sublist_append_left _ _).subperm).trans hs.kept.symm.subperm
  exact hsub.filter _

theorem Inv.update_retention (hs : Inv s) (kind : Kind) (v : Option RetentionRun)
    (hv : ∀ run, v = some run → run.override = false → run.cut ≤ dayOf s.now - windowDays) :
    Inv { s with retention := Function.update s.retention kind v } := by
  refine ⟨hs.kept, hs.old, fun kind' run h ho => ?_, hs.pending, hs.bound⟩
  have h' : Function.update s.retention kind v kind' = some run := h
  by_cases hkind : kind' = kind
  · subst hkind
    rw [Function.update_self] at h'
    exact hv run h' ho
  · rw [Function.update_of_ne hkind] at h'
    exact hs.cut kind' run h' ho

theorem perm_moved (gone : LedgerRow δ → Bool) (flag : Bool) (ledger : List (LedgerRow δ))
    (deleted : List (Bool × LedgerRow δ)) : (ledger ++ deleted.map Prod.snd).Perm (ledger.filter (fun r => !gone r) ++
        (deleted ++ (ledger.filter gone).map fun r => (flag, r)).map Prod.snd) := by
  have hmap : ((ledger.filter gone).map fun r => (flag, r)).map Prod.snd = ledger.filter gone := by
    rw [map_map]
    exact map_id _
  have hsplit := (filter_append_perm gone ledger).symm.trans perm_append_comm
  rw [map_append, hmap]
  refine (hsplit.append_right (deleted.map Prod.snd)).trans ?_
  rw [append_assoc]
  exact perm_append_comm.append_left _

theorem Inv.step (hs : Inv s) (a : Act δ) : Inv (step s a) := by
  cases a with
  | tick d =>
    have hday : dayOf s.now - windowDays ≤ dayOf (s.now + d) - windowDays :=
      Nat.sub_le_sub_right (dayOf_mono (Nat.le_add_right _ _)) _
    exact ⟨hs.kept, fun r hr => (hs.old r hr).trans_le (midnight_mono hday),
      fun kind run h ho => (hs.cut kind run h ho).trans hday, hs.pending, hs.bound⟩
  | insert row =>
    refine ⟨?_, hs.old, hs.cut, hs.pending, fun h source m => (hs.bound h source m).trans ?_⟩
    · show (s.inserted ++ [row]).Perm (s.ledger ++ [row] ++ s.deleted.map Prod.snd)
      refine (hs.kept.append_right [row]).trans ?_
      rw [append_assoc, append_assoc]
      exact perm_append_comm.append_left _
    · exact figure_mono source m fun k _ => ((sublist_append_left _ [row]).filter _).subperm
  | startRetention kind env payload windows candidates prevLive =>
    simp only [Usage.step]
    split
    · exact hs
    · split
      · next run limit hcut hmode =>
        refine hs.update_retention kind (some run) fun run' h ho => ?_
        obtain rfl := Option.some.inj h
        exact (cutoff_spec hcut ho).le
      · exact hs
  | purge kind batch =>
    simp only [Usage.step]
    split
    · exact hs
    · next run hrun =>
      refine ⟨?_, fun r hr => ?_, hs.cut, hs.pending, hs.bound⟩
      · exact hs.kept.trans (perm_moved _ run.override s.ledger s.deleted)
      · rcases mem_append.1 hr with hr | hr
        · exact hs.old r hr
        · obtain ⟨r', hr', heq⟩ := mem_map.1 hr
          obtain ⟨hflag, rfl⟩ := Prod.mk.injEq _ _ _ _ ▸ heq
          obtain ⟨hgone, -⟩ := Bool.and_eq_true_iff.1 (mem_filter.1 hr').2
          have hat := of_decide_eq_true (Bool.and_eq_true_iff.1 hgone).2
          exact hat.trans_le (midnight_mono (hs.cut kind run hrun hflag))
  | endRetention kind => exact hs.update_retention kind none nofun
  | startRollup payload =>
    simp only [Usage.step]
    split
    · next a b hrollup hplan =>
      obtain ⟨ha, hb, hstart⟩ := plan_spec hplan
      refine ⟨hs.kept, hs.old, hs.cut, fun run h c hc => ?_, hs.bound⟩
      cases h
      obtain ⟨h1, h2, h3⟩ := mem_chunksFrom hb ha hc
      exact ⟨h1, h2, hstart.trans_le h3⟩
    · exact hs
  | roll =>
    simp only [Usage.step]
    split
    · next plannedAt a b pending hrollup =>
      obtain ⟨ha, hb, -⟩ := hs.pending _ hrollup (a, b) mem_cons_self
      refine ⟨hs.kept, hs.old, hs.cut, fun run h c hc => ?_, fun h source m => ?_⟩
      · cases h
        exact hs.pending _ hrollup c (mem_cons_of_mem _ hc)
      · rcases total_roll_cases s ha hb (some ⟨plannedAt, pending⟩) h source m with ⟨-, htotal⟩ | ⟨-, htotal⟩
        · exact htotal.trans_le (hs.figure_le _ h source m)
        · exact htotal.trans_le (hs.bound h source m)
    · exact hs
  | endRollup => exact ⟨hs.kept, hs.old, hs.cut, nofun, hs.bound⟩

theorem Inv.neverLess (hs : Inv s) {a : Act δ} (ha : Fresh s a) : NeverLess s (Usage.step s a) := by
  intro h source m
  cases a with
  | tick d => exact le_rfl
  | insert row => exact le_rfl
  | startRetention kind env payload windows candidates prevLive =>
    simp only [Usage.step]
    split
    · exact le_rfl
    · split <;> exact le_rfl
  | purge kind batch =>
    simp only [Usage.step]
    split <;> exact le_rfl
  | endRetention kind => exact le_rfl
  | startRollup payload =>
    simp only [Usage.step]
    split <;> exact le_rfl
  | roll =>
    simp only [Usage.step]
    simp only [Fresh] at ha
    split
    · next plannedAt a b pending hrollup =>
      rw [hrollup] at ha
      obtain ⟨hdvd, hdvd', -⟩ := hs.pending _ hrollup (a, b) mem_cons_self
      have hout := hs.deleted_outside hrollup mem_cons_self ha.1 ha.2
      rcases total_roll_cases s hdvd hdvd' (some ⟨plannedAt, pending⟩) h source m with
        ⟨hin, htotal⟩ | ⟨-, htotal⟩
      · calc s.total h source m
          _ ≤ figure s.inserted h source m := hs.bound h source m
          _ ≤ figure (s.ledger.filter fun r => a ≤ r.at₀ && r.at₀ < b) h source m :=
            hs.figure_chunk hdvd hdvd' hout hin source m
          _ = _ := htotal.symm
      · exact htotal.ge
    · exact le_rfl
  | endRollup => exact le_rfl

end Steps

/-! ## Runs -/

/-- In a run that rewrites chunks only while their ledger rows are all there, no figure of an hour falls. -/
theorem hourly_never_less [DecidableEq δ] (acts : List (Act δ)) (h : Along step Fresh init acts) :
    Along step (fun s a => NeverLess s (step s a)) init acts := by
  have hinv : Always step Inv (init : State δ) acts :=
    Along.always (G := Fresh) (fun s a hs _ => hs.step a) inv_init h
  exact Along.imp_of_always (fun s a hs ha => hs.neverLess ha) hinv h

/-- A call on 1 January 2024, rolled up a month later by a manual run over its day. -/
def rolledDay : List (Act Unit) :=
  [.insert ⟨.llm, midnight 8766, (), 1, 100⟩, .tick (30 * dayLength),
    .startRollup ⟨some .manual, some (.time (midnight 8766)), some (.time (midnight 8767))⟩, .roll, .endRollup]

def rolledAgain : List (Act Unit) :=
  [.startRollup ⟨some .manual, some (.time (midnight 8766)), some (.time (midnight 8767))⟩]

def overridden : List (Act Unit) :=
  [.startRetention .llmCallLog "dev" ⟨.manualOverride, true, .int 10, 10, some (.date 8767)⟩ 180 1 none,
    .purge .llmCallLog (fun _ => true), .endRetention .llmCallLog]

theorem second_rollup_keeps_hour : Along step Fresh init (rolledDay ++ rolledAgain ++ [.roll]) ∧
      Along step (fun s a => NeverLess s (step s a)) init (rolledDay ++ rolledAgain ++ [.roll]) := by
  have h : Along step Fresh init (rolledDay ++ rolledAgain ++ [.roll]) := by
    refine ⟨trivial, trivial, trivial, ⟨by decide, fun r hr => by cases hr⟩, trivial, trivial,
      ⟨by decide, fun r hr => by cases hr⟩, trivial⟩
  exact ⟨h, hourly_never_less _ h⟩

/-- An override in between deletes the call, and the second run then writes the hour without it. -/
theorem hour_erased_after_override :
    ¬ ∀ acts : List (Act Unit), Along step (fun s a => NeverLess s (step s a)) init acts := by
  intro h
  have hrun := h ((rolledDay ++ overridden ++ rolledAgain) ++ [.roll])
  have hlast : NeverLess (run step init (rolledDay ++ overridden ++ rolledAgain)) _ :=
    (along_append.1 hrun).2.1
  have hle := hlast (midnight 8766) .llm .ledgerRows
  revert hle
  decide

end CisApp.Usage
