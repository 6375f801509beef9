import CisApp.Retention.Rollups

/-! The rollups are complete: a day or month that has a rollup row has all its raw rows in it.

A period is rolled up once, from the raw rows seen then, so what matters is that nothing of it is committed
afterwards.  `Inv.late` says so: a transaction that began in a rolled-up period is past its hour.  The
daily rollup and the monthly one of the policy's cutoff read periods that ended weeks ago.  An `older_than` of the last
month, on the other hand, may have the month rolled up in its first minutes: there `Quiet` asks that no
transaction of it is still open. -/

namespace CisApp.Retention

open Lib Lib.Calendar List

variable {ρ γ μ ν : Type}

def rollupSum (rollup : List (RollupRow γ μ)) (p : Nat) (m : μ) : Int :=
  ((rollup.filter fun x => x.period = p).map fun x => x.value m).sum

def Spec.rawSum (spec : Spec ρ γ μ ν) (version : ν) (rows : List ρ) (p : Nat) (m : μ) : Int :=
  GroupBy.coalesceSum ((rows.filter fun r => spec.period (spec.ts r) = p).map (spec.column version m))

/-- The rollup holds, for each of its periods, the sums of all rows ever inserted there; and only rows of such
periods are deleted. -/
structure Complete (spec : Spec ρ γ μ ν) (version : ν) (columns : List μ) (s : State ρ γ μ) : Prop where
  sums : ∀ p, rolled s.rollup p = true → ∀ m ∈ columns,
    rollupSum s.rollup p m = spec.rawSum version s.inserted p m
  deleted : ∀ r ∈ s.deleted, rolled s.rollup (spec.period (spec.ts r)) = true

/-- When an `older_than` run writes its rollup rows, no transaction that can still commit began in a period
that gets some. -/
def Quiet (spec : Spec ρ γ μ ν) (s : State ρ γ μ) : Act ρ ν → Prop
  | .write _ =>
    match s.run with
    | some (.inserting job at₀) =>
      job.forced = true → spec.closed job.cut at₀ = true → ∀ i w, s.writers.get? i = some w →
        s.now ≤ w.start + hour →
        ∀ r ∈ spec.unrolled s.rollup s.raw job.cut, spec.period (spec.ts r) ≠ spec.period w.start
    | _ => True
  | _ => True

/-- What the proof needs of a kind. -/
structure Lawful (spec : Spec ρ γ μ ν) : Prop where
  window : overrideMinAgeDays ≤ spec.windowDays ∧ spec.windowDays ≤ 8766
  mono : ∀ a b, a ≤ b → spec.period a ≤ spec.period b
  whole : ∀ c a b, a < spec.readsTo c → spec.period b = spec.period a → b < spec.readsTo c
  cut : ∀ c, midnight c ≤ spec.readsTo c
  past : ∀ c at₀ now, c + overrideMinAgeDays ≤ dayOf now → spec.closed c at₀ = true → at₀ ≤ now →
    spec.readsTo c ≤ now
  lag : ∀ c now, c + spec.windowDays ≤ dayOf now → spec.readsTo c + hour ≤ now

/-! ## The rollup statement -/

theorem rolled_iff {rollup : List (RollupRow γ μ)} {p : Nat} :
    rolled rollup p = true ↔ ∃ x ∈ rollup, x.period = p := by
  unfold rolled
  rw [any_eq_true]
  simp only [decide_eq_true_eq]

theorem mem_unrolled {spec : Spec ρ γ μ ν} {rollup : List (RollupRow γ μ)} {raw : List ρ} {c : Nat} {r : ρ} :
    r ∈ spec.unrolled rollup raw c ↔
      r ∈ raw ∧ spec.ts r < spec.readsTo c ∧ rolled rollup (spec.period (spec.ts r)) = false := by
  unfold Spec.unrolled
  rw [mem_filter, Bool.and_eq_true, decide_eq_true_eq, Bool.not_eq_true']

theorem mem_grouped [DecidableEq γ] {spec : Spec ρ γ μ ν} {version : ν} {rows : List ρ} {x : RollupRow γ μ}
    (h : x ∈ spec.grouped version rows) : ∃ r ∈ rows, x.period = spec.period (spec.ts r) := by
  obtain ⟨k, hk, rfl⟩ := mem_map.1 h
  obtain ⟨r, hr, rfl⟩ := mem_map.1 (mem_dedup.1 hk)
  exact ⟨r, hr, rfl⟩

theorem foldl_insertRollup [DecidableEq γ] (rollup rows : List (RollupRow γ μ))
    (hnew : ∀ x ∈ rows, rolled rollup x.period = false)
    (hkeys : (rows.map fun x => (x.period, x.group)).Nodup) : rows.foldl insertRollup rollup = rollup ++ rows := by
  have hgen : ∀ (done : List (RollupRow γ μ)), ((done ++ rows).map fun x => (x.period, x.group)).Nodup →
      rows.foldl insertRollup (rollup ++ done) = rollup ++ done ++ rows := by
    clear hkeys
    induction rows with
    | nil => simp
    | cons x rows ih =>
      intro done hdone
      have hfree : ((rollup ++ done).any fun y => (y.period, y.group) = (x.period, x.group)) = false := by
        rw [any_eq_false]
        intro y hy
        rw [decide_eq_true_eq]
        intro heq
        rcases mem_append.1 hy with hy | hy
        · have hper := congrArg Prod.fst heq
          have hroll : rolled rollup x.period = true := rolled_iff.2 ⟨y, hy, hper⟩
          rw [hnew x mem_cons_self] at hroll
          cases hroll
        · rw [map_append] at hdone
          exact (nodup_append.1 hdone).2.2 _ (mem_map.2 ⟨y, hy, rfl⟩) _
            (mem_map.2 ⟨x, mem_cons_self, rfl⟩) heq
      rw [foldl_cons, insertRollup, hfree]
      have hrest := ih (fun y hy => hnew y (mem_cons_of_mem _ hy)) (done ++ [x])
        (by rwa [append_assoc, singleton_append])
      show rows.foldl insertRollup (rollup ++ done ++ [x]) = _
      rw [append_assoc, hrest]
      simp
  have := hgen [] (by simpa using hkeys)
  simpa using this

theorem grouped_keys [DecidableEq γ] (spec : Spec ρ γ μ ν) (version : ν) (rows : List ρ) :
    ((spec.grouped version rows).map fun x => (x.period, x.group)).Nodup := by
  unfold Spec.grouped
  rw [map_map]
  have hid : ((fun x : RollupRow γ μ => (x.period, x.group)) ∘ fun k : Nat × γ =>
      (⟨k.1, k.2, fun m => GroupBy.groupSum (spec.key version) (spec.column version m) rows k⟩ : RollupRow γ μ)) =
      id := rfl
  rw [hid, map_id]
  exact nodup_dedup _

theorem write_eq [DecidableEq γ] (spec : Spec ρ γ μ ν) (version : ν) (rollup : List (RollupRow γ μ)) (raw : List ρ) (c now : Nat)
    (hclosed : spec.closed c now = true) :
    spec.write version rollup raw c now = rollup ++ spec.grouped version (spec.unrolled rollup raw c) := by
  unfold Spec.write
  rw [if_pos hclosed]
  refine foldl_insertRollup rollup _ (fun x hx => ?_) (grouped_keys spec version _)
  obtain ⟨r, hr, hper⟩ := mem_grouped hx
  rw [hper]
  exact (mem_unrolled.1 hr).2.2

theorem rolled_append {rollup rows : List (RollupRow γ μ)} {p : Nat} :
    rolled (rollup ++ rows) p = (rolled rollup p || rolled rows p) := any_append

theorem rollupSum_grouped [DecidableEq γ] (spec : Spec ρ γ μ ν) (version : ν) (rows : List ρ) (p : Nat) (m : μ) :
    rollupSum (spec.grouped version rows) p m = spec.rawSum version rows p m := by
  unfold rollupSum Spec.rawSum Spec.grouped
  rw [filter_map, map_map]
  have hkeys : ((GroupBy.groups (spec.key version) rows).filter fun k => k.1 = p).Nodup :=
    (nodup_dedup _).filter _
  have hsum := GroupBy.sum_groupSum (spec.key version) (spec.column version m)
    (rows.filter fun r => spec.period (spec.ts r) = p) hkeys fun r hr => ?_
  · rw [← hsum]
    refine congrArg List.sum (map_congr_left fun k hk => ?_)
    have hp : k.1 = p := by simpa using (mem_filter.1 hk).2
    show GroupBy.groupSum _ _ rows k = GroupBy.groupSum _ _ _ k
    unfold GroupBy.groupSum
    rw [filter_filter]
    refine congrArg (fun l => GroupBy.coalesceSum (List.map (spec.column version m) l))
      (filter_congr fun r _ => ?_)
    by_cases hkey : spec.key version r = k
    · have : spec.period (spec.ts r) = p := by rw [← hp, ← hkey]; rfl
      simp [hkey, this]
    · simp [hkey]
  · obtain ⟨hr, hp⟩ := mem_filter.1 hr
    refine mem_filter.2 ⟨mem_dedup.2 (mem_map.2 ⟨r, hr, rfl⟩), ?_⟩
    exact hp

/-! ## The invariant -/

def Job.Aged (spec : Spec ρ γ μ ν) (now : Nat) (job : Job) : Prop :=
  job.cut + (if job.forced then overrideMinAgeDays else spec.windowDays) ≤ dayOf now

/-- What holds where a run stands. -/
def Phase.Ok (spec : Spec ρ γ μ ν) (s : State ρ γ μ) : Phase → Prop
  | .counting _ forced => ∀ c, forced = some c → c + overrideMinAgeDays ≤ dayOf s.now
  | .rollup job => job.Aged spec s.now
  | .inserting job at₀ => job.Aged spec s.now ∧ at₀ ≤ s.now
  | .checking job => job.Aged spec s.now
  | .deleting job => job.Aged spec s.now ∧
    ∀ r ∈ s.raw, spec.ts r < midnight job.cut → rolled s.rollup (spec.period (spec.ts r)) = true

structure Inv (spec : Spec ρ γ μ ν) (s : State ρ γ μ) : Prop where
  clock : midnight 8766 ≤ s.now
  writers : ∀ i w, s.writers.get? i = some w → w.start ≤ s.now ∧ ∀ r ∈ w.rows, spec.ts r = w.start
  parts : s.inserted.Perm (s.raw ++ s.deleted)
  closed : ∀ p, rolled s.rollup p = true → p < spec.period s.now
  late : ∀ i w, s.writers.get? i = some w → rolled s.rollup (spec.period w.start) = true →
    w.start + hour < s.now
  sums : ∀ p, rolled s.rollup p = true → ∀ m, (∀ v v', spec.column v m = spec.column v' m) → ∀ version,
    rollupSum s.rollup p m = spec.rawSum version s.inserted p m
  deleted : ∀ r ∈ s.deleted, rolled s.rollup (spec.period (spec.ts r)) = true
  run : ∀ phase, s.run = some phase → phase.Ok spec s

theorem dayOf_mono {a b : Nat} (h : a ≤ b) : dayOf a ≤ dayOf b := Nat.div_le_div_right h

theorem midnight_le {d t : Nat} (h : d ≤ dayOf t) : midnight d ≤ t :=
  (Nat.le_div_iff_mul_le (by decide)).1 h

theorem Job.Aged.mono {spec : Spec ρ γ μ ν} {now now' : Nat} {job : Job} (h : job.Aged spec now)
    (hle : now ≤ now') : job.Aged spec now' := le_trans h (dayOf_mono hle)

theorem Job.Aged.min {spec : Spec ρ γ μ ν} (hspec : Lawful spec) {now : Nat} {job : Job}
    (h : job.Aged spec now) : job.cut + overrideMinAgeDays ≤ dayOf now := by
  have hwin := hspec.window.1
  unfold Job.Aged at h
  split at h <;> omega

theorem midnight_add_hour_le {c now : Nat} (h : c + overrideMinAgeDays ≤ dayOf now) :
    midnight c + hour < now := by
  have := midnight_le h
  unfold midnight dayLength hour overrideMinAgeDays at *
  omega

theorem Phase.Ok.mono {spec : Spec ρ γ μ ν} (hspec : Lawful spec) {s s' : State ρ γ μ} {phase : Phase}
    (h : phase.Ok spec s) (hnow : s.now ≤ s'.now) (hrollup : s'.rollup = s.rollup)
    (hraw : ∀ r ∈ s'.raw, r ∈ s.raw ∨ s'.now ≤ spec.ts r + hour) : phase.Ok spec s' := by
  cases phase with
  | counting payload forced => exact fun c hc => le_trans (h c hc) (dayOf_mono hnow)
  | rollup job => exact Job.Aged.mono h hnow
  | inserting job at₀ => exact ⟨h.1.mono hnow, le_trans h.2 hnow⟩
  | checking job => exact Job.Aged.mono h hnow
  | deleting job =>
    refine ⟨h.1.mono hnow, fun r hr hlt => ?_⟩
    rw [hrollup]
    rcases hraw r hr with hold | hnew
    · exact h.2 r hold hlt
    · have := midnight_add_hour_le ((h.1.mono hnow).min hspec)
      omega

theorem Inv.of_run {spec : Spec ρ γ μ ν} {s : State ρ γ μ} (h : Inv spec s) {run : Option Phase}
    (hrun : ∀ phase, run = some phase → phase.Ok spec { s with run := run }) : Inv spec { s with run := run } :=
  ⟨h.clock, h.writers, h.parts, h.closed, h.late, h.sums, h.deleted, hrun⟩

theorem Inv.stop {spec : Spec ρ γ μ ν} {s : State ρ γ μ} (h : Inv spec s) : Inv spec { s with run := none } :=
  h.of_run fun phase hphase => nomatch hphase

theorem Inv.tick {spec : Spec ρ γ μ ν} (hspec : Lawful spec) {s : State ρ γ μ} (h : Inv spec s) (d : Nat) :
    Inv spec { s with now := s.now + d } := by
  have hle : s.now ≤ s.now + d := Nat.le_add_right _ _
  refine ⟨le_trans h.clock hle, fun i w hw => ?_, h.parts, fun p hp => ?_, fun i w hw hr => ?_, h.sums,
    h.deleted, fun phase hphase => ?_⟩
  · exact ⟨le_trans (h.writers i w hw).1 hle, (h.writers i w hw).2⟩
  · exact lt_of_lt_of_le (h.closed p hp) (hspec.mono _ _ hle)
  · exact lt_of_lt_of_le (h.late i w hw hr) hle
  · exact (h.run phase hphase).mono hspec hle rfl fun r hr => Or.inl hr

theorem Inv.put {spec : Spec ρ γ μ ν} (hspec : Lawful spec) {s : State ρ γ μ} (h : Inv spec s) {i : Nat}
    {w : Writer ρ} (hstart : w.start ≤ s.now) (hrows : ∀ r ∈ w.rows, spec.ts r = w.start)
    (hlate : rolled s.rollup (spec.period w.start) = true → w.start + hour < s.now) :
    Inv spec { s with writers := s.writers.upsert i w } := by
  refine ⟨h.clock, fun j w' hj => ?_, h.parts, h.closed, fun j w' hj => ?_, h.sums, h.deleted,
    fun phase hphase => ?_⟩
  · rw [Table.get?_upsert] at hj
    split at hj
    · cases hj
      exact ⟨hstart, hrows⟩
    · exact h.writers j w' hj
  · rw [Table.get?_upsert] at hj
    split at hj
    · cases hj
      exact hlate
    · exact h.late j w' hj
  · exact (h.run phase hphase).mono hspec (le_refl _) rfl fun r hr => Or.inl hr

theorem get?_of_delete {t : Table Nat (Writer ρ)} {i j : Nat} {w : Writer ρ}
    (h : (t.delete fun j _ => j = i).get? j = some w) : t.get? j = some w := by
  rw [Table.get?_delete, Option.filter_eq_some_iff] at h
  exact h.1

theorem Inv.drop {spec : Spec ρ γ μ ν} (hspec : Lawful spec) {s : State ρ γ μ} (h : Inv spec s) (i : Nat) :
    Inv spec { s with writers := s.writers.delete fun j _ => j = i } :=
  ⟨h.clock, fun j w hj => h.writers j w (get?_of_delete hj), h.parts, h.closed,
    fun j w hj => h.late j w (get?_of_delete hj), h.sums, h.deleted,
    fun phase hphase => (h.run phase hphase).mono hspec (le_refl _) rfl fun r hr => Or.inl hr⟩

theorem rawSum_append (spec : Spec ρ γ μ ν) (version : ν) (rows rows' : List ρ) (p : Nat) (m : μ) :
    spec.rawSum version (rows ++ rows') p m = spec.rawSum version rows p m + spec.rawSum version rows' p m := by
  unfold Spec.rawSum
  rw [filter_append, map_append, GroupBy.coalesceSum_append]

theorem rawSum_eq_zero (spec : Spec ρ γ μ ν) (version : ν) {rows : List ρ} {p : Nat} (m : μ)
    (h : ∀ r ∈ rows, spec.period (spec.ts r) ≠ p) : spec.rawSum version rows p m = 0 := by
  unfold Spec.rawSum
  rw [filter_eq_nil_iff.2 fun r hr => by simpa using h r hr]
  rfl

theorem rawSum_perm (spec : Spec ρ γ μ ν) (version : ν) {rows rows' : List ρ} (p : Nat) (m : μ)
    (h : rows.Perm rows') : spec.rawSum version rows p m = spec.rawSum version rows' p m :=
  GroupBy.coalesceSum_perm ((h.filter _).map _)

theorem Inv.commit {spec : Spec ρ γ μ ν} (hspec : Lawful spec) {s : State ρ γ μ} (h : Inv spec s) {i : Nat}
    {w : Writer ρ} (hi : s.writers.get? i = some w) (hlate : s.now ≤ w.start + hour) :
    Inv spec { s with
      writers := s.writers.delete fun j _ => j = i
      raw := s.raw ++ w.rows
      inserted := s.inserted ++ w.rows } := by
  obtain ⟨-, hrows⟩ := h.writers i w hi
  refine ⟨h.clock, (h.drop hspec i).writers, ?_, h.closed, (h.drop hspec i).late, fun p hp m hm version => ?_,
    h.deleted, fun phase hphase => ?_⟩
  · have hmove : (s.raw ++ s.deleted ++ w.rows).Perm (s.raw ++ w.rows ++ s.deleted) := by
      rw [append_assoc, append_assoc]
      exact perm_append_comm.append_left s.raw
    exact (h.parts.append_right w.rows).trans hmove
  · show rollupSum s.rollup p m = spec.rawSum version (s.inserted ++ w.rows) p m
    have hzero : spec.rawSum version w.rows p m = 0 := by
      refine rawSum_eq_zero spec version m ?_
      rintro r hr rfl
      rw [hrows r hr] at hp
      have := h.late i w hi hp
      omega
    rw [rawSum_append, hzero, Int.add_zero]
    exact h.sums p hp m hm version
  · refine (h.run phase hphase).mono hspec (le_refl _) rfl fun r hr => ?_
    rcases mem_append.1 hr with hr | hr
    · exact Or.inl hr
    · rw [hrows r hr]
      exact Or.inr hlate

theorem Inv.rawSum_unrolled {spec : Spec ρ γ μ ν} (hspec : Lawful spec) {s : State ρ γ μ} (h : Inv spec s)
    {c p : Nat} (hp : ∃ r ∈ spec.unrolled s.rollup s.raw c, spec.period (spec.ts r) = p) (version : ν) (m : μ) :
    spec.rawSum version (spec.unrolled s.rollup s.raw c) p m = spec.rawSum version s.inserted p m := by
  obtain ⟨r₀, hr₀, rfl⟩ := hp
  obtain ⟨-, hlt, hnew⟩ := mem_unrolled.1 hr₀
  have hgone : spec.rawSum version s.deleted (spec.period (spec.ts r₀)) m = 0 := by
    refine rawSum_eq_zero spec version m fun r hr heq => ?_
    have := h.deleted r hr
    rw [heq, hnew] at this
    cases this
  rw [rawSum_perm spec version _ m h.parts, rawSum_append, hgone, Int.add_zero]
  unfold Spec.rawSum Spec.unrolled
  rw [filter_filter]
  refine congrArg (fun l => GroupBy.coalesceSum (List.map (spec.column version m) l))
    (filter_congr fun r _ => ?_)
  by_cases heq : spec.period (spec.ts r) = spec.period (spec.ts r₀)
  · have hread := hspec.whole c _ _ hlt heq
    simp [heq, hread, hnew]
  · simp [heq]

theorem rollupSum_append (rollup rows : List (RollupRow γ μ)) (p : Nat) (m : μ) :
    rollupSum (rollup ++ rows) p m = rollupSum rollup p m + rollupSum rows p m := by
  unfold rollupSum
  rw [filter_append, map_append, sum_append]

theorem rollupSum_eq_zero {rollup : List (RollupRow γ μ)} {p : Nat} (h : rolled rollup p = false) (m : μ) :
    rollupSum rollup p m = 0 := by
  unfold rollupSum
  rw [filter_eq_nil_iff.2 fun x hx => ?_]
  · rfl
  · intro hp
    have : rolled rollup p = true := rolled_iff.2 ⟨x, hx, by simpa using hp⟩
    rw [h] at this
    cases this

theorem rolled_grouped [DecidableEq γ] {spec : Spec ρ γ μ ν} {version : ν} {rows : List ρ} {p : Nat} :
    rolled (spec.grouped version rows) p = true ↔ ∃ r ∈ rows, spec.period (spec.ts r) = p := by
  rw [rolled_iff]
  constructor
  · rintro ⟨x, hx, rfl⟩
    obtain ⟨r, hr, hper⟩ := mem_grouped hx
    exact ⟨r, hr, hper.symm⟩
  · rintro ⟨r, hr, rfl⟩
    have hk : spec.key version r ∈ GroupBy.groups (spec.key version) rows :=
      mem_dedup.2 (mem_map.2 ⟨r, hr, rfl⟩)
    exact ⟨_, mem_map.2 ⟨_, hk, rfl⟩, rfl⟩

theorem Inv.late_of_unrolled {spec : Spec ρ γ μ ν} (hspec : Lawful spec) {s : State ρ γ μ} (h : Inv spec s)
    {job : Job} {at₀ : Nat} (hrun : s.run = some (.inserting job at₀)) (hclosed : spec.closed job.cut at₀ = true)
    {version : ν} (hquiet : Quiet spec s (.write version)) {i : Nat} {w : Writer ρ}
    (hi : s.writers.get? i = some w)
    (hp : ∃ r ∈ spec.unrolled s.rollup s.raw job.cut, spec.period (spec.ts r) = spec.period w.start) :
    w.start + hour < s.now := by
  obtain ⟨r, hr, heq⟩ := hp
  obtain ⟨haged, -⟩ := h.run _ hrun
  by_contra hlate
  have hcan : s.now ≤ w.start + hour := by omega
  unfold Quiet at hquiet
  rw [hrun] at hquiet
  cases hforced : job.forced with
  | true => exact hquiet hforced hclosed i w hi hcan r hr heq
  | false =>
    -- the cutoff of the policy: the period ended weeks ago
    unfold Job.Aged at haged
    rw [hforced] at haged
    have hlag := hspec.lag job.cut s.now haged
    have hread := hspec.whole job.cut _ _ (mem_unrolled.1 hr).2.1 heq.symm
    omega

theorem Inv.write [DecidableEq γ] {spec : Spec ρ γ μ ν} (hspec : Lawful spec) {s : State ρ γ μ} (h : Inv spec s) {job : Job}
    {at₀ : Nat} (hrun : s.run = some (.inserting job at₀)) {version : ν}
    (hquiet : Quiet spec s (.write version)) :
    Inv spec { s with
      rollup := spec.write version s.rollup s.raw job.cut at₀
      run := some (.checking job) } := by
  obtain ⟨haged, hat⟩ := h.run _ hrun
  cases hclosed : spec.closed job.cut at₀ with
  | false =>
    have heq : spec.write version s.rollup s.raw job.cut at₀ = s.rollup := by
      unfold Spec.write
      rw [hclosed]
      rfl
    rw [heq]
    refine h.of_run fun phase hphase => ?_
    cases hphase
    exact haged
  | true =>
    rw [write_eq spec version s.rollup s.raw job.cut at₀ hclosed]
    have hto := hspec.past job.cut at₀ s.now (haged.min hspec) hclosed hat
    have hcases : ∀ p, rolled (s.rollup ++ spec.grouped version (spec.unrolled s.rollup s.raw job.cut)) p = true →
        rolled s.rollup p = true ∨ ∃ r ∈ spec.unrolled s.rollup s.raw job.cut, spec.period (spec.ts r) = p := by
      intro p hp
      rw [rolled_append, Bool.or_eq_true] at hp
      exact hp.imp_right rolled_grouped.1
    refine ⟨h.clock, h.writers, h.parts, fun p hp => ?_, fun i w hi hp => ?_, fun p hp m hm version' => ?_,
      fun r hr => ?_, fun phase hphase => ?_⟩
    · rcases hcases p hp with hold | ⟨r, hr, rfl⟩
      · exact h.closed p hold
      · have hread := (mem_unrolled.1 hr).2.1
        show spec.period (spec.ts r) < spec.period s.now
        refine lt_of_le_of_ne (hspec.mono _ _ (by omega)) fun heq => ?_
        have := hspec.whole job.cut _ _ hread heq.symm
        omega
    · rcases hcases _ hp with hold | hnew
      · exact h.late i w hi hold
      · exact h.late_of_unrolled hspec hrun hclosed hquiet hi hnew
    · show rollupSum (s.rollup ++ _) p m = _
      rw [rollupSum_append]
      cases hold : rolled s.rollup p with
      | true =>
        have hnone : rolled (spec.grouped version (spec.unrolled s.rollup s.raw job.cut)) p = false := by
          by_contra hsome
          rw [Bool.not_eq_false] at hsome
          obtain ⟨r, hr, rfl⟩ := rolled_grouped.1 hsome
          have := (mem_unrolled.1 hr).2.2
          rw [hold] at this
          cases this
        rw [rollupSum_eq_zero hnone, Int.add_zero]
        exact h.sums p hold m hm version'
      | false =>
        have hnew := (hcases p hp).resolve_left (by rw [hold]; exact Bool.false_ne_true)
        rw [rollupSum_eq_zero hold, Int.zero_add, rollupSum_grouped, h.rawSum_unrolled hspec hnew]
        unfold Spec.rawSum
        rw [hm version version']
    · show rolled (s.rollup ++ _) _ = true
      rw [rolled_append, h.deleted r hr, Bool.true_or]
    · cases hphase
      exact haged

theorem Inv.check {spec : Spec ρ γ μ ν} (hspec : Lawful spec) {s : State ρ γ μ} (h : Inv spec s) {job : Job}
    (hrun : s.run = some (.checking job)) (hnone : spec.pending s.rollup s.raw job.cut = 0) :
    Inv spec { s with run := some (.deleting job) } := by
  refine h.of_run fun phase hphase => ?_
  cases hphase
  refine ⟨h.run _ hrun, fun r hr hlt => ?_⟩
  by_contra hnot
  rw [Bool.not_eq_true] at hnot
  have hread := lt_of_lt_of_le hlt (hspec.cut job.cut)
  have hmem : r ∈ spec.unrolled s.rollup s.raw job.cut := mem_unrolled.2 ⟨hr, hread, hnot⟩
  have hgroup : spec.period (spec.ts r) ∈
      GroupBy.groups (fun r => spec.period (spec.ts r)) (spec.unrolled s.rollup s.raw job.cut) :=
    mem_dedup.2 (mem_map.2 ⟨r, hmem, rfl⟩)
  have := length_pos_of_mem hgroup
  unfold Spec.pending at hnone
  omega

theorem sameMonthPrefix_sublist (spec : Spec ρ γ μ ν) (rows : List ρ) :
    (spec.sameMonthPrefix rows).Sublist rows := by
  cases rows with
  | nil => exact List.Sublist.refl _
  | cons r rows => exact takeWhile_sublist _

theorem batch_subperm (spec : Spec ρ γ μ ν) (eligible : ρ → Bool) (raw : List ρ) (c n : Nat)
    (cursor : Option (Nat × Nat)) :
    (spec.sameMonthPrefix (spec.batch eligible raw c n cursor)).Subperm (spec.candidates eligible raw c) := by
  refine (sameMonthPrefix_sublist spec _).subperm.trans ?_
  refine (take_sublist _ _).subperm.trans ?_
  exact (mergeSort_perm _ _).subperm.trans filter_sublist.subperm

theorem mem_of_among {spec : Spec ρ γ μ ν} {rows raw : List ρ} (hsub : rows.Subperm raw)
    (hcount : (raw.filter (spec.among rows)).length = rows.length) {r : ρ}
    (hr : r ∈ raw.filter (spec.among rows)) : r ∈ rows := by
  have hself : rows.filter (spec.among rows) = rows := by
    refine filter_eq_self.2 fun x hx => ?_
    exact List.any_eq_true.2 ⟨x, hx, decide_eq_true rfl⟩
  have hfilter := hsub.filter (spec.among rows)
  rw [hself] at hfilter
  exact (hfilter.perm_of_length_le (le_of_eq hcount)).mem_iff.2 hr

theorem Inv.deleteRows {spec : Spec ρ γ μ ν} {s : State ρ γ μ} (h : Inv spec s) {job : Job}
    (hrun : s.run = some (.deleting job)) {eligible : ρ → Bool} {rows : List ρ}
    (hsub : rows.Subperm (spec.candidates eligible s.raw job.cut))
    (hcount : (s.raw.filter (spec.among rows)).length = rows.length) (remaining : Int)
    (cursor : Option (Nat × Nat)) :
    Inv spec { s with
      raw := s.raw.filter fun r => !spec.among rows r
      deleted := s.deleted ++ s.raw.filter (spec.among rows)
      run := some (.deleting { job with remaining := remaining, cursor := cursor }) } := by
  obtain ⟨haged, hold⟩ := h.run _ hrun
  refine ⟨h.clock, h.writers, ?_, h.closed, h.late, h.sums, fun r hr => ?_, fun phase hphase => ?_⟩
  · have hsplit : (s.raw.filter (spec.among rows) ++ s.raw.filter fun r => !spec.among rows r).Perm s.raw :=
      filter_append_perm _ _
    refine h.parts.trans ?_
    show (s.raw ++ s.deleted).Perm (s.raw.filter (fun r => !spec.among rows r) ++
      (s.deleted ++ s.raw.filter (spec.among rows)))
    refine (hsplit.symm.append_right s.deleted).trans ?_
    rw [append_assoc]
    refine perm_append_comm.trans ?_
    rw [append_assoc]
  · rcases mem_append.1 hr with hr | hr
    · exact h.deleted r hr
    · have hin := hsub.subset (mem_of_among (hsub.trans filter_sublist.subperm) hcount hr)
      have hlt : spec.ts r < midnight job.cut := by
        have := (mem_filter.1 hin).2
        rw [Bool.and_eq_true, decide_eq_true_eq] at this
        exact this.1
      exact hold r (mem_filter.1 hr).1 hlt
  · cases hphase
    exact ⟨haged, fun r hr hlt => hold r (mem_filter.1 hr).1 hlt⟩

/-! ## Whole runs -/

theorem overrideCutoff_some {closedMonth : Bool} {payload : Payload} {today day : Nat} {env : String}
    (h : overrideCutoff closedMonth payload today env = .ok (some day)) :
    payload.trigger = .manualOverride ∧ day + overrideMinAgeDays ≤ today ∧
      (closedMonth = true → day ≤ monthStart (monthOf today)) := by
  unfold overrideCutoff at h
  split at h
  · split at h <;> cases h
  · next htrigger =>
    refine ⟨not_not.1 htrigger, ?_⟩
    split at h
    · cases h
    · split at h
      · split at h
        · cases h
        · next hage =>
          split at h
          · cases h
          · next hmonth =>
            cases h
            refine ⟨not_lt.1 hage, fun hclosed => ?_⟩
            rw [hclosed, Bool.true_and, decide_eq_true_eq] at hmonth
            exact not_lt.1 hmonth
      · cases h

theorem Inv.count {spec : Spec ρ γ μ ν} (hspec : Lawful spec) {s : State ρ γ μ} (h : Inv spec s)
    {payload : Payload} {forced : Option Nat} (hrun : s.run = some (.counting payload forced)) (remaining : Int)
    (cursor : Option (Nat × Nat)) :
    Inv spec { s with run := some (.rollup ⟨payload, forced.isSome, forced.getD (spec.policyCutoff s.now),
      remaining, cursor⟩) } := by
  refine h.of_run fun phase hphase => ?_
  cases hphase
  have hforced := h.run _ hrun
  show _ + _ ≤ dayOf s.now
  cases forced with
  | some c => exact hforced c rfl
  | none =>
    have hday : 8766 ≤ dayOf s.now := (Nat.le_div_iff_mul_le (by decide)).2 h.clock
    have hwin := hspec.window.2
    show dayOf s.now - spec.windowDays + spec.windowDays ≤ dayOf s.now
    omega

theorem Inv.step [DecidableEq γ] {spec : Spec ρ γ μ ν} (hspec : Lawful spec) {s : State ρ γ μ} (h : Inv spec s) (act : Act ρ ν)
    (hquiet : Quiet spec s act) : Inv spec (step spec s act) := by
  cases act with
  | tick d => exact h.tick hspec d
  | beginTx i =>
    unfold Retention.step
    dsimp only
    split
    · exact h
    · refine h.put hspec (le_refl _) ?_ ?_
      · intro r hr
        cases hr
      · intro hroll
        have := h.closed _ hroll
        exact absurd this (lt_irrefl _)
  | insert i row =>
    unfold Retention.step
    dsimp only
    split
    · exact h
    · next w hi =>
      split
      · next hts =>
        obtain ⟨hstart, hrows⟩ := h.writers i w hi
        refine h.put hspec hstart (fun r hr => ?_) (h.late i w hi)
        rcases mem_append.1 hr with hr | hr
        · exact hrows r hr
        · rw [mem_singleton.1 hr]
          exact hts
      · exact h
  | commit i =>
    unfold Retention.step
    dsimp only
    split
    · exact h
    · next w hi =>
      split
      · next hlate => exact h.commit hspec hi hlate
      · exact h
  | abort i => exact h.drop hspec i
  | start env payload =>
    unfold Retention.step
    dsimp only
    split
    · exact h
    · split
      · exact h
      · next forced hforced =>
        refine h.of_run fun phase hphase => ?_
        cases hphase
        rintro c rfl
        exact (overrideCutoff_some hforced).2.1
  | count outside =>
    unfold Retention.step
    dsimp only
    split
    · next payload forced hrun =>
      split
      · exact h.count hspec hrun _ _
      · exact h.stop
    · exact h
  | beginWrite =>
    unfold Retention.step
    dsimp only
    split
    · next job hrun =>
      refine h.of_run fun phase hphase => ?_
      cases hphase
      exact ⟨h.run _ hrun, le_refl _⟩
    · exact h
  | write version =>
    unfold Retention.step
    dsimp only
    split
    · next job at₀ hrun => exact h.write hspec hrun hquiet
    · exact h
  | check =>
    unfold Retention.step
    dsimp only
    split
    · next job hrun =>
      split
      · next hnone => exact h.check hspec hrun hnone
      · exact h.stop
    · exact h
  | deleteBatch eligible =>
    unfold Retention.step
    dsimp only
    split
    · next job hrun =>
      split
      · split
        · exact h.stop
        · split
          · next hcount => exact h.deleteRows hrun (batch_subperm spec eligible _ _ _ _) hcount _ _
          · exact h.stop
      · exact h.stop
    · exact h
  | stop => exact h.stop

theorem inv_init (spec : Spec ρ γ μ ν) : Inv spec (init : State ρ γ μ) := by
  refine ⟨le_refl _, fun i w hw => ?_, List.Perm.refl _, fun p hp => ?_, fun i w hw => ?_, fun p hp => ?_,
    fun r hr => ?_, fun phase hphase => ?_⟩
  · cases hw
  · cases hp
  · cases hw
  · cases hp
  · cases hr
  · cases hphase

def Spec.Stable (spec : Spec ρ γ μ ν) (columns : List μ) : Prop :=
  ∀ m ∈ columns, ∀ v v', spec.column v m = spec.column v' m

theorem Inv.complete {spec : Spec ρ γ μ ν} {s : State ρ γ μ} (h : Inv spec s) {columns : List μ}
    (hstable : spec.Stable columns) (version : ν) : Complete spec version columns s :=
  ⟨fun p hp m hm => h.sums p hp m (hstable m hm) version, h.deleted⟩

theorem complete_of_quiet [DecidableEq γ] {spec : Spec ρ γ μ ν} (hspec : Lawful spec) {columns : List μ}
    (hstable : spec.Stable columns) (version : ν) {acts : List (Act ρ ν)}
    (hquiet : Along (step spec) (Quiet spec) init acts) :
    Always (step spec) (Complete spec version columns) init acts := by
  have hinv : Always (step spec) (Inv spec) init acts :=
    hquiet.always (fun s act hs hq => hs.step hspec act hq) (inv_init spec)
  exact hinv.mono fun s hs => hs.complete hstable version

/-! ## The two kinds -/

theorem lt_midnight_iff (t d : Nat) : t < midnight d ↔ dayOf t < d :=
  (Nat.div_lt_iff_lt_mul (by decide)).symm

theorem lawful_llmCallLog : Lawful llmCallLog where
  window := by decide
  mono := fun a b hab => dayOf_mono hab
  whole := by
    intro c a b ha heq
    have hday : dayOf b = dayOf a := heq
    exact (lt_midnight_iff b c).2 (hday ▸ (lt_midnight_iff a c).1 ha)
  cut := fun c => le_refl _
  past := fun c at₀ now hage _ _ => midnight_le (le_trans (Nat.le_add_right c _) hage)
  lag := by
    intro c now hage
    have hmin : c + overrideMinAgeDays ≤ dayOf now := le_trans (Nat.add_le_add_left (by decide) c) hage
    exact le_of_lt (midnight_add_hour_le hmin)

theorem lawful_tenantApiUsage : Lawful tenantApiUsage where
  window := by decide
  mono := fun a b hab => monthOf_mono (dayOf_mono hab)
  whole := by
    intro c a b ha heq
    have hmonth : monthOf (dayOf b) = monthOf (dayOf a) := heq
    refine (lt_midnight_iff b _).2 ((lt_monthStart_iff _ _).2 ?_)
    rw [hmonth]
    exact (lt_monthStart_iff _ _).1 ((lt_midnight_iff a _).1 ha)
  cut := fun c => Nat.mul_le_mul_right _ (le_of_lt (monthOf_spec c).2)
  past := by
    intro c at₀ now _ hclosed hat
    unfold Spec.closed at hclosed
    rw [show tenantApiUsage.closedMonth = true from rfl, Bool.not_true, Bool.false_or, decide_eq_true_eq] at hclosed
    exact le_trans hclosed hat
  lag := by
    intro c now hage
    have hend := monthEnd_le c
    have hlate : monthStart (monthOf c + 1) + overrideMinAgeDays ≤ dayOf now := by
      have : c + 90 ≤ dayOf now := hage
      unfold overrideMinAgeDays
      omega
    exact le_of_lt (midnight_add_hour_le hlate)

theorem quiet_llmCallLog {s : State LlmCall LlmGroup LlmColumn} (h : Inv llmCallLog s)
    (act : Act LlmCall LlmVersion) : Quiet llmCallLog s act := by
  cases act with
  | write version =>
    unfold Quiet
    dsimp only
    split
    · next job at₀ hrun =>
      intro _ _ i w _ hcan r hr heq
      have haged := ((h.run _ hrun).1).min lawful_llmCallLog
      have hlate := midnight_add_hour_le haged
      have hread : w.start < midnight job.cut :=
        lawful_llmCallLog.whole job.cut _ _ (mem_unrolled.1 hr).2.1 heq.symm
      omega
    · trivial
  | _ => trivial

def llmColumns : List LlmColumn := [.calls, .tokensIn, .tokensOut, .costUsd]

/-- Calls and `response_ms`. -/
def usageColumns : List UsageColumn := [.calls, .responseMsSum]

theorem stable_llmColumns : llmCallLog.Stable llmColumns := by
  intro m hm v v'
  unfold llmColumns at hm
  simp only [mem_cons, not_mem_nil, or_false] at hm
  rcases hm with rfl | rfl | rfl | rfl <;> rfl

/-- **The rollups are complete**, the daily one in every run and the monthly one in every run whose
`older_than` rollups are written when no transaction of a month they roll up is still open. -/
theorem rollups_complete (acts : List (Act LlmCall LlmVersion)) (acts' : List (Act ApiCall Unit))
    (hquiet : Along (step tenantApiUsage) (Quiet tenantApiUsage) init acts') :
    Always (step llmCallLog) (Complete llmCallLog .v2 llmColumns) init acts ∧
      Always (step tenantApiUsage) (Complete tenantApiUsage () usageColumns) init acts' := by
  constructor
  · have hinv : Always (step llmCallLog) (Inv llmCallLog) init acts :=
      Along.always (fun s act hs _ => hs.step lawful_llmCallLog act (quiet_llmCallLog hs act))
        (inv_init llmCallLog) (along_of_forall (P := fun _ => True) fun _ _ => trivial)
    exact hinv.mono fun s hs => hs.complete stable_llmColumns .v2
  · exact complete_of_quiet lawful_tenantApiUsage (fun m _ v v' => rfl) () hquiet

def Act.isWrite : Act ρ ν → Bool
  | .write _ => true
  | _ => false

theorem quiet_of_not_write {spec : Spec ρ γ μ ν} (s : State ρ γ μ) (act : Act ρ ν) (h : act.isWrite = false) :
    Quiet spec s act := by
  cases act with
  | write version => cases h
  | _ => trivial

theorem quiet_of_idle {spec : Spec ρ γ μ ν} {s : State ρ γ μ} (h : s.writers.rows.isEmpty = true) (act : Act ρ ν) :
    Quiet spec s act := by
  have hnone : ∀ i w, s.writers.get? i ≠ some w := by
    intro i w hw
    have := (Table.get?_eq_some_iff _ _ _).1 hw
    rw [List.isEmpty_iff.1 h] at this
    cases this
  cases act with
  | write version =>
    unfold Quiet
    dsimp only
    split
    · exact fun _ _ i w hw => absurd hw (hnone i w)
    · trivial
  | _ => trivial

theorem along_quiet_write [DecidableEq γ] (spec : Spec ρ γ μ ν) (acts : List (Act ρ ν))
    (hacts : ∀ act ∈ acts, act.isWrite = false)
    (hidle : (run (step spec) init acts).writers.rows.isEmpty = true) (version : ν) :
    Along (step spec) (Quiet spec) init (acts ++ [.write version]) := by
  refine along_append.2 ⟨?_, quiet_of_idle hidle _, trivial⟩
  exact (along_of_forall (P := fun act : Act ρ ν => act.isWrite = false) hacts).mono quiet_of_not_write

def tenMinutes : Nat := hour / 6

def lastOfMay : Nat := midnight 9648 - tenMinutes

def override (older : Nat) : Payload := ⟨.manualOverride, true, .int 10, 0, some (.date older)⟩

/-- Two calls at the end of May; the first is committed. -/
def endOfMay : List (Act ApiCall Unit) :=
  [.tick (lastOfMay - midnight 8766), .beginTx 0, .insert 0 ⟨0, lastOfMay, some 1, "tenant", 200, some 5⟩,
    .commit 0, .beginTx 1, .insert 1 ⟨1, lastOfMay, some 1, "tenant", 200, some 7⟩]

def rollUpMay : List (Act ApiCall Unit) :=
  [.start "dev" (override 9627), .count ⟨fun _ => true, none, 0, none⟩, .beginWrite, .write ()]

/-- On 1 June at 00:10 May is rolled up, and the second call of May is committed then. -/
theorem late_call_missed :
    ¬Always (step tenantApiUsage) (Complete tenantApiUsage () usageColumns) init
      (endOfMay ++ [.tick (2 * tenMinutes)] ++ rollUpMay ++ [.commit 1]) := by
  intro h
  have hsum := h.run.sums 316 (by decide +kernel) .calls (by decide)
  revert hsum
  decide +kernel

/-- With the second call committed first, the rollup has both. -/
theorem both_calls_rolled :
    let s := run (step tenantApiUsage) init (endOfMay ++ [.commit 1, .tick (2 * tenMinutes)] ++ rollUpMay)
    rolled s.rollup 316 = true ∧ rollupSum s.rollup 316 .calls = tenantApiUsage.rawSum () s.inserted 316 .calls := by
  intro s
  have hroll : rolled s.rollup 316 = true := by decide +kernel
  have hquiet := along_quiet_write tenantApiUsage
    (endOfMay ++ [.commit 1, .tick (2 * tenMinutes)] ++ rollUpMay.dropLast) (by decide +kernel)
    (by decide +kernel) ()
  exact ⟨hroll, (rollups_complete [] _ hquiet).2.run.sums 316 hroll .calls (by decide)⟩

end CisApp.Retention
