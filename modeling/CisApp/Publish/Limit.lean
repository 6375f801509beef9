import CisApp.Publish.Log

/-! The daily publish limit.

A claim counts under the tenant's advisory lock before it makes a row of today out of nothing or out of a failed row,
so such rows alone keep to the limit.  Two paths count nothing.  A claim of a stale row moves the attempt of that row to
now: a row of yesterday becomes one of today (`limit_passed_after_midnight`).  A finish that comes late sets the status
of a row that a later request has already failed. -/

namespace CisApp.Publish

/-- The step makes no row of today that was not one: a stale row is claimed again on the day of its attempt, and no
success is recorded on a failed row of today. -/
def AlreadyCounted (s : State) : Act → Prop
  | .decide i => ∀ c k r, s.requests.get? i = some (.selecting c) →
      c.same.find? (fun e => e.2.status = .requested) = some (k, r) → c.stale r = true →
      dayStart c.now ≤ r.attemptAt
  | .finish i => ∀ w r, s.requests.get? i = some (.answered w true) → s.log.get? w.row = some r →
      r.status = .failed → r.attemptAt < dayStart s.now
  | _ => True

def quiet (now : Nat) (log : Log) : State := ⟨now, log, Table.empty, []⟩

/-! ## Days -/

variable {t t' : Nat}

theorem dayStart_mono (h : t ≤ t') : dayStart t ≤ dayStart t' :=
  Nat.mul_le_mul_right _ (Nat.div_le_div_right h)

theorem dayStart_eq (h : dayStart t' ≤ t) (hle : t ≤ t') : dayStart t = dayStart t' := by
  have hpos : 0 < dayLength := by decide
  have hdiv : t' / dayLength ≤ t / dayLength := (Nat.le_div_iff_mul_le hpos).2 h
  exact le_antisymm (dayStart_mono hle) (Nat.mul_le_mul_right dayLength hdiv)

theorem countToday_congr (log : Log) (h : dayStart t = dayStart t') : countToday log t = countToday log t' := by
  unfold countToday LogRow.counted
  rw [h]

theorem countToday_anti (log : Log) (h : t ≤ t') : countToday log t' ≤ countToday log t := by
  refine List.countP_mono_left fun x _ hcounted => ?_
  obtain ⟨hstatus, hday⟩ := Bool.and_eq_true_iff.1 hcounted
  exact Bool.and_eq_true_iff.2 ⟨hstatus, decide_eq_true ((dayStart_mono h).trans (of_decide_eq_true hday))⟩

variable {k : RowId}

theorem countToday_setRow_le {log : Log} {f : LogRow → LogRow}
    (h : ∀ r, log.get? k = some r → (f r).counted t = true → r.counted t = true) :
    countToday (setRow log k f) t ≤ countToday log t := by
  refine Table.count_le fun k' r' hr' hcounted => ?_
  rw [get?_setRow] at hr'
  split at hr'
  · next hk =>
    obtain ⟨r, hr, rfl⟩ := Option.map_eq_some_iff.1 hr'
    exact ⟨r, hk ▸ hr, h r hr hcounted⟩
  · exact ⟨r', hr', hcounted⟩

theorem countToday_succ {log log' : Log} (k : RowId) (h : ∀ k', k' ≠ k → log'.get? k' = log.get? k') (t : Nat) :
    countToday log' t ≤ countToday log t + 1 := by
  refine Table.count_le_succ k fun k' r' hr' hcounted => ?_
  by_cases hk : k' = k
  · exact Or.inl hk
  · exact Or.inr ⟨r', h k' hk ▸ hr', hcounted⟩

theorem countToday_le_of_old {log log' : Log} {r : LogRow}
    (h : ∀ k', k' ≠ k → log'.get? k' = log.get? k') (hk : log'.get? k = some r)
    (hold : r.attemptAt < dayStart t) : countToday log' t ≤ countToday log t := by
  refine Table.count_le fun k' r' hr' hcounted => ?_
  by_cases hkk : k' = k
  · subst hkk
    cases hk.symm.trans hr'
    have hday := of_decide_eq_true (Bool.and_eq_true_iff.1 hcounted).2
    omega
  · exact ⟨r', h k' hkk ▸ hr', hcounted⟩

/-! ## The invariant -/

/-- The row of a request keeps its times. -/
structure Worked (r : LogRow) : Prop where
  requested : r.requestedAt.isSome
  published : r.status = .published ∨ r.status = .unpublished → r.publishedAt.isSome

/-- The tenant keeps to the limit, and a claim that has counted finds the count still below it. -/
structure Inv (L : Nat) (s : State) : Prop where
  alone : ∀ i j p q, s.requests.get? i = some p → s.requests.get? j = some q → p.tenantLocked = true →
    q.tenantLocked = true → i = j
  began : ∀ i p t, s.requests.get? i = some p → p.began? = some t → t ≤ s.now
  room : ∀ i c, s.requests.get? i = some (.counted c) → dayStart c.now = dayStart s.now →
    countToday s.log s.now < L
  worked : ∀ i p w, s.requests.get? i = some p → p.work? = some w → ∃ r, s.log.get? w.row = some r ∧ Worked r
  within : countToday s.log s.now ≤ L

variable {L : Nat} {s : State}

theorem inv_quiet {now : Nat} {log : Log} (h : countToday log now ≤ L) : Inv L (quiet now log) where
  alone i j p q hi := by cases hi
  began i p t hi := by cases hi
  room i c hi := by cases hi
  worked i p w hi := by cases hi
  within := h

theorem Inv.drop (hs : Inv L s) (i : RequestId) : Inv L (s.drop i) where
  alone j j' p q hj hj' := hs.alone j j' p q (get?_drop hj).2 (get?_drop hj').2
  began j p t hj := hs.began j p t (get?_drop hj).2
  room j c hj := hs.room j c (get?_drop hj).2
  worked j p w hj := hs.worked j p w (get?_drop hj).2
  within := hs.within

variable {i : RequestId}

theorem not_tenantLocked_of_free {j : RequestId} {q : Phase} (h : s.tenantLockedFor i = false)
    (hj : s.requests.get? j = some q) (hji : j ≠ i) : q.tenantLocked = false := by
  unfold State.tenantLockedFor at h
  rw [List.any_eq_false] at h
  have hone := h (j, q) ((Table.get?_eq_some_iff _ _ _).1 hj)
  rw [Bool.and_eq_true, not_and, decide_eq_true_eq] at hone
  exact Bool.eq_false_iff.2 (hone hji)

theorem Inv.put (hs : Inv L s) {p : Phase} (log : Log)
    (hwithin : countToday log s.now ≤ L)
    (hlocked : p.tenantLocked = true → ∀ j q, j ≠ i → s.requests.get? j = some q → q.tenantLocked = false)
    (hbegan : ∀ t, p.began? = some t → t ≤ s.now)
    (hroom : ∀ j c, j ≠ i ∧ s.requests.get? j = some (.counted c) ∨ j = i ∧ p = .counted c →
      dayStart c.now = dayStart s.now → countToday log s.now < L)
    (hkeep : ∀ k r, s.log.get? k = some r → Worked r → ∃ r', log.get? k = some r' ∧ Worked r')
    (hworked : ∀ w, p.work? = some w → ∃ r, log.get? w.row = some r ∧ Worked r) :
    Inv L ({ s with log := log }.put i p) := by
  refine ⟨fun j j' q q' hj hj' hq hq' => ?_, fun j q t hj => ?_, fun j c hj => ?_, fun j q w hj hw => ?_, hwithin⟩
  · rw [get?_put] at hj hj'
    by_cases hi : j = i
    · by_cases hi' : j' = i
      · exact hi.trans hi'.symm
      · rw [if_pos hi] at hj
        rw [if_neg hi'] at hj'
        cases hj
        rw [hlocked hq j' q' hi' hj'] at hq'
        cases hq'
    · rw [if_neg hi] at hj
      by_cases hi' : j' = i
      · rw [if_pos hi'] at hj'
        cases hj'
        rw [hlocked hq' j q hi hj] at hq
        cases hq
      · rw [if_neg hi'] at hj'
        exact hs.alone j j' q q' hj hj' hq hq'
  · rw [get?_put] at hj
    split at hj
    · cases hj
      exact hbegan t
    · exact hs.began j q t hj
  · rw [get?_put] at hj
    split at hj
    · next hji =>
      cases hj
      exact hroom j c (Or.inr ⟨hji, rfl⟩)
    · next hji => exact hroom j c (Or.inl ⟨hji, hj⟩)
  · rw [get?_put] at hj
    split at hj
    · cases hj
      exact hworked w hw
    · obtain ⟨r, hr, hwork⟩ := hs.worked j q w hj hw
      exact hkeep w.row r hr hwork

theorem Inv.turn (hs : Inv L s) {p : Phase} (h : Turn (some L) s i (s.requests.get? i) p) : Inv L (s.put i p) := by
  have hput : (p.tenantLocked = true → ∀ j q, j ≠ i → s.requests.get? j = some q → q.tenantLocked = false) →
      (∀ t, p.began? = some t → t ≤ s.now) →
      (∀ c, p = .counted c → dayStart c.now = dayStart s.now → countToday s.log s.now < L) →
      (∀ w, p.work? = some w → ∃ r, s.log.get? w.row = some r ∧ Worked r) → Inv L (s.put i p) := by
    intro hlocked hbegan hroom hworked
    refine hs.put s.log hs.within hlocked hbegan (fun j c hj => ?_) (fun k r hr hw => ⟨r, hr, hw⟩) hworked
    rcases hj with ⟨-, hj⟩ | ⟨-, hp⟩
    · exact hs.room j c hj
    · exact hroom c hp
  generalize hi : s.requests.get? i = before at h
  have hbefore : ∀ q t, before = some q → q.began? = some t → t ≤ s.now := by
    rintro q t rfl
    exact hs.began i q t hi
  have hrow : ∀ q w, before = some q → q.work? = some w → ∃ r, s.log.get? w.row = some r ∧ Worked r := by
    rintro q w rfl
    exact hs.worked i q w hi
  cases h with
  | start key =>
    refine hput (nofun) (fun t ht => ?_) (nofun) (nofun)
    cases ht
    exact le_rfl
  | select _ | lock _ _ | skip _ =>
    refine hput (nofun) (fun t ht => ?_) (nofun) (nofun)
    exact hbefore _ t rfl ht
  | lockTenant hfree =>
    refine hput (fun _ j q hji hj => not_tenantLocked_of_free hfree hj hji) (fun t ht => hbefore _ t rfl ht)
      (nofun) (nofun)
  | unlimited h => cases h
  | @count c h =>
    refine hput (fun _ j q hji hj => ?_) (fun t ht => hbefore _ t rfl ht) (fun c' hc' hday => ?_)
      (nofun)
    · by_contra hq
      exact hji (hs.alone j i q _ hj hi (Bool.eq_true_of_not_eq_false hq) rfl)
    · cases hc'
      rw [← countToday_congr s.log hday]
      simpa using h
  | unknown | found _ | missing _ =>
    refine hput (nofun) (nofun) (nofun) (fun w' hw' => ?_)
    exact hrow _ w' rfl hw'

theorem keep_setRow {log : Log} {f : LogRow → LogRow} (hf : ∀ r, Worked r → Worked (f r)) :
    ∀ k' r, log.get? k' = some r → Worked r → ∃ r', (setRow log k f).get? k' = some r' ∧ Worked r' := by
  intro k' r hr hw
  rw [get?_setRow]
  split
  · next hk =>
    subst hk
    exact ⟨f r, by rw [hr]; rfl, hf r hw⟩
  · exact ⟨r, hr, hw⟩

theorem Inv.reclaim (hs : Inv L s) (hlocks : Locks s) {c : Claiming} {r : LogRow}
    (hi : s.requests.get? i = some (.selecting c))
    (hfind : c.same.find? (fun e => e.2.status = .requested) = some (k, r)) (hday : dayStart c.now ≤ r.attemptAt) :
    Inv L ({ s with log := setRow s.log k fun r => { r with requestedAt := some c.now } }.put i
      (.working ⟨k, c.key, true, c.now⟩)) := by
  have hmem := (holds_same (p := .selecting c) rfl hfind).1
  have hrow : s.log.get? k = some r := hlocks.read i _ c hi rfl _ hmem
  have hstatus : r.status = .requested := by simpa using List.find?_some hfind
  have hnow : c.now ≤ s.now := hs.began i _ c.now hi rfl
  have hcount : countToday (setRow s.log k fun r => { r with requestedAt := some c.now }) s.now ≤
      countToday s.log s.now := by
    refine countToday_setRow_le fun r' hr' hcounted => ?_
    cases hrow.symm.trans hr'
    -- the claim is of today, so the attempt was
    have htoday : dayStart s.now ≤ c.now := of_decide_eq_true (Bool.and_eq_true_iff.1 hcounted).2
    rw [dayStart_eq htoday hnow] at hday
    simp [LogRow.counted, LogRow.active, hstatus, hday]
  refine hs.put _ (hcount.trans hs.within) (nofun) (nofun) (fun j c' hj hd => ?_)
    (keep_setRow fun r hr => ⟨rfl, hr.published⟩) (fun w hw => ?_)
  · rcases hj with ⟨-, hj⟩ | ⟨-, hp⟩
    · exact hcount.trans_lt (hs.room j c' hj hd)
    · cases hp
  · cases hw
    refine ⟨_, by rw [get?_setRow, if_pos rfl, hrow]; rfl, rfl, fun h => ?_⟩
    simp [hstatus] at h

theorem Inv.admitted (hs : Inv L s) {c : Claiming} (hi : s.requests.get? i = some (.counted c))
    {log : Log} {r : LogRow} (hlog : ∀ k', k' ≠ k → log.get? k' = s.log.get? k')
    (hk : log.get? k = some r) (hr : r.status = .requested ∧ r.requestedAt = some c.now) (prior : Bool) :
    Inv L ({ s with log := log }.put i (.working ⟨k, c.key, prior, c.now⟩)) := by
  have hnow : c.now ≤ s.now := hs.began i _ c.now hi rfl
  have hattempt : r.attemptAt = c.now := by simp [LogRow.attemptAt, hr.2]
  have hwork : Worked r := ⟨by rw [hr.2]; rfl, fun h => (by simp [hr.1] at h)⟩
  have hwithin : countToday log s.now ≤ L := by
    by_cases htoday : dayStart s.now ≤ c.now
    · have hroom := hs.room i c hi (dayStart_eq htoday hnow)
      have hsucc := countToday_succ k hlog s.now
      omega
    · exact (countToday_le_of_old hlog hk (by omega)).trans hs.within
  refine hs.put _ hwithin (nofun) (nofun) (fun j c' hj _ => ?_)
    (fun k' r' hr' hw => ?_) (fun w hw => ?_)
  · rcases hj with ⟨hji, hj⟩ | ⟨-, hp⟩
    · exact absurd (hs.alone j i _ _ hj hi rfl rfl) hji
    · cases hp
  · by_cases hkk : k' = k
    · subst hkk
      exact ⟨r, hk, hwork⟩
    · exact ⟨r', (hlog k' hkk).trans hr', hw⟩
  · cases hw
    exact ⟨r, hk, hwork⟩

theorem Inv.log (hs : Inv L s) {log : Log} (hcount : countToday log s.now ≤ countToday s.log s.now)
    (hkeep : ∀ k r, s.log.get? k = some r → Worked r → ∃ r', log.get? k = some r' ∧ Worked r') :
    Inv L { s with log := log } := by
  refine ⟨hs.alone, hs.began, fun i c hi hday => hcount.trans_lt (hs.room i c hi hday), fun i p w hi hw => ?_,
    hcount.trans hs.within⟩
  obtain ⟨r, hr, hwork⟩ := hs.worked i p w hi hw
  exact hkeep w.row r hr hwork

theorem Inv.tick (hs : Inv L s) (d : Nat) : Inv L { s with now := s.now + d } := by
  have hle : s.now ≤ s.now + d := Nat.le_add_right _ _
  refine ⟨hs.alone, fun i p t hi ht => (hs.began i p t hi ht).trans hle, fun i c hi hday => ?_, hs.worked,
    (countToday_anti s.log hle).trans hs.within⟩
  -- the claim began on the day of the new time, so this is the same day still
  have hnow : c.now ≤ s.now := hs.began i _ c.now hi rfl
  have hsame : dayStart c.now = dayStart s.now := by
    refine le_antisymm (dayStart_mono hnow) ?_
    have hmono := dayStart_mono hle
    have hday' : dayStart c.now = dayStart (s.now + d) := hday
    omega
  exact (countToday_anti s.log hle).trans_lt (hs.room i c hi hsame)

theorem Inv.finish (hs : Inv L s) {w : Work} {success : Bool}
    (hi : s.requests.get? i = some (.answered w success))
    (hfailed : success = true → ∀ r, s.log.get? w.row = some r → r.status = .failed →
      r.attemptAt < dayStart s.now) :
    Inv L ({ s with log := setRow s.log w.row fun r =>
      { r with
        status := if success then .published else .failed
        publishedAt := if success then some s.now else r.publishedAt } }.drop i) := by
  refine (hs.log (countToday_setRow_le fun r hr hcounted => ?_) (keep_setRow fun r hr => ?_)).drop i
  · cases success with
    | false => simp [LogRow.counted, LogRow.active] at hcounted
    | true =>
      obtain ⟨r', hr', hwork⟩ := hs.worked i _ w hi rfl
      cases hr'.symm.trans hr
      obtain ⟨t, ht⟩ := Option.isSome_iff_exists.1 hwork.requested
      have hday : dayStart s.now ≤ r.attemptAt := by
        have := of_decide_eq_true (Bool.and_eq_true_iff.1 hcounted).2
        simpa [LogRow.attemptAt, ht] using this
      cases hstatus : r.status with
      | requested => simp [LogRow.counted, LogRow.active, hstatus, hday]
      | published => simp [LogRow.counted, LogRow.active, hstatus, hday]
      | unpublished =>
        have hpub := hwork.published (Or.inr hstatus)
        simp [LogRow.counted, LogRow.active, hstatus, hday, hpub]
      | failed =>
        have hold := hfailed rfl r hr hstatus
        omega
  · refine ⟨hr.requested, fun h => ?_⟩
    cases success with
    | true => rfl
    | false => simp at h

theorem Inv.unpublish (hs : Inv L s) (k : RowId) :
    Inv L { s with log := setRow s.log k fun r =>
      if r.status = .published then { r with status := .unpublished } else r } := by
  refine hs.log (countToday_setRow_le fun r hr hcounted => ?_) (keep_setRow fun r hr => ?_)
  · by_cases hstatus : r.status = .published
    · rw [if_pos hstatus] at hcounted
      have hday : dayStart s.now ≤ r.attemptAt := of_decide_eq_true (Bool.and_eq_true_iff.1 hcounted).2
      simp [LogRow.counted, LogRow.active, hstatus, hday]
    · rwa [if_neg hstatus] at hcounted
  · by_cases hstatus : r.status = .published
    · rw [if_pos hstatus]
      exact ⟨hr.requested, fun _ => hr.published (Or.inl hstatus)⟩
    · rwa [if_neg hstatus]

theorem Inv.move {s' : State} {a : Act} (hs : Inv L s) (hlocks : Locks s) (ha : AlreadyCounted s a)
    (h : Move (some L) s a s') : Inv L s' := by
  cases h with
  | stay => exact hs
  | tick d => exact hs.tick d
  | turn h => exact hs.turn h
  | drop _ i => exact hs.drop i
  | reclaim hi htodo hpublished hfind hstale => exact hs.reclaim hlocks hi hfind (ha _ _ _ hi hfind hstale)
  | @reuse i newId c k r hi hfailed hfree =>
    have hmem := (holds_failed (p := .counted _) rfl hfailed).1
    have hrow := hlocks.read _ _ _ hi rfl _ hmem
    have hnew : (setRow s.log k fun r =>
        { r with status := .requested, key := some c.key, requestedAt := some c.now }).get? k =
        some { r with status := .requested, key := some c.key, requestedAt := some c.now } := by
      rw [get?_setRow, if_pos rfl, hrow]
      rfl
    exact hs.admitted hi (fun k' hk' => get?_setRow_ne hk' _) hnew ⟨rfl, rfl⟩ _
  | @insert i k c hi hfailed hnone hfree =>
    have hnew : (s.log.upsert k ⟨c.key.piece, .requested, some c.key, some c.now, none, c.now⟩).get? k =
        some ⟨c.key.piece, .requested, some c.key, some c.now, none, c.now⟩ := by
      rw [Table.get?_upsert, if_pos rfl]
    refine hs.admitted hi (fun k' hk' => ?_) hnew ⟨rfl, rfl⟩ _
    rw [Table.get?_upsert, if_neg hk']
  | @post i w effect answers hi =>
    have hs' : Inv L { s with posts := if effect || answers then w.key :: s.posts else s.posts } :=
      ⟨hs.alone, hs.began, hs.room, hs.worked, hs.within⟩
    refine hs'.put s.log hs.within (nofun) (nofun) (fun j c hj hd => ?_)
      (fun k r hr hw => ⟨r, hr, hw⟩) (fun w' hw' => ?_)
    · rcases hj with ⟨-, hj⟩ | ⟨-, hp⟩
      · exact hs.room j c hj hd
      · cases hp
    · cases hw'
      rcases hi with ⟨hi, -⟩ | hi
      · exact hs.worked i _ _ hi rfl
      · exact hs.worked i _ _ hi rfl
  | finish hi hr hlock hfree =>
    refine hs.finish hi fun hsuccess r' hr' => ?_
    subst hsuccess
    exact ha _ r' hi hr'
  | unpublish hfree => exact hs.unpublish _

/-! ## Runs -/

/-- From a log within the limit, a run whose steps make no uncounted row of today keeps to the limit. -/
theorem daily_limit_holds (L now : Nat) (log : Log) (hstart : countToday log now ≤ L) (acts : List Act)
    (h : Along (step (some L)) AlreadyCounted (quiet now log) acts) :
    Always (step (some L)) (fun s => countToday s.log s.now ≤ L) (quiet now log) acts := by
  have hquiet : Locks (quiet now log) ∧ Inv L (quiet now log) :=
    ⟨⟨fun i p c hi => (by cases hi), fun i j p q k hi => (by cases hi)⟩, inv_quiet hstart⟩
  have hinv : Always (step (some L)) (fun s => Locks s ∧ Inv L s) (quiet now log) acts := by
    refine Along.always (fun s a hs ha => ?_) hquiet h
    have hmove := step_move (some L) s a
    exact ⟨hs.1.move hmove, hs.2.move hs.1 ha hmove⟩
  exact hinv.mono fun s hs => hs.2.within

/-- A request of a piece up to the end of its claim. -/
def claimed (i : RequestId) (key : Key) (rows : List RowId) (newId : RowId) : List Act :=
  [Act.start i key, Act.select i rows] ++ rows.map (fun _ => Act.lockRow i) ++
    [Act.decide i, Act.count i, Act.write i newId]

/-- A minute before midnight a piece is claimed and its request dies; after midnight another piece takes the one place
of the day. -/
def aroundMidnight : List Act :=
  claimed 0 ⟨1, 0⟩ [] 10 ++ [Act.stop 0, Act.tick (3 * 60 * second)] ++ claimed 1 ⟨2, 0⟩ [] 20

theorem limit_kept_after_midnight :
    Along (step (some 1)) AlreadyCounted (quiet (dayLength - 60 * second) Table.empty) aroundMidnight ∧
      Always (step (some 1)) (fun s => countToday s.log s.now ≤ 1)
        (quiet (dayLength - 60 * second) Table.empty) aroundMidnight := by
  have h : Along (step (some 1)) AlreadyCounted (quiet (dayLength - 60 * second) Table.empty) aroundMidnight := by
    refine ⟨trivial, trivial, ?_, trivial, trivial, trivial, trivial, trivial, trivial, ?_, trivial, trivial,
      trivial⟩
    · intro c k r hi hfind
      cases hi
      cases hfind
    · intro c k r hi hfind
      cases hi
      cases hfind
  exact ⟨h, daily_limit_holds 1 _ _ (by decide) _ h⟩

/-- The request is sent again and claims its stale row. -/
theorem limit_passed_after_midnight :
    ¬ ∀ acts : List Act, Always (step (some 1)) (fun s => countToday s.log s.now ≤ 1)
      (quiet (dayLength - 60 * second) Table.empty) acts := by
  intro h
  have hrun := (h (aroundMidnight ++ [.start 2 ⟨1, 0⟩, .select 2 [10], .lockRow 2, .decide 2])).run
  revert hrun
  decide

end CisApp.Publish
