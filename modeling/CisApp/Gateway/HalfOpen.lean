import CisApp.Gateway.Recovery

/-!
# How long a tripped connection stays open

Only a known refusal gets an open period of more than 30 minutes, and a known
refusal is no signal: its streak began before an answer on the connection.  So a
row that trips the connection was opened for at most 30 minutes (`PeriodOk`),
unless its class changes while it is open: `afterFailure` on an open row writes
the new class and keeps the period.  A `credential` or `quota_exhausted` failure
on a known refusal with a long period ahead (`LongSolo`) turns that period into
the connection's.
-/

namespace CisApp.Gateway

open List Option

def Op.now : Op → Int
  | .admits _ now => now
  | .success _ now _ => now
  | .failure _ _ _ now => now
  | .requestError _ now => now

/-- An open connection circuit half-opens within 30 minutes of its last failure. -/
def HalfOpensSoon (s : Breaker) : Prop :=
  ∀ c now h, connectionHealth (rowsOf s.rows c) c now = some h → stateOf h now = .opened →
    ∃ u e, h.circuitOpenUntil = some u ∧ h.lastErrorAt = some e ∧
      u ≤ e + secs accountDeniedMaxOpenS

/-- A failure of a solo class on a deployment that stays open for more than 30
minutes, every answer on the connection older than the failure. -/
def LongSolo (s : Breaker) : Op → Prop
  | .failure key cls _ now =>
    s.enabled = true ∧ cls.solo = true ∧ key.modelKey ≠ connectionModel ∧
      (∃ u, (rowAt s.rows key).circuitOpenUntil = some u ∧ now + secs accountDeniedMaxOpenS < u) ∧
      ∀ ok, Answered s.rows key.connectionKey ok → ok < now
  | _ => False

/-- The open period on record, if any, is short, or it is a known refusal's. -/
def PeriodOk (answered : Int → Prop) (h : Health) : Prop :=
  ∀ u, h.circuitOpenUntil = some u →
    (∃ e, h.lastErrorAt = some e ∧ u ≤ e + secs accountDeniedMaxOpenS) ∨
      ∃ o ok, h.openedAt = some o ∧ answered ok ∧ o < ok ∧
        (soloClass h = false ∨ ∃ e, h.lastErrorAt = some e ∧ e ≤ ok)

/-- The dates on record are not after `t`. -/
structure DatedBy (t : Int) (h : Health) : Prop where
  ok : ∀ ok, h.lastOkAt = some ok → ok ≤ t
  error : ∀ e, h.lastErrorAt = some e → e ≤ t

structure PeriodInv (t : Int) (rows : Table Key Health) : Prop where
  dated : rows.All fun _ h => DatedBy t h
  period : rows.All fun k h => k.modelKey ≠ connectionModel →
    PeriodOk (Answered rows k.connectionKey) h

/-! ## The invariant bounds the connection circuit -/

theorem newest_spec {members : List Row} {n : Row} (h : newest members = some n) :
    n ∈ members ∧ ∀ x ∈ members, x.2.lastErrorAt.getD 0 ≤ n.2.lastErrorAt.getD 0 := by
  obtain ⟨hm, hmax⟩ := Table.firstBy_spec _ (fun a b => by simpa using le_total _ _)
    (fun a b c hab hbc => by
      simp only [decide_eq_true_eq] at *
      exact le_trans hbc hab) members n h
  exact ⟨hm, fun x hx => by simpa using hmax x hx⟩

variable {c : String} {now : Int}

theorem signal_of_mem_tripping {t : Table Key Health} {x : Row} (hx : x ∈ tripping (rowsOf t c) c now) :
    Signal t c x.1 x.2 ∧ (soloClass x.2 = true ∨ Denied t c x.1 x.2) := by
  rcases (mem_tripping t c now x).1 hx with ⟨hs, hsolo⟩ | ⟨hd, -⟩
  · exact ⟨hs, Or.inl hsolo⟩
  · exact ⟨hd.signal, Or.inr hd⟩

variable {t : Int} {rows : Table Key Health}

theorem PeriodInv.member (hi : PeriodInv t rows) {x : Row} (hx : x ∈ tripping (rowsOf rows c) c now) {u : Int}
    (hu : x.2.circuitOpenUntil = some u) : ∃ e, x.2.lastErrorAt = some e ∧ u ≤ e + secs accountDeniedMaxOpenS := by
  obtain ⟨hs, hcase⟩ := signal_of_mem_tripping hx
  obtain ⟨hrow, rfl, hm⟩ := hs.deployed
  rcases hi.period x.1 x.2 hrow hm u hu with h | ⟨o, ok, ho, hans, hlt, hsolo⟩
  · exact h
  · exfalso
    obtain ⟨e, he, hnew⟩ := hs.newer
    rcases hcase with hc | hd
    · rcases hsolo with hns | ⟨e', he', hle⟩
      · rw [hc] at hns
        cases hns
      · obtain rfl : e = e' := Option.some.inj (he.symm.trans he')
        have := hnew ok hans
        omega
    · have := hd.began o ho ok hans
      omega

variable {s : Breaker}

theorem PeriodInv.halfOpensSoon (hi : PeriodInv t s.rows) : HalfOpensSoon s := by
  intro c now h hh hopen
  unfold connectionHealth at hh
  dsimp only at hh
  cases hn : newest (tripping (rowsOf s.rows c) c now) with
  | none =>
    rw [hn] at hh
    cases hh
  | some n =>
    rw [hn] at hh
    obtain ⟨hmem, hmax⟩ := newest_spec hn
    obtain ⟨u, hu, -⟩ := (stateOf_opened_iff h now).1 hopen
    obtain rfl := Option.some.inj hh
    obtain ⟨x, hx, hxu⟩ := mem_filterMap.1 (List.max?_eq_some_iff.1 hu).1
    obtain ⟨e, he, hle⟩ := hi.member hx hxu
    obtain ⟨en, hen, -⟩ := (signal_of_mem_tripping hmem).1.newer
    refine ⟨u, en, hu, hen, ?_⟩
    have := hmax x hx
    rw [he, hen] at this
    simp only [getD_some] at this
    omega

/-! ## Steps that keep it -/

variable {h : Health}

variable {A : Int → Prop}

theorem PeriodOk.mono {A' : Int → Prop}
    (hA : ∀ ok, A ok → ∃ ok', A' ok' ∧ ok ≤ ok') (hp : PeriodOk A h) : PeriodOk A' h := by
  intro u hu
  rcases hp u hu with he | ⟨o, ok, ho, hans, hlt, hsolo⟩
  · exact Or.inl he
  · obtain ⟨ok', hans', hle⟩ := hA ok hans
    refine Or.inr ⟨o, ok', ho, hans', by omega, hsolo.imp_right ?_⟩
    rintro ⟨e, he, hle'⟩
    exact ⟨e, he, by omega⟩

theorem DatedBy.empty (t : Int) : DatedBy t {} := ⟨nofun, nofun⟩

variable {t' : Int}

theorem DatedBy.mono (htt : t ≤ t') (hd : DatedBy t h) : DatedBy t' h :=
  ⟨fun ok hok => le_trans (hd.ok ok hok) htt, fun e he => le_trans (hd.error e he) htt⟩

theorem PeriodInv.answered_le (hi : PeriodInv t rows) {ok : Int} (h : Answered rows c ok) : ok ≤ t := by
  obtain ⟨k, r, hd, hok⟩ := h
  exact (hi.dated k r hd.row).ok ok hok

variable {key : Key}

variable {fn : Health → Option Health}

theorem answered_transition {t : Table Key Health}
    (hok : ∀ h', fn (rowAt t key) = some h' → ∀ ok, (rowAt t key).lastOkAt = some ok →
      ∃ ok', h'.lastOkAt = some ok' ∧ ok ≤ ok') {ok : Int} (ha : Answered t c ok) :
    ∃ ok', Answered (transition t key fn) c ok' ∧ ok ≤ ok' := by
  obtain ⟨k, h, hd, hlast⟩ := ha
  by_cases hk : k = key
  · subst hk
    have hrow := get?_transition t k fn k
    rw [if_pos rfl, get?_eq_rowAt hd.row] at hrow
    rw [get?_eq_rowAt hd.row] at hok
    cases hf : fn h with
    | none => exact ⟨ok, ⟨k, h, ⟨by simpa [hf] using hrow, hd.connection, hd.model⟩, hlast⟩, le_rfl⟩
    | some h' =>
      obtain ⟨ok', hok', hle⟩ := hok h' hf ok hlast
      exact ⟨ok', ⟨k, h', ⟨by simpa [hf] using hrow, hd.connection, hd.model⟩, hok'⟩, hle⟩
  · refine ⟨ok, ⟨k, h, ⟨?_, hd.connection, hd.model⟩, hlast⟩, le_rfl⟩
    rw [get?_transition, if_neg hk]
    exact hd.row

theorem PeriodInv.transition (hi : PeriodInv t rows) (htt : t ≤ t')
    (hok : ∀ h', fn (rowAt rows key) = some h' → ∀ ok, (rowAt rows key).lastOkAt = some ok →
      ∃ ok', h'.lastOkAt = some ok' ∧ ok ≤ ok')
    (hdated : ∀ h', DatedBy t (rowAt rows key) → fn (rowAt rows key) = some h' → DatedBy t' h')
    (hperiod : ∀ h', key.modelKey ≠ connectionModel → PeriodOk (Answered rows key.connectionKey) (rowAt rows key) →
      fn (rowAt rows key) = some h' → PeriodOk (Answered rows key.connectionKey) h') :
    PeriodInv t' (transition rows key fn) := by
  have hcur := all_rowAt hi.dated key (DatedBy.empty t)
  refine ⟨all_transition ?_ (hcur.mono htt) fun h' hf => hdated h' hcur hf, ?_⟩
  · exact fun k h hr => (hi.dated k h hr).mono htt
  · have hper : (Gateway.transition rows key fn).All fun k h => k.modelKey ≠ connectionModel →
        PeriodOk (Answered rows k.connectionKey) h := by
      have hrow := all_rowAt hi.period key nofun
      exact all_transition hi.period hrow fun h' hf hm => hperiod h' hm (hrow hm) hf
    intro k h hr hm
    exact (hper k h hr hm).mono fun ok ha => answered_transition hok ha

theorem PeriodInv.lease
    (hi : PeriodInv t rows) (htt : t ≤ t')
    (hfn : ∀ h h', fn h = some h' → ∃ p, h' = { h with probeUntil := p }) :
    PeriodInv t' (Gateway.transition rows key fn) := by
  refine hi.transition htt ?_ ?_ ?_
  · intro h' hf ok hok
    obtain ⟨p, rfl⟩ := hfn _ _ hf
    exact ⟨ok, hok, le_rfl⟩
  · intro h' hd hf
    obtain ⟨p, rfl⟩ := hfn _ _ hf
    exact ⟨(hd.mono htt).ok, (hd.mono htt).error⟩
  · rintro h' - hp hf
    obtain ⟨p, rfl⟩ := hfn _ _ hf
    exact hp

theorem claimed_lease (h h' : Health) (hf : claimed h now = some h') :
    ∃ p, h' = { h with probeUntil := p } := by
  unfold claimed at hf
  split at hf
  · cases hf
  · exact ⟨_, (Option.some.inj hf).symm⟩

theorem leaseReleased_lease (h h' : Health) (hf : leaseReleased h = some h') :
    ∃ p, h' = { h with probeUntil := p } := by
  unfold leaseReleased at hf
  split at hf
  · exact ⟨_, (Option.some.inj hf).symm⟩
  · cases hf

theorem PeriodInv.mono (htt : t ≤ t') (hi : PeriodInv t rows) : PeriodInv t' rows :=
  ⟨fun k h hr => (hi.dated k h hr).mono htt, hi.period⟩

theorem PeriodInv.halfOpenNow (hi : PeriodInv t rows) :
    PeriodInv t (Gateway.transition rows key fun cur => halfOpenNow cur now) := by
  have hspec : ∀ h h', Gateway.halfOpenNow h now = some h' →
      (∃ u, h.circuitOpenUntil = some u ∧ now < u) ∧
        h' = { h with circuitOpenUntil := some now, probeUntil := none } := by
    intro h h' hf
    unfold Gateway.halfOpenNow at hf
    split at hf
    · cases hf
    · next hn =>
      refine ⟨(stateOf_opened_iff h now).1 ?_, (Option.some.inj hf).symm⟩
      by_contra hne
      exact hn (Or.inl hne)
  refine hi.transition le_rfl ?_ ?_ ?_
  · intro h' hf ok hok
    obtain ⟨-, rfl⟩ := hspec _ _ hf
    exact ⟨ok, hok, le_rfl⟩
  · intro h' hd hf
    obtain ⟨-, rfl⟩ := hspec _ _ hf
    exact ⟨hd.ok, hd.error⟩
  · rintro h' - hp hf
    obtain ⟨⟨u, hu, hlt⟩, rfl⟩ := hspec _ _ hf
    -- the period ends earlier than it did
    intro u' hu'
    obtain rfl : now = u' := Option.some.inj hu'
    rcases hp u hu with ⟨e, he, hle⟩ | h
    · exact Or.inl ⟨e, he, by omega⟩
    · exact Or.inr h

theorem PeriodInv.reprobe (hi : PeriodInv t rows) (key : Key)
    (now : Int) : PeriodInv t (reprobeAfterAccountRecovery rows key now) := by
  unfold reprobeAfterAccountRecovery
  generalize recoveryCandidates _ _ _ _ = ms
  induction ms generalizing rows with
  | nil => exact hi
  | cons m ms ih => exact ih hi.halfOpenNow

theorem PeriodInv.recordSuccess {mono : Int} (hi : PeriodInv t s.rows) (htn : t ≤ now) :
    PeriodInv now (recordSuccess s key now mono).rows := by
  by_cases hen : s.enabled = true
  · rw [rows_recordSuccess s key now mono hen]
    split
    · exact (hi.reprobe key now).mono htn
    · have hi' := hi.reprobe key now
      refine hi'.transition htn ?_ ?_ ?_
      · intro h' hf ok hok
        obtain rfl := Option.some.inj hf
        have := (all_rowAt hi'.dated key (DatedBy.empty t)).ok ok hok
        exact ⟨now, rfl, by omega⟩
      · intro h' hd hf
        obtain rfl := Option.some.inj hf
        exact ⟨fun ok hok => le_of_eq (Option.some.inj hok).symm, (hd.mono htn).error⟩
      · rintro h' - - hf
        obtain rfl := Option.some.inj hf
        intro u hu
        cases hu
  · unfold Gateway.recordSuccess
    rw [if_pos (by simpa using hen)]
    exact hi.mono htn

/-! ## A failure -/

theorem openSeconds_account (cls : ErrorClass) (streak : Nat) :
    openSeconds accountDeniedRules cls streak ≤ accountDeniedMaxOpenS := by
  refine le_trans (Nat.min_le_right _ _) ?_
  cases cls <;> decide

variable {cls : ErrorClass}

theorem openSeconds_rules (hcls : cls ≠ .accessDenied) (streak : Nat) :
    openSeconds rules cls streak ≤ accountDeniedMaxOpenS := by
  refine le_trans (Nat.min_le_right _ _) ?_
  cases cls with
  | accessDenied => exact absurd rfl hcls
  | _ => decide

theorem known_spec {t : Table Key Health} (hk : known key h (rowsOf t key.connectionKey) = true) :
    ∃ o ok, h.openedAt = some o ∧ Answered t key.connectionKey ok ∧ o < ok ∧ h.circuitOpenUntil ≠ none := by
  unfold known openedBefore at hk
  simp only [Bool.and_eq_true, decide_eq_true_eq] at hk
  obtain ⟨⟨-, hopen⟩, hb⟩ := hk
  cases ho : h.openedAt with
  | none => simp [ho] at hb
  | some o =>
    cases hl : lastOkWithout (rowsOf t key.connectionKey) key.connectionKey key.modelKey with
    | none => simp [ho, hl] at hb
    | some ok =>
      rw [ho, hl] at hb
      obtain ⟨x, hx, hok⟩ := mem_filterMap.1 (List.max?_eq_some_iff.1 hl).1
      have hd := (mem_mine t key.connectionKey x).1 (mem_filter.1 hx).1
      exact ⟨o, ok, rfl, ⟨x.1, x.2, hd, hok⟩, by simpa using hb, by
        rwa [← isSome_iff_ne_none]⟩

theorem failureRules_short (t : Table Key Health) (key : Key) (h : Health) (cls : ErrorClass) (streak : Nat) :
    openSeconds (failureRules key h (rowsOf t key.connectionKey)) cls streak ≤ accountDeniedMaxOpenS ∨
      (cls = .accessDenied ∧ known key h (rowsOf t key.connectionKey) = true) := by
  unfold failureRules
  split
  · next hk =>
    by_cases hcls : cls = .accessDenied
    · exact Or.inr ⟨hcls, hk⟩
    · exact Or.inl (openSeconds_rules hcls streak)
  · exact Or.inl (openSeconds_account cls streak)

variable {message : String}

theorem periodOk_reopened {R : ErrorClass → Rule} {streak : Nat} {openedAt : Int}
    (hs : openSeconds R cls streak ≤ accountDeniedMaxOpenS ∨ (cls = .accessDenied ∧ ∃ ok, A ok ∧ openedAt < ok)) :
    PeriodOk A (reopened R (failureNoted h cls message now) cls now streak openedAt) := by
  intro u hu
  obtain rfl : now + secs (openSeconds R cls streak) = u := Option.some.inj hu
  rcases hs with hs | ⟨rfl, ok, hans, hlt⟩
  · refine Or.inl ⟨now, rfl, ?_⟩
    unfold secs
    omega
  · exact Or.inr ⟨openedAt, ok, rfl, hans, hlt, Or.inl rfl⟩

theorem periodOk_noted (hp : PeriodOk A h) (herror : ∀ e, h.lastErrorAt = some e → e ≤ now)
    (hanswered : ∀ ok, A ok → ok ≤ now) (hsolo : cls.solo = true → ∀ u, h.circuitOpenUntil = some u →
      now + secs accountDeniedMaxOpenS < u → ∃ ok, A ok ∧ now ≤ ok) : PeriodOk A (failureNoted h cls message now) := by
  intro u hu
  rcases hp u hu with ⟨e, he, hle⟩ | ⟨o, ok, ho, hans, hlt, -⟩
  · have := herror e he
    exact Or.inl ⟨now, rfl, by omega⟩
  · by_cases hc : cls.solo = true
    · by_cases hlong : now + secs accountDeniedMaxOpenS < u
      · obtain ⟨ok', hans', hle'⟩ := hsolo hc u hu hlong
        have := hanswered ok hans
        exact Or.inr ⟨o, ok', ho, hans', by omega, Or.inr ⟨now, rfl, hle'⟩⟩
      · exact Or.inl ⟨now, rfl, by omega⟩
    · exact Or.inr ⟨o, ok, ho, hans, hlt, Or.inl (by simpa [soloClass, failureNoted] using hc)⟩

theorem PeriodInv.recordFailure (hi : PeriodInv t s.rows) (htn : t ≤ now)
    (hshort : ¬ LongSolo s (.failure key cls message now)) : PeriodInv now (recordFailure s key cls message now).rows := by
  by_cases hen : s.enabled = true
  swap
  · unfold Gateway.recordFailure
    rw [if_pos (by simpa using hen)]
    exact hi.mono htn
  unfold Gateway.recordFailure
  rw [if_neg (by simp [hen])]
  dsimp only
  generalize hh : rowAt s.rows key = h
  generalize hR : failureRules key h (rowsOf s.rows key.connectionKey) = R
  have hcases := afterFailure_cases R true h cls message now
  refine hi.transition htn ?_ ?_ ?_
  · rw [hh, hR]
    intro h' hf ok hok
    obtain rfl := Option.some.inj hf
    refine ⟨ok, ?_, le_rfl⟩
    rcases hcases with ⟨-, -, -, he⟩ | ⟨-, -, -, he⟩ | ⟨-, -, he⟩ | ⟨-, -, he⟩ <;> rw [he] <;> exact hok
  · rw [hh, hR]
    intro h' hd hf
    obtain rfl := Option.some.inj hf
    rcases hcases with ⟨-, -, -, he⟩ | ⟨-, -, -, he⟩ | ⟨-, -, he⟩ | ⟨-, -, he⟩ <;> rw [he] <;>
      exact ⟨(hd.mono htn).ok, fun e hh => le_of_eq (Option.some.inj hh).symm⟩
  · rw [hh, hR]
    intro h' hm hp hf
    obtain rfl := Option.some.inj hf
    have hknown : known key h (rowsOf s.rows key.connectionKey) = true → ∃ o ok,
        h.openedAt = some o ∧ Answered s.rows key.connectionKey ok ∧ o < ok ∧
          h.circuitOpenUntil ≠ none := known_spec
    rcases hcases with ⟨u, hu, hlt, he⟩ | ⟨u, hu, hle, he⟩ | ⟨hu, -, he⟩ | ⟨hu, -, he⟩
    · rw [he]
      refine periodOk_noted hp (fun e hee => ?_) (fun ok hans => ?_) fun hsolo v hv hlong => ?_
      · have := (all_rowAt hi.dated key (DatedBy.empty t)).error e (hh ▸ hee)
        omega
      · have := hi.answered_le hans
        omega
      · -- some answer is dated now, so the failure is no signal
        by_contra hnot
        push Not at hnot
        exact hshort ⟨hen, hsolo, hm, ⟨v, hh ▸ hv, hlong⟩, hnot⟩
    · rw [he]
      apply periodOk_reopened
      rw [← hR]
      refine (failureRules_short s.rows key h cls _).imp_right ?_
      rintro ⟨hcls, hk⟩
      obtain ⟨o, ok, ho, hans, hlt, -⟩ := hknown hk
      exact ⟨hcls, ok, hans, by simpa [ho] using hlt⟩
    · rw [he]
      apply periodOk_reopened
      rw [← hR]
      refine (failureRules_short s.rows key h cls _).imp_right ?_
      rintro ⟨-, hk⟩
      obtain ⟨o, ok, -, -, -, hopen⟩ := hknown hk
      exact absurd hu hopen
    · rw [he]
      intro u hu'
      rw [show (failureNoted h cls message now).circuitOpenUntil = none from hu] at hu'
      cases hu'

theorem periodInv_step {op : Op} (hi : PeriodInv t s.rows)
    (htn : t ≤ op.now) (hshort : ¬ LongSolo s op) : PeriodInv op.now (step s op).rows := by
  cases op with
  | admits key now =>
    show PeriodInv now (admits s key now).2.rows
    unfold admits
    split
    · exact hi.mono htn
    · split
      · exact hi.mono htn
      · dsimp only
        split
        · exact hi.mono htn
        · exact hi.mono htn
        · exact hi.lease htn claimed_lease
  | success key now mono => exact hi.recordSuccess htn
  | failure key cls message now => exact hi.recordFailure htn hshort
  | requestError key now =>
    show PeriodInv now (recordRequestError s key).rows
    unfold recordRequestError
    split
    · exact hi.mono htn
    · split
      · exact hi.lease htn leaseReleased_lease
      · exact hi.mono htn

/-! ## The failure that breaks it -/

theorem accountWide_of_solo (hcls : h.lastErrorClass = some cls) (hsolo : cls.solo = true) : accountWide h = true := by
  unfold accountWide
  rw [hcls]
  cases cls with
  | credential => rfl
  | quotaExhausted => rfl
  | _ => cases hsolo

theorem rows_recordFailure_opened (cls : ErrorClass) (message : String)
    {u : Int} (hen : s.enabled = true) (hu : (rowAt s.rows key).circuitOpenUntil = some u) (hlt : now < u) (k : Key) :
    (recordFailure s key cls message now).rows.get? k =
      if k = key then some (failureNoted (rowAt s.rows key) cls message now) else s.rows.get? k := by
  unfold recordFailure
  rw [if_neg (by simp [hen])]
  rw [get?_transition, getD_some]
  unfold afterFailure
  rw [(stateOf_opened_iff _ now).2 ⟨u, hu, hlt⟩]

theorem signal_of_longSolo (hl : LongSolo s (.failure key cls message now)) :
    Signal (recordFailure s key cls message now).rows key.connectionKey key
      (failureNoted (rowAt s.rows key) cls message now) := by
  obtain ⟨hen, hsolo, hm, ⟨u, hu, hlong⟩, hans⟩ := hl
  have hlt : now < u := by
    have : (0 : Int) ≤ secs accountDeniedMaxOpenS := by decide
    omega
  have hrows := rows_recordFailure_opened cls message hen hu hlt
  refine ⟨⟨?_, rfl, hm⟩, accountWide_of_solo rfl hsolo, ?_, now, rfl, ?_⟩
  · rw [hrows, if_pos rfl]
  · show (rowAt s.rows key).circuitOpenUntil ≠ none
    simp [hu]
  · rintro ok ⟨k, h, hd, hok⟩
    have hrow := hd.row
    rw [hrows] at hrow
    by_cases hk : k = key
    · subst hk
      rw [if_pos rfl] at hrow
      obtain rfl := Option.some.inj hrow
      cases hr : s.rows.get? k with
      | none => simp [rowAt, hr] at hu
      | some h₀ =>
        rw [get?_eq_rowAt hr] at hok
        exact hans ok ⟨k, h₀, ⟨hr, rfl, hm⟩, hok⟩
    · rw [if_neg hk] at hrow
      exact hans ok ⟨k, h, ⟨hrow, hd.connection, hd.model⟩, hok⟩

theorem error_le_recordFailure {u : Int} (hi : PeriodInv t s.rows) (htn : t ≤ now)
    (hen : s.enabled = true) (hu : (rowAt s.rows key).circuitOpenUntil = some u) (hlt : now < u)
    {k : Key} (hr : (recordFailure s key cls message now).rows.get? k = some h)
    {e : Int} (he : h.lastErrorAt = some e) : e ≤ now := by
  rw [rows_recordFailure_opened cls message hen hu hlt] at hr
  by_cases hk : k = key
  · rw [if_pos hk] at hr
    obtain rfl := Option.some.inj hr
    exact le_of_eq (Option.some.inj he).symm
  · rw [if_neg hk] at hr
    exact le_trans ((hi.dated k h hr).error e he) htn

theorem not_halfOpensSoon_of_longSolo {op : Op} (hi : PeriodInv t s.rows)
    (htn : t ≤ op.now) (hl : LongSolo s op) : ¬ HalfOpensSoon (step s op) := by
  cases op with
  | failure key cls message now =>
    intro hsoon
    have hsig := signal_of_longSolo hl
    obtain ⟨hen, hsolo, hm, ⟨u, hu, hlong⟩, -⟩ := hl
    have hlt : now < u := by
      have : (0 : Int) ≤ secs accountDeniedMaxOpenS := by decide
      omega
    set rows' := (recordFailure s key cls message now).rows with hrows'
    set c := key.connectionKey with hc
    have hmem : (key, failureNoted (rowAt s.rows key) cls message now) ∈
        tripping (rowsOf rows' c) c now := (mem_tripping rows' c now _).2 (Or.inl ⟨hsig, hsolo⟩)
    cases hn : newest (tripping (rowsOf rows' c) c now) with
    | none =>
      rw [(Table.firstBy_eq_none _ _).1 hn] at hmem
      cases hmem
    | some n =>
      -- the circuit as it is read at `now`
      obtain ⟨u', hu'⟩ : ∃ u', ((tripping (rowsOf rows' c) c now).filterMap fun x =>
          x.2.circuitOpenUntil).max? = some u' := by
        rw [← ne_none_iff_exists', ne_eq, List.max?_eq_none_iff]
        exact ne_nil_of_mem (mem_filterMap.2 ⟨_, hmem, hu⟩)
      have huu : u ≤ u' := (List.max?_eq_some_iff.1 hu').2 u (mem_filterMap.2 ⟨_, hmem, hu⟩)
      obtain ⟨hnmem, -⟩ := newest_spec hn
      obtain ⟨en, hen', -⟩ := (signal_of_mem_tripping hnmem).1.newer
      have hle : en ≤ now := error_le_recordFailure hi htn hen hu hlt
        (signal_of_mem_tripping hnmem).1.deployed.row hen'
      obtain ⟨v, e, hv, he, hve⟩ := hsoon c now _ (by
        show connectionHealth (rowsOf rows' c) c now = _
        unfold connectionHealth
        dsimp only
        rw [hn]) ((stateOf_opened_iff _ now).2 ⟨u', hu', by omega⟩)
      obtain rfl : u' = v := Option.some.inj (hu'.symm.trans hv)
      obtain rfl : en = e := Option.some.inj (hen'.symm.trans he)
      omega
  | _ => exact absurd hl id

theorem halfOpensSoon_run {ops : List Op} (hi : PeriodInv t s.rows)
    (hfrom : ∀ op ∈ ops, t ≤ op.now) (hforward : ops.Pairwise fun a b => a.now ≤ b.now) :
    Always step HalfOpensSoon s ops ↔ Along step (fun s op => ¬ LongSolo s op) s ops := by
  induction ops generalizing s t with
  | nil => exact ⟨fun _ => trivial, fun _ => hi.halfOpensSoon⟩
  | cons op ops ih =>
    obtain ⟨hlater, hforward⟩ := pairwise_cons.1 hforward
    have htn := hfrom op mem_cons_self
    constructor
    · rintro ⟨-, h⟩
      have hshort : ¬ LongSolo s op := fun hl => not_halfOpensSoon_of_longSolo hi htn hl h.head
      exact ⟨hshort, (ih (periodInv_step hi htn hshort) hlater hforward).1 h⟩
    · rintro ⟨hshort, h⟩
      exact ⟨hi.halfOpensSoon, (ih (periodInv_step hi htn hshort) hlater hforward).2 h⟩

/-- **A tripped connection half-opens within 30 minutes** in a run with
non-decreasing times exactly when no step of it is a long solo failure. -/
theorem halfOpensSoon_iff (enabled : Bool) (okWritten : Key → Option Int) (ops : List Op)
    (hforward : ops.Pairwise fun a b => a.now ≤ b.now) :
    Always step HalfOpensSoon ⟨enabled, Table.empty, okWritten⟩ ops ↔
      Along step (fun s op => ¬ LongSolo s op) ⟨enabled, Table.empty, okWritten⟩ ops := by
  have hi : ∀ t, PeriodInv t Table.empty := fun t => ⟨Table.All.empty, Table.All.empty⟩
  cases ops with
  | nil => exact halfOpensSoon_run (hi 0) (by simp) hforward
  | cons op ops =>
    refine halfOpensSoon_run (hi op.now) ?_ hforward
    intro op' hop'
    rcases List.mem_cons.1 hop' with rfl | hop'
    · exact le_rfl
    · exact (List.pairwise_cons.1 hforward).1 op' hop'

/-- A model refused on its own, again after each open period. -/
def refused : List Op :=
  [.failure ⟨"acc3", "m1"⟩ .accessDenied "no grant" 0,
    .success ⟨"acc3", "m2"⟩ (secs 1) (secs 1),
    .failure ⟨"acc3", "m1"⟩ .accessDenied "no grant" (secs 2),
    .failure ⟨"acc3", "m1"⟩ .accessDenied "no grant" (secs 602),
    .failure ⟨"acc3", "m1"⟩ .accessDenied "no grant" (secs 1802)]

theorem halfOpensSoon_refused : Always step HalfOpensSoon .fresh refused := by
  refine (halfOpensSoon_iff true (fun _ => none) refused (by decide)).2 ?_
  exact ⟨fun h => (by cases h.2.1), id, fun h => (by cases h.2.1), fun h => (by cases h.2.1),
    fun h => (by cases h.2.1), trivial⟩

/-- Then a call of the same model finds no credit left: the second class lands on
the open period of the first, which has 40 minutes to go. -/
def refusedThenQuota : List Op :=
  refused ++ [.failure ⟨"acc3", "m1"⟩ .quotaExhausted "no credit" (secs 1803)]

theorem refusedThenQuota_stays_open : (refusedThenQuota.Pairwise fun a b => a.now ≤ b.now) ∧
      ¬ Always step HalfOpensSoon .fresh refusedThenQuota := by
  refine ⟨by decide, fun h => ?_⟩
  have hsoon := h.run "acc3" (secs 1803)
  have hopen : ((connectionHealth (rowsOf (run step .fresh refusedThenQuota).rows "acc3") "acc3"
      (secs 1803)).map fun h => (h.circuitOpenUntil, h.lastErrorAt)) =
        some (some (secs 4202), some (secs 1803)) := by decide
  obtain ⟨r, hr, hr'⟩ := Option.map_eq_some_iff.1 hopen
  obtain ⟨hu, he⟩ := Prod.mk.inj hr'
  obtain ⟨u, e, hu', he', hle⟩ := hsoon r hr ((stateOf_opened_iff r _).2 ⟨_, hu, by decide⟩)
  obtain rfl : secs 4202 = u := Option.some.inj (hu.symm.trans hu')
  obtain rfl : secs 1803 = e := Option.some.inj (he.symm.trans he')
  exact absurd hle (by decide)

end CisApp.Gateway
