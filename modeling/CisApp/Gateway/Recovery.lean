import CisApp.Gateway.Health

/-!
# An answered call and the connection circuit

A success on any deployment of a connection should close the connection circuit:
refusals older than the last answer are no signals.  `recordSuccess` does not
always write its answer, though: a healthy deployment that was written less than
a minute ago is left alone (`writeSkipped`), so `last_ok_at` stays older than a
sibling's refusal and the connection stays tripped.

`Trips` depends on five facts of each row (`evidence`).  The re-probe changes
none of them, a written success is an answer dated `now`, and so the circuit is
closed exactly when the answer was written or nothing was tripped
(`closes_iff_answerCounts`).
-/

namespace CisApp.Gateway

open List

/-- What a row says about its connection. -/
def evidence (h : Health) : Option Int × Option Int × Option ErrorClass × Option Int × Bool :=
  (h.lastOkAt, h.lastErrorAt, h.lastErrorClass, h.openedAt, h.circuitOpenUntil.isSome)

theorem evidence_eq_iff (h h' : Health) :
    evidence h = evidence h' ↔ h.lastOkAt = h'.lastOkAt ∧ h.lastErrorAt = h'.lastErrorAt ∧
      h.lastErrorClass = h'.lastErrorClass ∧ h.openedAt = h'.openedAt ∧
      h.circuitOpenUntil.isSome = h'.circuitOpenUntil.isSome := by
  simp [evidence]

/-- The deployments of `c` say the same in both tables. -/
def SameEvidence (c : String) (t t' : Table Key Health) : Prop :=
  ∀ k, k.connectionKey = c → k.modelKey ≠ connectionModel →
    (t.get? k).map evidence = (t'.get? k).map evidence

namespace SameEvidence

variable {c : String} {t t' t'' : Table Key Health}

theorem refl : SameEvidence c t t := fun _ _ _ => rfl

theorem symm (he : SameEvidence c t t') : SameEvidence c t' t :=
  fun k hc hm => (he k hc hm).symm

theorem trans (he : SameEvidence c t t') (he' : SameEvidence c t' t'') : SameEvidence c t t'' :=
  fun k hc hm => (he k hc hm).trans (he' k hc hm)

theorem deployed (he : SameEvidence c t t') {k : Key} {h : Health} (hd : Deployed t c k h) :
    ∃ h', Deployed t' c k h' ∧ evidence h = evidence h' := by
  have := he k hd.connection hd.model
  rw [hd.row] at this
  cases hr : t'.get? k with
  | none =>
    rw [hr] at this
    cases this
  | some h' =>
    rw [hr] at this
    exact ⟨h', ⟨hr, hd.connection, hd.model⟩, Option.some.inj this⟩

theorem answered (he : SameEvidence c t t') {ok : Int} (ha : Answered t c ok) : Answered t' c ok := by
  obtain ⟨k, h, hd, hok⟩ := ha
  obtain ⟨h', hd', heq⟩ := he.deployed hd
  exact ⟨k, h', hd', ((evidence_eq_iff h h').1 heq).1 ▸ hok⟩

theorem signal (he : SameEvidence c t t') {k : Key} {h : Health} (hs : Signal t c k h) :
    ∃ h', Signal t' c k h' ∧ evidence h = evidence h' := by
  obtain ⟨h', hd', heq⟩ := he.deployed hs.deployed
  obtain ⟨-, herr, hcls, -, hopen⟩ := (evidence_eq_iff h h').1 heq
  obtain ⟨e, hle, hnew⟩ := hs.newer
  refine ⟨h', ⟨hd', ?_, ?_, e, herr ▸ hle, fun ok hok => hnew ok (he.symm.answered hok)⟩, heq⟩
  · have := hs.accountWide
    unfold accountWide at this ⊢
    rwa [← hcls]
  · have := hs.notClosed
    rw [← Option.isSome_iff_ne_none] at this ⊢
    rwa [← hopen]

theorem denied (he : SameEvidence c t t') {k : Key} {h : Health} (hd : Denied t c k h) : ∃ h', Denied t' c k h' := by
  obtain ⟨h', hs', heq⟩ := he.signal hd.signal
  obtain ⟨-, -, hcls, hopened, -⟩ := (evidence_eq_iff h h').1 heq
  refine ⟨h', hs', hcls ▸ hd.denied, fun o ho ok hok => ?_⟩
  exact hd.began o (hopened.trans ho) ok (he.symm.answered hok)

theorem trips (he : SameEvidence c t t') (ht : Trips t c) : Trips t' c := by
  rcases ht with ⟨k, h, hs, hsolo⟩ | ⟨k, h, k', h', hd, hd', hne⟩
  · obtain ⟨h', hs', heq⟩ := he.signal hs
    refine Or.inl ⟨k, h', hs', ?_⟩
    unfold soloClass at hsolo ⊢
    rwa [← ((evidence_eq_iff h h').1 heq).2.2.1]
  · obtain ⟨r, hr⟩ := he.denied hd
    obtain ⟨r', hr'⟩ := he.denied hd'
    exact Or.inr ⟨k, r, k', r', hr, hr', hne⟩

theorem trips_iff (he : SameEvidence c t t') : Trips t c ↔ Trips t' c :=
  ⟨he.trips, he.symm.trips⟩

end SameEvidence

/-! ## The re-probe -/

variable {now : Int}

theorem evidence_halfOpenNow {h h' : Health} (hh : halfOpenNow h now = some h') : evidence h' = evidence h := by
  unfold halfOpenNow at hh
  split at hh
  · cases hh
  · next hn =>
    have ho : stateOf h now = .opened := by
      by_contra hne
      exact hn (Or.inl hne)
    obtain ⟨u, hu, -⟩ := (stateOf_opened_iff h now).1 ho
    cases hh
    simp [evidence, hu]

variable {key : Key}

theorem sameEvidence_transition {c : String} {t : Table Key Health}
    {fn : Health → Option Health} (hrow : t.get? key ≠ none)
    (hfn : ∀ h h', fn h = some h' → evidence h' = evidence h) : SameEvidence c t (transition t key fn) := by
  intro k hc hm
  rw [get?_transition]
  by_cases hk : k = key
  · subst hk
    rw [if_pos rfl]
    obtain ⟨h, hr⟩ := Option.ne_none_iff_exists'.1 hrow
    rw [get?_eq_rowAt hr, hr]
    cases hf : fn h with
    | none => rfl
    | some h' => simp [hfn h h' hf]
  · rw [if_neg hk]

theorem reprobe_fold (c : String) (now : Int) (ms : List String) {t : Table Key Health}
    (hms : ∀ m ∈ ms, t.get? ⟨c, m⟩ ≠ none) :
    SameEvidence c t (ms.foldl (fun t m => transition t ⟨c, m⟩ fun cur => halfOpenNow cur now) t) ∧
      ∀ k, k.connectionKey ≠ c ∨ k.modelKey ∉ ms →
        (ms.foldl (fun t m => transition t ⟨c, m⟩ fun cur => halfOpenNow cur now) t).get? k = t.get? k := by
  induction ms generalizing t with
  | nil => exact ⟨SameEvidence.refl, fun _ _ => rfl⟩
  | cons m ms ih =>
    have hstep : SameEvidence c t (transition t ⟨c, m⟩ fun cur => halfOpenNow cur now) :=
      sameEvidence_transition (hms m mem_cons_self) fun _ _ => evidence_halfOpenNow
    obtain ⟨hsame, hframe⟩ := ih (t := transition t ⟨c, m⟩ fun cur => halfOpenNow cur now) (by
      intro m' hm'
      rw [get?_transition]
      split
      · simp
      · exact hms m' (mem_cons_of_mem _ hm'))
    refine ⟨hstep.trans hsame, fun k hk => ?_⟩
    rw [foldl_cons, hframe k (hk.imp_right fun h => fun h' => h (mem_cons_of_mem _ h')), get?_transition, if_neg]
    rintro rfl
    rcases hk with hk | hk
    · exact hk rfl
    · exact hk mem_cons_self

theorem mem_recoveryCandidates {t : Table Key Health} {c m m' : String}
    (h : m' ∈ recoveryCandidates (rowsOf t c) c m now) :
    m' ≠ m ∧ ∃ r, Deployed t c ⟨c, m'⟩ r ∧ accountWide r = true ∧ stateOf r now = .opened := by
  unfold recoveryCandidates at h
  rw [mem_insertionSort, mem_map] at h
  obtain ⟨⟨⟨c', m''⟩, r⟩, hx, rfl⟩ := h
  rw [mem_filter, mem_mine] at hx
  obtain ⟨hd, hx⟩ := hx
  simp only [Bool.and_eq_true, decide_eq_true_eq] at hx
  obtain rfl : c' = c := hd.connection
  exact ⟨hx.1.1.1, r, hd, hx.1.1.2, hx.1.2⟩

theorem sameEvidence_reprobe (t : Table Key Health) (key : Key) (now : Int) (c : String) :
    SameEvidence c t (reprobeAfterAccountRecovery t key now) := by
  obtain ⟨hsame, hframe⟩ := reprobe_fold key.connectionKey now
    (recoveryCandidates (rowsOf t key.connectionKey) key.connectionKey key.modelKey now)
    (t := t) (by
      intro m hm hn
      obtain ⟨-, r, hd, -, -⟩ := mem_recoveryCandidates hm
      exact absurd (hn ▸ hd.row) (by simp))
  by_cases hc : c = key.connectionKey
  · subst hc
    exact hsame
  · intro k hk hm
    unfold reprobeAfterAccountRecovery
    rw [hframe k (Or.inl (hk ▸ hc))]

theorem get?_reprobe_self (t : Table Key Health) (key : Key) (now : Int) :
    (reprobeAfterAccountRecovery t key now).get? key = t.get? key := by
  refine (reprobe_fold _ _ _ ?_).2 key (Or.inr fun h => (mem_recoveryCandidates h).1 rfl)
  intro m hm hn
  obtain ⟨-, r, hd, -, -⟩ := mem_recoveryCandidates hm
  exact absurd (hn ▸ hd.row) (by simp)

/-! ## The answer -/

/-- The answer reaches the row of a deployment. -/
def answerWritten (s : Breaker) (key : Key) (mono : Int) : Bool :=
  s.enabled && !writeSkipped s key mono && decide (key.modelKey ≠ connectionModel)

theorem writeSkipped_reprobe (s : Breaker) (key : Key) (now mono : Int) :
    writeSkipped { s with rows := reprobeAfterAccountRecovery s.rows key now } key mono =
      writeSkipped s key mono := by
  simp only [writeSkipped, get?_reprobe_self]

theorem rows_recordSuccess (s : Breaker) (key : Key) (now mono : Int) (hen : s.enabled = true) :
    (recordSuccess s key now mono).rows = if writeSkipped s key mono then reprobeAfterAccountRecovery s.rows key now
      else transition (reprobeAfterAccountRecovery s.rows key now) key fun cur => some (afterSuccess cur now) := by
  rw [← writeSkipped_reprobe s key now mono]
  unfold recordSuccess
  rw [if_neg (by simp [hen])]
  dsimp only
  split <;> rfl

variable {s : Breaker} {mono : Int}

theorem sameEvidence_of_not_written (h : answerWritten s key mono = false) (c : String) :
    SameEvidence c s.rows (recordSuccess s key now mono).rows := by
  by_cases hen : s.enabled = true
  · have hre := sameEvidence_reprobe s.rows key now c
    rw [rows_recordSuccess s key now mono hen]
    split
    · exact hre
    · next hskip =>
      refine hre.trans fun k hc hm => ?_
      have hk : k ≠ key := by
        rintro rfl
        simp [answerWritten, hen, hskip, hm] at h
      rw [get?_transition, if_neg hk]
  · unfold recordSuccess
    simp only [Bool.not_eq_true] at hen
    rw [hen]
    exact SameEvidence.refl

theorem answered_of_written (now : Int) (h : answerWritten s key mono = true) :
    Answered (recordSuccess s key now mono).rows key.connectionKey now := by
  simp only [answerWritten, Bool.and_eq_true, Bool.not_eq_true', decide_eq_true_eq] at h
  obtain ⟨⟨hen, hskip⟩, hm⟩ := h
  rw [rows_recordSuccess s key now mono hen, if_neg (by simp [hskip])]
  refine ⟨key, afterSuccess (rowAt (reprobeAfterAccountRecovery s.rows key now) key) now, ⟨?_, rfl, hm⟩, rfl⟩
  rw [get?_transition, if_pos rfl]
  rfl

theorem deployed_recordSuccess {c : String} {k : Key}
    {h : Health} (hd : Deployed (recordSuccess s key now mono).rows c k h) {e : Int}
    (he : h.lastErrorAt = some e) : ∃ h₀, Deployed s.rows c k h₀ ∧ h₀.lastErrorAt = some e := by
  by_cases hw : answerWritten s key mono = true
  · simp only [answerWritten, Bool.and_eq_true, Bool.not_eq_true', decide_eq_true_eq] at hw
    obtain ⟨⟨hen, hskip⟩, -⟩ := hw
    have hrow := hd.row
    rw [rows_recordSuccess s key now mono hen, hskip] at hrow
    simp only [Bool.false_eq_true, if_false] at hrow
    rw [get?_transition] at hrow
    by_cases hk : k = key
    · subst hk
      obtain rfl : afterSuccess (rowAt (reprobeAfterAccountRecovery s.rows k now) k) now = h := by
        simpa using hrow
      have herr : (rowAt s.rows k).lastErrorAt = some e := by
        simpa [afterSuccess, rowAt, get?_reprobe_self] using he
      cases hr : s.rows.get? k with
      | none => simp [rowAt, hr] at herr
      | some h₀ => exact ⟨h₀, ⟨hr, hd.connection, hd.model⟩, get?_eq_rowAt hr ▸ herr⟩
    · rw [if_neg hk] at hrow
      obtain ⟨h₀, hd₀, heq⟩ := (sameEvidence_reprobe s.rows key now c).symm.deployed
        ⟨hrow, hd.connection, hd.model⟩
      exact ⟨h₀, hd₀, ((evidence_eq_iff h h₀).1 heq).2.1 ▸ he⟩
  · simp only [Bool.not_eq_true] at hw
    obtain ⟨h₀, hd₀, heq⟩ := (sameEvidence_of_not_written hw c).symm.deployed hd
    exact ⟨h₀, hd₀, ((evidence_eq_iff h h₀).1 heq).2.1 ▸ he⟩

/-! ## The claim of the module docstring -/

/-- No deployment of the connection has a failure dated after `now`. -/
def NoneLater (s : Breaker) (c : String) (now : Int) : Prop :=
  ∀ k h, Deployed s.rows c k h → ∀ e, h.lastErrorAt = some e → e ≤ now

/-- After an answered call the connection circuit is closed. -/
def Closes (s : Breaker) : Op → Prop
  | .success key now mono =>
    let s' := recordSuccess s key now mono
    let h := connectionHealth (rowsOf s'.rows key.connectionKey) key.connectionKey now
    h = none ∧ connectionOpen s' key.connectionKey now = none ∧ connectionRefusing h = false
  | _ => True

/-- The answer is written and no failure is dated after it, or it is not written
and the connection was not tripped. -/
def AnswerCounts (s : Breaker) : Op → Prop
  | .success key now mono =>
    if answerWritten s key mono then NoneLater s key.connectionKey now
    else connectionHealth (rowsOf s.rows key.connectionKey) key.connectionKey now = none
  | _ => True

def InOrder (s : Breaker) : Op → Prop
  | .success key now _ => NoneLater s key.connectionKey now
  | _ => True

theorem closes_iff (s : Breaker) (key : Key) (now mono : Int) : Closes s (.success key now mono) ↔
      ¬ Trips (recordSuccess s key now mono).rows key.connectionKey := by
  rw [← connectionHealth_eq_none_iff _ _ now]
  constructor
  · exact fun h => h.1
  · intro h
    refine ⟨h, ?_, ?_⟩
    · unfold connectionOpen
      rw [h]
      split <;> rfl
    · rw [h]
      rfl

theorem not_trips_of_written (hw : answerWritten s key mono = true) (hlate : NoneLater s key.connectionKey now) :
    ¬ Trips (recordSuccess s key now mono).rows key.connectionKey := by
  have hans := answered_of_written now hw
  have hnone : ∀ k h, ¬ Signal (recordSuccess s key now mono).rows key.connectionKey k h := by
    intro k h hs
    obtain ⟨e, he, hnew⟩ := hs.newer
    obtain ⟨h₀, hd₀, he₀⟩ := deployed_recordSuccess hs.deployed he
    have := hnew now hans
    have := hlate k h₀ hd₀ e he₀
    omega
  rintro (⟨k, h, hs, -⟩ | ⟨k, h, -, -, hd, -⟩)
  · exact hnone k h hs
  · exact hnone k h hd.signal

theorem trips_iff_of_not_written (hw : answerWritten s key mono = false) :
    Trips (recordSuccess s key now mono).rows key.connectionKey ↔ Trips s.rows key.connectionKey :=
  (sameEvidence_of_not_written hw key.connectionKey).trips_iff.symm

theorem closes_of_answerCounts (s : Breaker) (op : Op) (h : AnswerCounts s op) : Closes s op := by
  cases op with
  | success key now mono =>
    rw [closes_iff]
    simp only [AnswerCounts] at h
    split at h
    · next hw => exact not_trips_of_written hw h
    · next hw =>
      rw [trips_iff_of_not_written (by simpa using hw)]
      exact (connectionHealth_eq_none_iff _ _ _).1 h
  | _ => trivial

theorem answerCounts_of_closes (s : Breaker) (op : Op) (ho : InOrder s op) (h : Closes s op) : AnswerCounts s op := by
  cases op with
  | success key now mono =>
    rw [closes_iff] at h
    simp only [AnswerCounts]
    split
    · exact ho
    · next hw =>
      rw [trips_iff_of_not_written (by simpa using hw)] at h
      exact (connectionHealth_eq_none_iff _ _ _).2 h
  | _ => trivial

/-- **Any answered call closes the connection circuit**, in every run whose answers
count; and where no answer finds a failure dated after it, only in those. -/
theorem closes_iff_answerCounts (s : Breaker) (ops : List Op) :
    (Along step AnswerCounts s ops → Along step Closes s ops) ∧
      (Along step InOrder s ops → (Along step Closes s ops ↔ Along step AnswerCounts s ops)) := by
  refine ⟨fun h => h.mono closes_of_answerCounts, fun ho => ⟨fun h => ?_, fun h => ?_⟩⟩
  · exact (ho.and h).mono fun s op h => answerCounts_of_closes s op h.1 h.2
  · exact h.mono closes_of_answerCounts

/-- `m1` answers, `m2` fails for want of a key ten seconds later, `m1` answers
again: the second answer is not written. -/
def skippedAnswer : List Op :=
  [.success ⟨"acc3", "m1"⟩ 0 0,
    .failure ⟨"acc3", "m2"⟩ .credential "no key" (secs 10),
    .success ⟨"acc3", "m1"⟩ (secs 20) (secs 20)]

/-- The connection is still presumed refused after the last answer. -/
theorem skippedAnswer_refuses : ¬ Along step Closes Breaker.fresh skippedAnswer := by
  intro h
  have hlast := h.2.2.1.2.2
  revert hlast
  decide

end CisApp.Gateway
