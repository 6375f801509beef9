import CisApp.Publish.Log

/-! One revision, one post.

A request that claims its revision for the first time posts without a look at the channel.  Whether it is the first is
read off the log, and the log forgets: a failed row is reused for the next revision, whose key it then has.  A revision
whose post took effect although the request failed is posted again when the piece comes back to it (`posted_twice`).
The same happens when the newest failed row is of another revision than an older one of its own, and when a claim writes
after another request of its revision has failed behind its snapshot.

No request works longer than `STALE_AFTER_SECONDS` after its `requested_at`, and nothing is unpublished. -/

namespace CisApp.Publish

open List

def Work.inTime (w : Work) (now : Nat) : Prop := now ≤ w.claimedAt + staleAfter

/-- What the requests are given: they act in time, and nothing is unpublished. -/
def InTime (s : State) : Act → Prop
  | .look i _ => ∀ p w, s.requests.get? i = some p → p.work? = some w → w.inTime s.now
  | .post i _ _ => ∀ p w, s.requests.get? i = some p → p.work? = some w → w.inTime s.now
  | .finish i => ∀ p w, s.requests.get? i = some p → p.work? = some w → w.inTime s.now
  | .unpublish _ => False
  | _ => True

def NoFailedRow (log : Log) (key : Key) : Prop := ∀ k r, log.get? k = some r → r.status = .failed → r.key ≠ some key

/-- A claim that makes a row of its revision without a prior attempt finds no failed row of that revision, and takes no
failed row from a revision that is on the channel. -/
def Remembered (s : State) : Act → Prop
  | .write i _ => ∀ c, s.requests.get? i = some (.counted c) →
      match c.failed with
      | none => NoFailedRow s.log c.key
      | some (_, r) => ∀ key, r.key = some key → key ≠ c.key → NoFailedRow s.log c.key ∧ key ∉ s.posts
  | _ => True

def empty (now : Nat) : State := ⟨now, Table.empty, Table.empty, []⟩

/-! ## The invariant -/

def Phase.posts? : Phase → Option Work
  | .working w => if w.prior then none else some w
  | .looked w => some w
  | _ => none

structure Once (s : State) : Prop where
  /-- `uq_publish_log_active_key`. -/
  unique : ∀ k k' r r' key, s.log.get? k = some r → s.log.get? k' = some r' → r.active = true → r'.active = true →
    r.key = some key → r'.key = some key → k = k'
  live : ∀ k r, s.log.get? k = some r → r.status ≠ .unpublished
  began : ∀ i p t, s.requests.get? i = some p → p.began? = some t → t ≤ s.now
  owned : ∀ i p w, s.requests.get? i = some p → p.work? = some w → w.inTime s.now →
    ∃ r, s.log.get? w.row = some r ∧ r.status = .requested ∧ r.key = some w.key ∧ r.requestedAt = some w.claimedAt
  single : ∀ i j p q w w', s.requests.get? i = some p → s.requests.get? j = some q → p.work? = some w →
    q.work? = some w' → w.inTime s.now → w'.inTime s.now → w.row = w'.row → i = j
  memory : ∀ key ∈ s.posts, ∃ k r, s.log.get? k = some r ∧ r.key = some key
  blind : ∀ i p w, s.requests.get? i = some p → p.posts? = some w → w.inTime s.now → w.key ∉ s.posts
  nodup : s.posts.Nodup

variable {limit : Option Nat} {s : State}

theorem once_empty (now : Nat) : Once (empty now) where
  unique k k' r r' key hk := by cases hk
  live k r hk := by cases hk
  began i p t hi := by cases hi
  owned i p w hi := by cases hi
  single i j p q w w' hi := by cases hi
  memory key hkey := by cases hkey
  blind i p w hi := by cases hi
  nodup := nodup_nil

variable {p : Phase} {w : Work}

theorem posts?_work? (h : p.posts? = some w) : p.work? = some w := by
  cases p with
  | working w' =>
    simp only [Phase.posts?] at h
    split at h
    · cases h
    · exact h
  | looked w' => exact h
  | _ => cases h

theorem Once.drop (hs : Once s) (i : RequestId) : Once (s.drop i) where
  unique := hs.unique
  live := hs.live
  began j p t hj := hs.began j p t (get?_drop hj).2
  owned j p w hj := hs.owned j p w (get?_drop hj).2
  single j j' p q w w' hj hj' := hs.single j j' p q w w' (get?_drop hj).2 (get?_drop hj').2
  memory := hs.memory
  blind j p w hj := hs.blind j p w (get?_drop hj).2
  nodup := hs.nodup

theorem Once.tick (hs : Once s) (d : Nat) : Once { s with now := s.now + d } := by
  have hle : s.now ≤ s.now + d := Nat.le_add_right _ _
  refine ⟨hs.unique, hs.live, fun i p t hi ht => (hs.began i p t hi ht).trans hle,
    fun i p w hi hw ht => hs.owned i p w hi hw (hle.trans ht),
    fun i j p q w w' hi hj hw hw' ht ht' => hs.single i j p q w w' hi hj hw hw' (hle.trans ht) (hle.trans ht'),
    hs.memory, fun i p w hi hw ht => hs.blind i p w hi hw (hle.trans ht), hs.nodup⟩

variable {i : RequestId}

theorem Once.put (hs : Once s) (hbegan : ∀ t, p.began? = some t → t ≤ s.now)
    (hwork : ∀ w, p.work? = some w → ∃ q, s.requests.get? i = some q ∧ q.work? = some w)
    (hblind : ∀ w, p.posts? = some w → w.inTime s.now → w.key ∉ s.posts) : Once (s.put i p) := by
  have hold : ∀ j q w, (s.put i p).requests.get? j = some q → q.work? = some w →
      ∃ q', s.requests.get? j = some q' ∧ q'.work? = some w := by
    intro j q w hj hw
    rw [get?_put] at hj
    split at hj
    · next hji =>
      cases hj
      exact hji ▸ hwork w hw
    · exact ⟨q, hj, hw⟩
  refine ⟨hs.unique, hs.live, fun j q t hj ht => ?_, fun j q w hj hw => ?_,
    fun j j' q q' w w' hj hj' hw hw' => ?_, hs.memory, fun j q w hj hw => ?_, hs.nodup⟩
  · rw [get?_put] at hj
    split at hj
    · cases hj
      exact hbegan t ht
    · exact hs.began j q t hj ht
  · obtain ⟨q', hq', hw'⟩ := hold j q w hj hw
    exact hs.owned j q' w hq' hw'
  · obtain ⟨p₁, hp₁, hw₁⟩ := hold j q w hj hw
    obtain ⟨p₂, hp₂, hw₂⟩ := hold j' q' w' hj' hw'
    exact hs.single j j' p₁ p₂ w w' hp₁ hp₂ hw₁ hw₂
  · rw [get?_put] at hj
    split at hj
    · cases hj
      exact hblind w hw
    · exact hs.blind j q w hj hw

theorem Once.turn (hs : Once s) (h : Turn limit s i (s.requests.get? i) p) : Once (s.put i p) := by
  generalize hi : s.requests.get? i = before at h
  have hbefore : ∀ q t, before = some q → q.began? = some t → t ≤ s.now := by
    rintro q t rfl
    exact hs.began i q t hi
  cases h with
  | start key =>
    refine hs.put (fun t ht => ?_) (nofun) (nofun)
    cases ht
    exact le_rfl
  | select _ | lock _ _ | skip _ | lockTenant _ | unlimited _ | count _ =>
    exact hs.put (fun t ht => hbefore _ t rfl ht) (nofun) (nofun)
  | unknown | found _ =>
    exact hs.put (nofun) (fun w hw => ⟨_, hi, hw⟩) (nofun)
  | missing h =>
    refine hs.put (nofun) (fun w hw => ⟨_, hi, hw⟩) (fun w hw _ => ?_)
    cases hw
    exact h

variable {r : LogRow}

theorem Once.enter (hs : Once s) {log : Log}
    (hlog : ∀ k, k ≠ w.row → log.get? k = s.log.get? k) (hrow : log.get? w.row = some r)
    (hr : r.status = .requested ∧ r.key = some w.key ∧ r.requestedAt = some w.claimedAt)
    (hfree : ∀ k r', k ≠ w.row → s.log.get? k = some r' → r'.active = true → r'.key ≠ some w.key)
    (hnobody : ∀ j q w', s.requests.get? j = some q → q.work? = some w' → w'.inTime s.now → w'.row ≠ w.row)
    (hmemory : ∀ key ∈ s.posts, key = w.key ∨ ∃ k r', k ≠ w.row ∧ s.log.get? k = some r' ∧ r'.key = some key)
    (hblind : w.prior = false → w.key ∉ s.posts) : Once ({ s with log := log }.put i (.working w)) := by
  have hold : ∀ k r', k ≠ w.row → log.get? k = some r' → s.log.get? k = some r' :=
    fun k r' hk hr' => (hlog k hk).symm.trans hr'
  -- the works are the new one and those of before
  have hwork : ∀ j q w', ({ s with log := log }.put i (.working w)).requests.get? j = some q → q.work? = some w' →
      (j = i ∧ w' = w) ∨ (j ≠ i ∧ s.requests.get? j = some q) := by
    intro j q w' hj hw'
    rw [get?_put] at hj
    split at hj
    · next hji =>
      cases hj
      cases hw'
      exact Or.inl ⟨hji, rfl⟩
    · next hji => exact Or.inr ⟨hji, hj⟩
  refine ⟨fun k k' r₁ r₂ key hk hk' h₁ h₂ hkey₁ hkey₂ => ?_, fun k r' hk => ?_, fun j q t hj ht => ?_,
    fun j q w' hj hw' ht => ?_, fun j j' q q' w₁ w₂ hj hj' hw₁ hw₂ ht₁ ht₂ hrows => ?_, fun key hkey => ?_,
    fun j q w' hj hw' ht => ?_, hs.nodup⟩
  · by_cases hkr : k = w.row
    · by_cases hkr' : k' = w.row
      · exact hkr.trans hkr'.symm
      · rw [hkr] at hk
        cases hrow.symm.trans hk
        rw [hr.2.1] at hkey₁
        cases hkey₁
        exact absurd hkey₂ (hfree k' r₂ hkr' (hold k' r₂ hkr' hk') h₂)
    · by_cases hkr' : k' = w.row
      · rw [hkr'] at hk'
        cases hrow.symm.trans hk'
        rw [hr.2.1] at hkey₂
        cases hkey₂
        exact absurd hkey₁ (hfree k r₁ hkr (hold k r₁ hkr hk) h₁)
      · exact hs.unique k k' r₁ r₂ key (hold k r₁ hkr hk) (hold k' r₂ hkr' hk') h₁ h₂ hkey₁ hkey₂
  · by_cases hkr : k = w.row
    · subst hkr
      cases hrow.symm.trans hk
      rw [hr.1]
      exact Status.noConfusion
    · exact hs.live k r' (hold k r' hkr hk)
  · rw [get?_put] at hj
    split at hj
    · cases hj
      cases ht
    · exact hs.began j q t hj ht
  · rcases hwork j q w' hj hw' with ⟨-, rfl⟩ | ⟨-, hj⟩
    · exact ⟨r, hrow, hr⟩
    · obtain ⟨r', hr', hown⟩ := hs.owned j q w' hj hw' ht
      exact ⟨r', (hlog _ (hnobody j q w' hj hw' ht)).trans hr', hown⟩
  · rcases hwork j q w₁ hj hw₁ with ⟨hji, rfl⟩ | ⟨-, hj₀⟩
    · rcases hwork j' q' w₂ hj' hw₂ with ⟨hji', -⟩ | ⟨-, hj₀'⟩
      · exact hji.trans hji'.symm
      · exact absurd hrows.symm (hnobody j' q' w₂ hj₀' hw₂ ht₂)
    · rcases hwork j' q' w₂ hj' hw₂ with ⟨-, rfl⟩ | ⟨-, hj₀'⟩
      · exact absurd hrows (hnobody j q w₁ hj₀ hw₁ ht₁)
      · exact hs.single j j' q q' w₁ w₂ hj₀ hj₀' hw₁ hw₂ ht₁ ht₂ hrows
  · rcases hmemory key hkey with rfl | ⟨k, r', hk, hr', hkey'⟩
    · exact ⟨w.row, r, hrow, hr.2.1⟩
    · exact ⟨k, r', (hlog k hk).trans hr', hkey'⟩
  · rcases hwork j q w' hj (posts?_work? hw') with ⟨hji, rfl⟩ | ⟨-, hj'⟩
    · rw [get?_put, if_pos hji] at hj
      cases hj
      simp only [Phase.posts?] at hw'
      split at hw'
      · cases hw'
      · next hprior => exact hblind (Bool.eq_false_iff.2 hprior)
    · exact hs.blind j q w' hj' hw' ht

variable {k : RowId}

theorem not_active_of_free {log : Log} {k' : RowId} {key : Key} (h : conflict log k key = false)
    (hk' : k' ≠ k) (hr : log.get? k' = some r) (hactive : r.active = true) : r.key ≠ some key := by
  intro hkey
  have hzero : log.count (fun k' r => k' ≠ k && r.active && r.key = some key) = 0 := by
    simpa [conflict] using h
  unfold Table.count at hzero
  rw [countP_eq_zero] at hzero
  refine hzero (k', r) ((Table.get?_eq_some_iff _ _ _).1 hr) ?_
  simp [hk', hactive, hkey]

theorem Once.not_posted (hs : Once s) {key : Key} (hfree : conflict s.log k key = false)
    (hfailed : NoFailedRow s.log key) (hk : ∀ r, s.log.get? k = some r → r.key ≠ some key) : key ∉ s.posts := by
  intro hpost
  obtain ⟨k', r, hr, hkey⟩ := hs.memory key hpost
  by_cases hkk : k' = k
  · exact hk r (hkk ▸ hr) hkey
  · cases hstatus : r.status with
    | failed => exact hfailed k' r hr hstatus hkey
    | unpublished => exact hs.live k' r hr hstatus
    | requested => exact not_active_of_free hfree hkk hr (by simp [LogRow.active, hstatus]) hkey
    | published => exact not_active_of_free hfree hkk hr (by simp [LogRow.active, hstatus]) hkey

theorem Once.reclaim (hs : Once s) (hlocks : Locks s) {c : Claiming}
    (hi : s.requests.get? i = some (.selecting c))
    (hfind : c.same.find? (fun e => e.2.status = .requested) = some (k, r)) (hstale : c.stale r = true) :
    Once ({ s with log := setRow s.log k fun r => { r with requestedAt := some c.now } }.put i
      (.working ⟨k, c.key, true, c.now⟩)) := by
  have hmem := List.mem_of_find?_eq_some hfind
  obtain ⟨hin, hsame⟩ := mem_filter.1 hmem
  have hkey : r.key = some c.key := of_decide_eq_true hsame
  have hrow : s.log.get? k = some r := hlocks.read i _ c hi rfl _ hin
  have hstatus : r.status = .requested := by simpa using List.find?_some hfind
  have hactive : r.active = true := by simp [LogRow.active, hstatus]
  have hnow : c.now ≤ s.now := hs.began i _ c.now hi rfl
  have hnew : (setRow s.log k fun r => { r with requestedAt := some c.now }).get? k =
      some { r with requestedAt := some c.now } := by
    rw [get?_setRow, if_pos rfl, hrow]
    rfl
  refine hs.enter (w := ⟨k, c.key, true, c.now⟩) (fun k' hk' => get?_setRow_ne hk' _) hnew ⟨hstatus, hkey, rfl⟩
    (fun k' r' hk' hr' ha' hkey' => hk' ?_) (fun j q w' hj hw' ht hsame => ?_) (fun key hpost => ?_)
    (nofun)
  · exact hs.unique k' k r' r c.key hr' hrow ha' hactive hkey' hkey
  · obtain ⟨r', hr', -, -, hat⟩ := hs.owned j q w' hj hw' ht
    have hsame' : w'.row = k := hsame
    rw [hsame'] at hr'
    cases hrow.symm.trans hr'
    unfold Claiming.stale at hstale
    rw [hat, Option.any_some] at hstale
    have hlate : w'.claimedAt + staleAfter < c.now := of_decide_eq_true hstale
    have hin : s.now ≤ w'.claimedAt + staleAfter := ht
    omega
  · obtain ⟨k', r', hr', hkey'⟩ := hs.memory key hpost
    by_cases hkk : k' = k
    · subst hkk
      cases hrow.symm.trans hr'
      exact Or.inl (Option.some.inj (hkey'.symm.trans hkey))
    · exact Or.inr ⟨k', r', hkk, hr', hkey'⟩

theorem Once.nobody (hs : Once s) (hk : ∀ r, s.log.get? k = some r → r.status ≠ .requested)
    (j : RequestId) (q : Phase) (w : Work) (hj : s.requests.get? j = some q) (hw : q.work? = some w)
    (ht : w.inTime s.now) : w.row ≠ k := by
  obtain ⟨r, hr, hstatus, -⟩ := hs.owned j q w hj hw ht
  rintro rfl
  exact hk r hr hstatus

theorem Once.reuse (hs : Once s) (hlocks : Locks s) {c : Claiming}
    (hi : s.requests.get? i = some (.counted c)) (hfailed : c.failed = some (k, r))
    (hfree : conflict s.log k c.key = false)
    (hknown : ∀ key, r.key = some key → key ≠ c.key → NoFailedRow s.log c.key ∧ key ∉ s.posts) :
    Once ({ s with log := setRow s.log k fun r =>
        { r with status := .requested, key := some c.key, requestedAt := some c.now } }.put i
      (.working ⟨k, c.key, r.key = some c.key || r.key = none, c.now⟩)) := by
  obtain ⟨hmem, -, hstatus⟩ := holds_failed (p := .counted c) rfl hfailed
  have hrow : s.log.get? k = some r := hlocks.read i _ c hi rfl _ hmem
  have hnew : (setRow s.log k fun r =>
      { r with status := .requested, key := some c.key, requestedAt := some c.now }).get? k =
      some { r with status := .requested, key := some c.key, requestedAt := some c.now } := by
    rw [get?_setRow, if_pos rfl, hrow]
    rfl
  refine hs.enter (w := ⟨k, c.key, _, c.now⟩) (fun k' hk' => get?_setRow_ne hk' _) hnew ⟨rfl, rfl, rfl⟩
    (fun k' r' hk' hr' ha' => not_active_of_free hfree hk' hr' ha') (hs.nobody fun r' hr' => ?_)
    (fun key hpost => ?_) (fun hprior => ?_)
  · cases hrow.symm.trans hr'
    rw [hstatus]
    exact Status.noConfusion
  · obtain ⟨k', r', hr', hkey'⟩ := hs.memory key hpost
    by_cases hkk : k' = k
    · subst hkk
      cases hrow.symm.trans hr'
      by_contra hne
      exact (hknown key hkey' fun h => hne (Or.inl h)).2 hpost
    · exact Or.inr ⟨k', r', hkk, hr', hkey'⟩
  · have hother : r.key ≠ some c.key ∧ r.key ≠ none := by simpa using hprior
    obtain ⟨key, hkey⟩ := Option.ne_none_iff_exists'.1 hother.2
    have hne : key ≠ c.key := fun h => hother.1 (h ▸ hkey)
    refine hs.not_posted hfree (hknown key hkey hne).1 fun r' hr' => ?_
    cases hrow.symm.trans hr'
    exact hother.1

theorem Once.insert (hs : Once s) {c : Claiming} (hnone : s.log.get? k = none)
    (hfree : conflict s.log k c.key = false) (hknown : NoFailedRow s.log c.key) :
    Once ({ s with log := s.log.upsert k ⟨c.key.piece, .requested, some c.key, some c.now, none, c.now⟩ }.put i
      (.working ⟨k, c.key, false, c.now⟩)) := by
  have hlog : ∀ k', k' ≠ k →
      (s.log.upsert k ⟨c.key.piece, .requested, some c.key, some c.now, none, c.now⟩).get? k' = s.log.get? k' := by
    intro k' hk'
    rw [Table.get?_upsert, if_neg hk']
  have hnew : (s.log.upsert k ⟨c.key.piece, .requested, some c.key, some c.now, none, c.now⟩).get? k =
      some ⟨c.key.piece, .requested, some c.key, some c.now, none, c.now⟩ := by
    rw [Table.get?_upsert, if_pos rfl]
  have hempty : ∀ r, s.log.get? k ≠ some r := by
    intro r hr
    rw [hnone] at hr
    cases hr
  refine hs.enter (w := ⟨k, c.key, false, c.now⟩) hlog hnew ⟨rfl, rfl, rfl⟩
    (fun k' r' hk' hr' ha' => not_active_of_free hfree hk' hr' ha') (hs.nobody fun r' hr' => absurd hr' (hempty r'))
    (fun key hpost => ?_) (fun _ => hs.not_posted hfree hknown fun r' hr' => absurd hr' (hempty r'))
  obtain ⟨k', r', hr', hkey'⟩ := hs.memory key hpost
  refine Or.inr ⟨k', r', ?_, hr', hkey'⟩
  rintro rfl
  exact hempty r' hr'

theorem Once.post (hs : Once s) (hi : s.requests.get? i = some p)
    (hw : p.posts? = some w) (ht : w.inTime s.now) (effect answers : Bool) :
    Once ({ s with posts := if effect || answers then w.key :: s.posts else s.posts }.put i (.answered w answers)) := by
  have hwork := posts?_work? hw
  have hput : Once (s.put i (.answered w answers)) := by
    refine hs.put (nofun) (fun w' hw' => ?_) (nofun)
    cases hw'
    exact ⟨p, hi, hwork⟩
  show Once { s.put i (.answered w answers) with posts := if effect || answers then w.key :: s.posts else s.posts }
  by_cases htook : (effect || answers) = true
  · rw [if_pos htook]
    obtain ⟨r, hr, hstatus, hkey, -⟩ := hs.owned i p w hi hwork ht
    refine ⟨hput.unique, hput.live, hput.began, hput.owned, hput.single, fun key hin => ?_,
      fun j q w' hj hw' ht' hin => ?_, nodup_cons.2 ⟨hs.blind i p w hi hw ht, hs.nodup⟩⟩
    · rcases mem_cons.1 hin with rfl | hin
      · exact ⟨w.row, r, hr, hkey⟩
      · exact hs.memory key hin
    · rcases mem_cons.1 hin with hsame | hin
      · -- two requests of one revision have one row
        have hj' : (s.put i (.answered w answers)).requests.get? j = some q := hj
        rw [get?_put] at hj'
        split at hj'
        · cases hj'
          cases hw'
        · next hji =>
          obtain ⟨r', hr', hstatus', hkey', -⟩ := hs.owned j q w' hj' (posts?_work? hw') ht'
          have hrows := hs.unique w'.row w.row r' r w.key hr' hr (by simp [LogRow.active, hstatus'])
            (by simp [LogRow.active, hstatus]) (hsame ▸ hkey') hkey
          exact hji (hs.single j i q p w' w hj' hi (posts?_work? hw') hwork ht' ht hrows)
      · exact hput.blind j q w' hj hw' ht' hin
  · rw [if_neg htook]
    exact hput

theorem Once.finish (hs : Once s) {success : Bool}
    (hi : s.requests.get? i = some (.answered w success)) (ht : w.inTime s.now) :
    Once ({ s with log := setRow s.log w.row fun r =>
      { r with
        status := if success then .published else .failed
        publishedAt := if success then some s.now else r.publishedAt } }.drop i) := by
  obtain ⟨r, hr, hstatus, hkey, -⟩ := hs.owned i _ w hi rfl ht
  -- a row afterwards has its key, and was active if it is
  have hrows : ∀ k r', (setRow s.log w.row fun r =>
      { r with
        status := if success then .published else .failed
        publishedAt := if success then some s.now else r.publishedAt }).get? k = some r' →
      ∃ r₀, s.log.get? k = some r₀ ∧ r'.key = r₀.key ∧ (r'.active = true → r₀.active = true) ∧
        (r'.status = .unpublished → r₀.status = .unpublished) := by
    intro k r' hk
    rw [get?_setRow] at hk
    split at hk
    · next hkr =>
      subst hkr
      rw [hr, Option.map_some, Option.some.injEq] at hk
      subst hk
      refine ⟨r, hr, rfl, fun _ => by simp [LogRow.active, hstatus], fun h => ?_⟩
      cases success <;> simp at h
    · exact ⟨r', hk, rfl, id, id⟩
  refine ⟨fun k k' r₁ r₂ key hk hk' h₁ h₂ hkey₁ hkey₂ => ?_, fun k r' hk hun => ?_,
    fun j p t hj => hs.began j p t (get?_drop hj).2, fun j p w' hj hw' ht' => ?_,
    fun j j' p q w₁ w₂ hj hj' => hs.single j j' p q w₁ w₂ (get?_drop hj).2 (get?_drop hj').2, fun key hpost => ?_,
    fun j p w' hj => hs.blind j p w' (get?_drop hj).2, hs.nodup⟩
  · obtain ⟨s₁, hs₁, hk₁, ha₁, -⟩ := hrows k r₁ hk
    obtain ⟨s₂, hs₂, hk₂, ha₂, -⟩ := hrows k' r₂ hk'
    exact hs.unique k k' s₁ s₂ key hs₁ hs₂ (ha₁ h₁) (ha₂ h₂) (hk₁ ▸ hkey₁) (hk₂ ▸ hkey₂)
  · obtain ⟨r₀, hr₀, -, -, hun₀⟩ := hrows k r' hk
    exact hs.live k r₀ hr₀ (hun₀ hun)
  · obtain ⟨hji, hj₀⟩ := get?_drop hj
    obtain ⟨r', hr', hown⟩ := hs.owned j p w' hj₀ hw' ht'
    refine ⟨r', ?_, hown⟩
    refine (get?_setRow_ne (fun hsame => hji ?_) _).trans hr'
    exact hs.single j i p _ w' w hj₀ hi hw' rfl ht' ht hsame
  · obtain ⟨k, r₀, hr₀, hkey₀⟩ := hs.memory key hpost
    by_cases hk : k = w.row
    · subst hk
      cases hr.symm.trans hr₀
      refine ⟨w.row, { r with
        status := if success then .published else .failed
        publishedAt := if success then some s.now else r.publishedAt }, ?_, hkey₀⟩
      show (setRow s.log w.row _).get? w.row = _
      rw [get?_setRow, if_pos rfl, hr]
      rfl
    · exact ⟨k, r₀, (get?_setRow_ne hk _).trans hr₀, hkey₀⟩

theorem Once.move {s' : State} {a : Act} (hs : Once s) (hlocks : Locks s) (htime : InTime s a)
    (hknown : Remembered s a) (h : Move limit s a s') : Once s' := by
  cases h with
  | stay => exact hs
  | tick d => exact hs.tick d
  | turn h => exact hs.turn h
  | drop _ i => exact hs.drop i
  | reclaim hi htodo hpublished hfind hstale => exact hs.reclaim hlocks hi hfind hstale
  | reuse hi hfailed hfree =>
    have hkey := hknown _ hi
    rw [hfailed] at hkey
    exact hs.reuse hlocks hi hfailed hfree hkey
  | insert hi hfailed hnone hfree =>
    have hkey := hknown _ hi
    rw [hfailed] at hkey
    exact hs.insert hnone hfree hkey
  | @post i w effect answers hi =>
    rcases hi with ⟨hi, hprior⟩ | hi
    · refine hs.post hi (w := w) ?_ (htime _ w hi rfl) effect answers
      simp only [Phase.posts?, hprior]
      rfl
    · exact hs.post hi rfl (htime _ w hi rfl) effect answers
  | finish hi hr hlock hfree => exact hs.finish hi (htime _ _ hi rfl)
  | unpublish hfree => exact absurd htime id

/-! ## Runs -/

/-- In a run whose claims know the revisions on the channel, the channel has one post of a revision at most. -/
theorem one_post_per_revision (limit : Option Nat) (now : Nat) (acts : List Act)
    (htime : Along (step limit) InTime (empty now) acts) (h : Along (step limit) Remembered (empty now) acts) :
    Always (step limit) (fun s => s.posts.Nodup) (empty now) acts := by
  have hempty : Locks (empty now) ∧ Once (empty now) :=
    ⟨⟨fun i p c hi => (by cases hi), fun i j p q k hi => (by cases hi)⟩, once_empty now⟩
  have hinv : Always (step limit) (fun s => Locks s ∧ Once s) (empty now) acts := by
    refine Along.always (fun s a hs ha => ?_) hempty (htime.and h)
    have hmove := step_move limit s a
    exact ⟨hs.1.move hmove, hs.2.move hs.1 ha.1 ha.2 hmove⟩
  exact hinv.mono fun s hs => hs.2.nodup

def Act.still : Act → Bool
  | .tick _ => false
  | .unpublish _ => false
  | _ => true

theorem now_move {s' : State} {a : Act} (h : Move limit s a s') (ha : a.still = true) : s'.now = s.now := by
  cases h with
  | tick d => cases ha
  | _ => rfl

theorem inTime_of_still {acts : List Act} (h : acts.all Act.still = true) (hs : s.now = 0) :
    Along (step limit) InTime s acts := by
  induction acts generalizing s with
  | nil => trivial
  | cons a acts ih =>
    obtain ⟨ha, hacts⟩ := Bool.and_eq_true_iff.1 h
    refine ⟨?_, ih hacts ((now_move (step_move limit s a) ha).trans hs)⟩
    have hzero : ∀ p w, s.requests.get? p = some w → ∀ v, w.work? = some v → v.inTime s.now := by
      intro _ _ _ v _
      show s.now ≤ v.claimedAt + staleAfter
      rw [hs]
      exact Nat.zero_le _
    cases a with
    | look i answers => exact fun p w hi hw => hzero i p hi w hw
    | post i effect answers => exact fun p w hi hw => hzero i p hi w hw
    | finish i => exact fun p w hi hw => hzero i p hi w hw
    | unpublish k => cases ha
    | _ => trivial

/-- A request of the revision whose claim finds the rows `rows`; `answers` is what it hears of its post. -/
def published (i : RequestId) (key : Key) (rows : List RowId) (answers : Bool) : List Act :=
  [Act.start i key, Act.select i rows] ++ rows.map (fun _ => Act.lockRow i) ++
    [Act.decide i, Act.write i i, Act.post i true answers, Act.finish i]

/-- The post takes effect and the request hears an error; the next request looks for the post and finds it. -/
def sentAgain : List Act :=
  published 0 ⟨1, 0⟩ [] false ++
    [Act.start 1 ⟨1, 0⟩, Act.select 1 [0], Act.lockRow 1, Act.decide 1, Act.write 1 1, Act.look 1 true, Act.finish 1]

theorem lost_answer_posted_once :
    Along (step none) InTime (empty 0) sentAgain ∧ Along (step none) Remembered (empty 0) sentAgain ∧
      Always (step none) (fun s => s.posts.Nodup) (empty 0) sentAgain := by
  have htime : Along (step none) InTime (empty 0) sentAgain := inTime_of_still (by decide) rfl
  have h : Along (step none) Remembered (empty 0) sentAgain := by
    refine ⟨trivial, trivial, trivial, ?_, trivial, trivial, trivial, trivial, trivial, trivial, ?_, trivial, trivial,
      trivial⟩
    · intro c hi
      cases hi
      intro k r hk
      cases hk
    · intro c hi
      cases hi
      intro key hkey hne
      cases hkey
      exact absurd rfl hne
  exact ⟨htime, h, one_post_per_revision none 0 sentAgain htime h⟩

/-- The post of a revision takes effect and its request hears an error; the next revision reuses the failed row; the
text goes back to the first revision. -/
theorem posted_twice : ¬ ∀ acts : List Act, Along (step none) InTime (empty 0) acts →
      Always (step none) (fun s => s.posts.Nodup) (empty 0) acts := by
  intro h
  have htime : Along (step none) InTime (empty 0)
      (published 0 ⟨1, 0⟩ [] false ++ published 1 ⟨1, 1⟩ [0] true ++ published 2 ⟨1, 0⟩ [0] true) :=
    inTime_of_still (by decide) rfl
  have hlast := (h _ htime).run
  revert hlast
  decide

end CisApp.Publish
