import CisApp.Gateway.Health
import CisApp.Lib.Window

/-!
# Token-per-minute windows

`shared/llm_client/capacity.py`: before a provider call `reserve` books the
request's tokens in the rolling 60 s window of every limit row that covers the
deployment, and waits while they do not fit.  Everything between two waits runs
under one lock, so a step is one pass of the loop (`attempt`): it purges the
covering windows, then books the tokens in all of them, raises, or waits.

The limit rows are fixed.  `added` records every booking with the call that made
it and `ended` every call that returned or raised; no definition of the code
reads them.  `windows_sound` says of every reachable state what the windows were
set up for: within the limit, within the share of the line, and no booking of a
call that raised.
-/

namespace CisApp.Gateway

open List

inductive Line where
  | prod
  | bulk
  | dev
deriving Repr, DecidableEq

def windowS : Int := 60

def waitS : Line → Int
  | .prod => 65
  | .bulk => 180
  | .dev => 65

/-- The columns of `shared.llm_capacity_limit` beside its key. -/
structure Limit where
  tpmLimit : Option Nat
  bulkPct : Nat := 50
  devPct : Option Nat := none

/-- The tokens `line` may hold in one window, `none` for the whole limit. -/
def Limit.share (l : Limit) (line : Line) : Option Nat :=
  match l.tpmLimit with
  | none => none
  | some 0 => none
  | some tpm =>
    let pct := match line with
      | .bulk => some l.bulkPct
      | .dev => l.devPct
      | .prod => none
    pct.map fun p => max (tpm * p / 100) 1

structure Reservation where
  time : Int
  tokens : Nat
  line : Line
deriving Repr, DecidableEq

structure TpmWindow where
  held : List Reservation
  waiting : Line → Nat

def used (l : List Reservation) : Nat := (l.map fun r => r.tokens).sum

def ofLine (line : Line) (l : List Reservation) : List Reservation :=
  l.filter fun r => decide (r.line = line)

def TpmWindow.purge (now : Int) (w : TpmWindow) : TpmWindow :=
  { w with held := Window.purge Reservation.time (secs windowS) now w.held }

def TpmWindow.add (r : Reservation) (w : TpmWindow) : TpmWindow := { w with held := w.held ++ [r] }

/-- One more (or less) call of the line is waiting. -/
def TpmWindow.enter (line : Line) (w : TpmWindow) : TpmWindow :=
  { w with waiting := Function.update w.waiting line (w.waiting line + 1) }

def TpmWindow.leave (line : Line) (w : TpmWindow) : TpmWindow :=
  { w with waiting := Function.update w.waiting line (w.waiting line - 1) }

/-- The share of the line is taken. -/
def shareBlocked (l : Limit) (w : TpmWindow) (tokens : Nat) (line : Line) : Bool :=
  match l.share line with
  | none => false
  | some share =>
    decide (0 < used (ofLine line w.held) ∧ share < used (ofLine line w.held) + tokens)

/-- Whether `tokens` of `line` must wait at a purged window. -/
def blocked (l : Limit) (w : TpmWindow) (tokens : Nat) (line : Line) : Bool :=
  (!w.held.isEmpty && decide (l.tpmLimit.getD 0 < used w.held + tokens)) ||
    shareBlocked l w tokens line ||
    decide (line ≠ .prod ∧ w.waiting .prod ≠ 0)

abbrev Limits := Table Key Limit

/-- The rows with a token limit that cover a call on (connection, model). -/
def covering (rows : Limits) (connectionKey modelKey : String) : List (Key × Limit) :=
  rows.rows.filter fun x => decide (x.2.tpmLimit ≠ none ∧ x.2.tpmLimit ≠ some 0 ∧
    x.1.connectionKey = connectionKey ∧ (x.1.modelKey = "*" ∨ x.1.modelKey = modelKey))

/-- One call of `reserve` that books something. -/
structure Reserve where
  call : Nat
  connectionKey : String
  modelKey : String
  tokens : Nat
  line : Line
  deadline : Int

structure Ended where
  reserve : Reserve
  /-- It raised `TokenLimitSaturated`. -/
  saturated : Bool

structure Tpm where
  now : Int
  windows : Key → TpmWindow
  waiters : List Reserve
  added : Key → List (Nat × Reservation)
  ended : List Ended

/-- `for w in windows: …`. -/
def forEach (cov : List (Key × Limit)) (f : TpmWindow → TpmWindow) (ws : Key → TpmWindow) :
    Key → TpmWindow :=
  cov.foldl (fun ws x => Function.update ws x.1 (f (ws x.1))) ws

/-- The booking is entered in the log of each covering window. -/
def logged (cov : List (Key × Limit)) (call : Nat) (r : Reservation)
    (added : Key → List (Nat × Reservation)) : Key → List (Nat × Reservation) :=
  fun k => if k ∈ cov.map Prod.fst then added k ++ [(call, r)] else added k

def Reserve.covering (rows : Limits) (v : Reserve) : List (Key × Limit) :=
  Gateway.covering rows v.connectionKey v.modelKey

def purged (rows : Limits) (s : Tpm) (v : Reserve) : Key → TpmWindow :=
  forEach (v.covering rows) (TpmWindow.purge s.now) s.windows

/-- The tokens fit in every covering window. -/
def fits (rows : Limits) (s : Tpm) (v : Reserve) : Bool :=
  (v.covering rows).all fun x => !blocked x.2 (purged rows s v x.1) v.tokens v.line

/-- One pass of the loop in `reserve`, by a call that is counted as waiting.  How
long it then sleeps says only when it wakes up. -/
def attempt (rows : Limits) (s : Tpm) (v : Reserve) : Tpm :=
  let cov := v.covering rows
  let ws := purged rows s v
  let r : Reservation := ⟨s.now, v.tokens, v.line⟩
  if fits rows s v then
    { s with
      windows := forEach cov (TpmWindow.leave v.line) (forEach cov (TpmWindow.add r) ws)
      added := logged cov v.call r s.added
      ended := ⟨v, false⟩ :: s.ended }
  else if v.deadline ≤ s.now then
    { s with
      windows := forEach cov (TpmWindow.leave v.line) ws
      ended := ⟨v, true⟩ :: s.ended }
  else { s with windows := ws, waiters := v :: s.waiters }

inductive TpmOp where
  | tick (d : Nat)
  /-- A call enters `reserve`; `started` is when it read the clock before the lock. -/
  | reserve (call : Nat) (connectionKey modelKey : String) (tokens : Nat) (line : Line) (started : Int)
  | wake (i : Nat)

def Tpm.names (s : Tpm) : List Nat :=
  s.waiters.map (fun v => v.call) ++ s.ended.map fun e => e.reserve.call

def tpmStep (rows : Limits) (s : Tpm) : TpmOp → Tpm
  | .tick d => { s with now := s.now + d }
  | .reserve call connectionKey modelKey tokens line started =>
    let v : Reserve := ⟨call, connectionKey, modelKey, tokens, line, started + secs (waitS line)⟩
    let cov := v.covering rows
    if call ∈ s.names then s
    else if tokens = 0 ∨ cov = [] then { s with ended := ⟨v, false⟩ :: s.ended }
    else attempt rows { s with windows := forEach cov (TpmWindow.enter line) s.windows } v
  | .wake i =>
    match s.waiters[i]? with
    | none => s
    | some v => attempt rows { s with waiters := s.waiters.eraseIdx i } v

def Tpm.init (now : Int) : Tpm := ⟨now, fun _ => ⟨[], fun _ => 0⟩, [], fun _ => [], []⟩

/-! ## What a pass does to one window -/

/-- The limit row of `k` covers the call. -/
def Reserve.Covers (rows : Limits) (v : Reserve) (k : Key) : Prop := k ∈ (v.covering rows).map Prod.fst

instance (rows : Limits) (v : Reserve) (k : Key) : Decidable (v.Covers rows k) :=
  inferInstanceAs (Decidable (k ∈ (v.covering rows).map Prod.fst))

theorem covering_nodup (rows : Limits) (v : Reserve) : ((v.covering rows).map Prod.fst).Nodup :=
  rows.nodup.sublist (filter_sublist.map _)

theorem mem_covering {rows : Limits} {v : Reserve} {x : Key × Limit} (h : x ∈ v.covering rows) :
    rows.get? x.1 = some x.2 :=
  (rows.get?_eq_some_iff x.1 x.2).2 (mem_filter.1 h).1

theorem forEach_apply {cov : List (Key × Limit)} (h : (cov.map Prod.fst).Nodup)
    (f : TpmWindow → TpmWindow) (ws : Key → TpmWindow) (k : Key) :
    forEach cov f ws k = if k ∈ cov.map Prod.fst then f (ws k) else ws k := by
  induction cov generalizing ws with
  | nil => rfl
  | cons x cov ih =>
    obtain ⟨hx, hcov⟩ := nodup_cons.1 h
    show forEach cov f (Function.update ws x.1 (f (ws x.1))) k = _
    rw [ih hcov]
    by_cases hk : k = x.1
    · subst hk
      rw [if_neg hx, map_cons, if_pos mem_cons_self, Function.update_self]
    · rw [Function.update_of_ne hk]
      simp only [map_cons, mem_cons, hk, false_or]

variable {rows : Limits} {s : Tpm} {v : Reserve}

theorem forEach_covering (f : TpmWindow → TpmWindow) (ws : Key → TpmWindow) (k : Key) :
    forEach (v.covering rows) f ws k = if v.Covers rows k then f (ws k) else ws k :=
  forEach_apply (covering_nodup rows v) f ws k

def ends (rows : Limits) (s : Tpm) (v : Reserve) : Bool :=
  fits rows s v || decide (v.deadline ≤ s.now)

theorem attempt_now : (attempt rows s v).now = s.now := by
  unfold attempt
  split
  · rfl
  · split <;> rfl

theorem attempt_waiters : (attempt rows s v).waiters = if ends rows s v then s.waiters else v :: s.waiters := by
  unfold attempt ends
  by_cases hf : fits rows s v = true
  · simp [hf]
  · by_cases hd : v.deadline ≤ s.now <;> simp [hf, hd]

theorem attempt_ended : (attempt rows s v).ended = if ends rows s v then ⟨v, !fits rows s v⟩ :: s.ended else s.ended := by
  unfold attempt ends
  by_cases hf : fits rows s v = true
  · simp [hf]
  · by_cases hd : v.deadline ≤ s.now <;> simp [hf, hd]

theorem attempt_added (k : Key) : (attempt rows s v).added k = if fits rows s v = true ∧ v.Covers rows k then
        s.added k ++ [(v.call, ⟨s.now, v.tokens, v.line⟩)] else s.added k := by
  unfold attempt
  by_cases hf : fits rows s v = true
  · simp only [hf, true_and]
    rfl
  · have hno : ¬ (fits rows s v = true ∧ v.Covers rows k) := fun h => hf h.1
    rw [if_neg hf, if_neg hno]
    split <;> rfl

theorem attempt_held (rows : Limits) (s : Tpm) (v : Reserve) (k : Key) : ((attempt rows s v).windows k).held =
      if v.Covers rows k then Window.purge Reservation.time (secs windowS) s.now (s.windows k).held ++
          if fits rows s v then [⟨s.now, v.tokens, v.line⟩] else [] else (s.windows k).held := by
  unfold attempt
  by_cases hf : fits rows s v = true
  · simp only [if_pos hf, purged, forEach_covering]
    split <;> rfl
  · simp only [if_neg hf, append_nil]
    split
    · simp only [purged, forEach_covering]
      split <;> rfl
    · simp only [purged, forEach_covering]
      split <;> rfl

theorem attempt_waiting (k : Key) (line : Line) : ((attempt rows s v).windows k).waiting line =
      if ends rows s v = true ∧ v.Covers rows k ∧ line = v.line then (s.windows k).waiting line - 1
      else (s.windows k).waiting line := by
  have hleave : ∀ w : TpmWindow, (TpmWindow.leave v.line w).waiting line =
      if line = v.line then w.waiting line - 1 else w.waiting line := by
    intro w
    show Function.update w.waiting v.line (w.waiting v.line - 1) line = _
    rw [Function.update_apply]
    split
    · next h => rw [h]
    · rfl
  have hpurge : (purged rows s v k).waiting line = (s.windows k).waiting line := by
    unfold purged
    rw [forEach_covering]
    split <;> rfl
  by_cases hf : fits rows s v = true
  · have he : ends rows s v = true := by simp [ends, hf]
    unfold attempt
    simp only [if_pos hf, he, true_and, forEach_covering]
    by_cases hc : v.Covers rows k
    · simp only [hc, if_true, hleave, true_and, ← hpurge]
      rfl
    · simp only [hc, false_and, if_false]
      exact hpurge
  · by_cases hd : v.deadline ≤ s.now
    · have he : ends rows s v = true := by simp [ends, hd]
      unfold attempt
      simp only [if_neg hf, if_pos hd, he, true_and, forEach_covering]
      by_cases hc : v.Covers rows k
      · simp only [hc, if_true, hleave, true_and, ← hpurge]
      · simp only [hc, false_and, if_false]
        exact hpurge
    · have he : ends rows s v = false := by simp [ends, hf, hd]
      unfold attempt
      simp only [if_neg hf, if_neg hd, he, Bool.false_eq_true, false_and, if_false]
      exact hpurge

/-! ## The limit and the shares -/

/-- The bookings in the log of the window, all there ever were. -/
def Tpm.log (s : Tpm) (k : Key) : List Reservation := (s.added k).map Prod.snd

/-- The bookings of the last 60 s. -/
def Tpm.recent (s : Tpm) (k : Key) : List Reservation :=
  Window.recent Reservation.time (secs windowS) s.now (s.log k)

/-- The bookings sum to at most the limit or are a single one, and so do those of
each line with a share. -/
structure InLimit (l : Limit) (bookings : List Reservation) : Prop where
  total : ∀ tpm, l.tpmLimit = some tpm → used bookings ≤ tpm ∨ bookings.length ≤ 1
  share : ∀ line share, l.share line = some share →
    used (ofLine line bookings) ≤ share ∨ (ofLine line bookings).length ≤ 1

variable {a : List Reservation}

theorem used_sublist {b : List Reservation} (h : a.Sublist b) : used a ≤ used b :=
  List.Sublist.sum_le_sum (h.map _) fun _ _ => Nat.zero_le _

theorem used_append (a b : List Reservation) : used (a ++ b) = used a + used b := by
  simp [used]

theorem InLimit.sublist {l : Limit} {b : List Reservation} (h : a.Sublist b) (hb : InLimit l b) : InLimit l a := by
  constructor
  · intro tpm htpm
    exact (hb.total tpm htpm).imp (le_trans (used_sublist h)) (le_trans h.length_le)
  · intro line share hshare
    have hl : (ofLine line a).Sublist (ofLine line b) := h.filter _
    exact (hb.share line share hshare).imp (le_trans (used_sublist hl)) (le_trans hl.length_le)

theorem ofLine_append (line : Line) (a b : List Reservation) : ofLine line (a ++ b) = ofLine line a ++ ofLine line b := filter_append ..

theorem ofLine_eq_nil {line : Line} (hpos : ∀ r ∈ a, 0 < r.tokens)
    (h : ¬ 0 < used (ofLine line a)) : ofLine line a = [] := by
  rw [eq_nil_iff_forall_not_mem]
  intro r hr
  have hle : r.tokens ≤ used (ofLine line a) :=
    single_le_sum (fun _ _ => Nat.zero_le _) _ (mem_map.2 ⟨r, hr, rfl⟩)
  have := hpos r (mem_filter.1 hr).1
  omega

theorem InLimit.add {l : Limit} {w : TpmWindow} {now : Int} {tokens : Nat} {line : Line}
    (h : InLimit l w.held) (hpos : ∀ r ∈ w.held, 0 < r.tokens)
    (hfree : blocked l w tokens line = false) : InLimit l (w.held ++ [⟨now, tokens, line⟩]) := by
  simp only [blocked, Bool.or_eq_false_iff, Bool.and_eq_false_iff] at hfree
  obtain ⟨⟨htotal, hshare⟩, -⟩ := hfree
  constructor
  · intro tpm htpm
    rcases htotal with hempty | hroom
    · have : w.held = [] := by simpa using hempty
      exact Or.inr (by simp [this])
    · left
      rw [htpm] at hroom
      simp only [Option.getD_some, decide_eq_false_iff_not, Nat.not_lt] at hroom
      simpa [used] using hroom
  · intro line' share hs
    rw [ofLine_append]
    by_cases hl : line' = line
    · subst hl
      have hone : ofLine line' [⟨now, tokens, line'⟩] = [⟨now, tokens, line'⟩] := by simp [ofLine]
      rw [hone]
      unfold shareBlocked at hshare
      rw [hs] at hshare
      simp only [decide_eq_false_iff_not, not_and, Nat.not_lt] at hshare
      by_cases hmine : 0 < used (ofLine line' w.held)
      · left
        simpa [used] using hshare hmine
      · right
        simp [ofLine_eq_nil hpos hmine]
    · have hnone : ofLine line' [⟨now, tokens, line⟩] = [] := by simp [ofLine, Ne.symm hl]
      rw [hnone, append_nil]
      exact h.share line' share hs

structure WindowInv (rows : Limits) (s : Tpm) (k : Key) : Prop where
  holds : Window.Holds Reservation.time (secs windowS) s.now (s.log k) (s.windows k).held
  ordered : Window.Ordered Reservation.time s.now (s.log k)
  positive : ∀ r ∈ s.log k, 0 < r.tokens
  within : ∀ l, rows.get? k = some l → InLimit l (s.recent k)

variable {k : Key}

theorem WindowInv.congr {s' : Tpm} (h : WindowInv rows s k) (hnow : s'.now = s.now)
    (hheld : (s'.windows k).held = (s.windows k).held) (hadded : s'.added k = s.added k) : WindowInv rows s' k := by
  have hlog : s'.log k = s.log k := congrArg _ hadded
  refine ⟨?_, ?_, ?_, ?_⟩
  · rw [hnow, hheld, hlog]
    exact h.holds
  · rw [hnow, hlog]
    exact h.ordered
  · rw [hlog]
    exact h.positive
  · unfold Tpm.recent
    rw [hnow, hlog]
    exact h.within

theorem WindowInv.tick (h : WindowInv rows s k) (d : Nat) :
    WindowInv rows { s with now := s.now + d } k := by
  have hle : s.now ≤ s.now + d := by omega
  refine ⟨h.holds.later hle, h.ordered.later hle, h.positive, fun l hl => ?_⟩
  exact (h.within l hl).sublist (Window.recent_later hle)

theorem WindowInv.attempt (h : WindowInv rows s k) (htok : v.tokens ≠ 0) : WindowInv rows (attempt rows s v) k := by
  have hpurge := h.holds.purge
  have hrecent : Window.purge Reservation.time (secs windowS) s.now (s.windows k).held = s.recent k :=
    h.holds.purge_eq h.ordered
  by_cases hadd : fits rows s v = true ∧ v.Covers rows k
  · obtain ⟨hf, hc⟩ := hadd
    have hlog : (Gateway.attempt rows s v).log k =
        s.log k ++ [⟨s.now, v.tokens, v.line⟩] := by
      unfold Tpm.log
      rw [attempt_added, if_pos ⟨hf, hc⟩, map_append]
      rfl
    have hheld := attempt_held rows s v k
    rw [if_pos hc, if_pos hf] at hheld
    refine ⟨?_, ?_, ?_, ?_⟩
    · rw [attempt_now, hlog, hheld]
      exact hpurge.append _
    · rw [attempt_now, hlog]
      exact h.ordered.append rfl
    · rw [hlog]
      intro r hr
      rcases mem_append.1 hr with hr | hr
      · exact h.positive r hr
      · rw [mem_singleton.1 hr]
        exact Nat.pos_of_ne_zero htok
    · intro l hl
      -- the row that covers the call is the row of this window
      obtain ⟨x, hx, rfl⟩ := mem_map.1 hc
      obtain rfl : x.2 = l := Option.some.inj ((mem_covering hx).symm.trans hl)
      have hfree : blocked x.2 (purged rows s v x.1) v.tokens v.line = false := by
        simpa using List.all_eq_true.1 hf x hx
      have hw : (purged rows s v x.1).held = s.recent x.1 := by
        unfold purged
        rw [forEach_covering, if_pos hc, ← hrecent]
        rfl
      have hnew : (Gateway.attempt rows s v).recent x.1 =
          (purged rows s v x.1).held ++ [⟨s.now, v.tokens, v.line⟩] := by
        unfold Tpm.recent
        rw [attempt_now, hlog, Window.recent_append, hw]
        exact congrArg (s.recent x.1 ++ ·) (Window.recent_now rfl (by decide))
      rw [hnew]
      refine InLimit.add ?_ ?_ hfree
      · rw [hw]
        exact h.within x.2 hl
      · rw [hw]
        exact fun r hr => h.positive r (Window.mem_recent.1 hr).1
  · have hlog : (Gateway.attempt rows s v).log k = s.log k := by
      unfold Tpm.log
      rw [attempt_added, if_neg hadd]
    have hheld := attempt_held rows s v k
    refine ⟨?_, ?_, ?_, ?_⟩
    · rw [attempt_now, hlog, hheld]
      by_cases hc : v.Covers rows k
      · have hf : ¬ fits rows s v = true := fun hf => hadd ⟨hf, hc⟩
        rw [if_pos hc, if_neg hf, append_nil]
        exact hpurge
      · rw [if_neg hc]
        exact h.holds
    · rw [attempt_now, hlog]
      exact h.ordered
    · rw [hlog]
      exact h.positive
    · unfold Tpm.recent
      rw [attempt_now, hlog]
      exact h.within

/-! ## The calls that wait -/

/-- Each window counts the calls that wait on it, by line. -/
def Counted (rows : Limits) (windows : Key → TpmWindow) (waiters : List Reserve) : Prop :=
  ∀ k line, (windows k).waiting line =
    waiters.countP fun v => decide (v.line = line ∧ v.Covers rows k)

theorem Counted.perm {windows : Key → TpmWindow} {a b : List Reserve} (hp : a.Perm b)
    (h : Counted rows windows a) : Counted rows windows b :=
  fun k line => (h k line).trans (hp.countP_eq _)

theorem Counted.enter {windows : Key → TpmWindow} {waiters : List Reserve}
    (h : Counted rows windows waiters) (v : Reserve) :
    Counted rows (forEach (v.covering rows) (TpmWindow.enter v.line) windows) (v :: waiters) := by
  intro k line
  rw [forEach_covering, countP_cons, ← h k line]
  by_cases hc : v.Covers rows k
  · rw [if_pos hc]
    show Function.update (windows k).waiting v.line ((windows k).waiting v.line + 1) line = _
    by_cases hl : line = v.line
    · subst hl
      simp [hc]
    · simp [hl, Ne.symm hl]
  · simp [hc]

theorem Counted.attempt (h : Counted rows s.windows (v :: s.waiters)) :
    Counted rows (attempt rows s v).windows (attempt rows s v).waiters := by
  intro k line
  have hk := h k line
  rw [attempt_waiting, attempt_waiters]
  by_cases he : ends rows s v = true
  · simp only [he, true_and]
    rw [countP_cons] at hk
    by_cases hc : v.Covers rows k ∧ line = v.line
    · simp only [hc, and_self, decide_true, if_true] at hk ⊢
      omega
    · have hno : ¬ (v.line = line ∧ v.Covers rows k) := fun hh => hc ⟨hh.2, hh.1.symm⟩
      rw [if_neg hc]
      simpa [hno] using hk
  · rw [if_neg he, if_neg fun hh => he hh.1]
    exact hk

theorem prodFree_of_fits (h : Counted rows s.windows (v :: s.waiters)) (hf : fits rows s v = true)
    (hc : v.Covers rows k) (hline : v.line ≠ .prod) {w : Reserve}
    (hw : w ∈ s.waiters) (hprod : w.line = .prod) : ¬ w.Covers rows k := by
  intro hwc
  obtain ⟨x, hx, rfl⟩ := mem_map.1 hc
  have hfree : blocked x.2 (purged rows s v x.1) v.tokens v.line = false := by
    simpa using List.all_eq_true.1 hf x hx
  simp only [blocked, Bool.or_eq_false_iff, decide_eq_false_iff_not, not_and, not_not] at hfree
  have hzero := hfree.2 hline
  have hpurge : (purged rows s v x.1).waiting .prod = (s.windows x.1).waiting .prod := by
    unfold purged
    rw [forEach_covering]
    split <;> rfl
  rw [hpurge, h x.1 .prod, countP_eq_zero] at hzero
  exact hzero w (mem_cons_of_mem _ hw) (by simp [hprod, hwc])

/-! ## What a call booked -/

/-- The bookings of one call in one window. -/
def Tpm.addedBy (s : Tpm) (k : Key) (call : Nat) : List (Nat × Reservation) :=
  (s.added k).filter fun e => decide (e.1 = call)

/-- A call that returned booked its tokens once in every covering window and in no
other; one that raised booked nothing. -/
def Settled (rows : Limits) (s : Tpm) (e : Ended) (k : Key) : Prop :=
  if e.saturated = false ∧ e.reserve.tokens ≠ 0 ∧ e.reserve.Covers rows k then
    ∃ t, s.addedBy k e.reserve.call =
      [(e.reserve.call, ⟨t, e.reserve.tokens, e.reserve.line⟩)]
  else s.addedBy k e.reserve.call = []

structure Ledger (rows : Limits) (s : Tpm) : Prop where
  nodup : s.names.Nodup
  ended : ∀ e ∈ s.ended, ∀ k, Settled rows s e k
  others : ∀ call, call ∉ s.ended.map (fun e => e.reserve.call) → ∀ k, s.addedBy k call = []

theorem Settled.congr {s s' : Tpm} {e : Ended}
    (heq : s'.addedBy k e.reserve.call = s.addedBy k e.reserve.call) (h : Settled rows s e k) : Settled rows s' e k := by
  unfold Settled at h ⊢
  rwa [heq]

theorem addedBy_attempt (k : Key) (call : Nat) : (attempt rows s v).addedBy k call =
      if call = v.call ∧ fits rows s v = true ∧ v.Covers rows k then
        s.addedBy k call ++ [(v.call, ⟨s.now, v.tokens, v.line⟩)] else s.addedBy k call := by
  unfold Tpm.addedBy
  rw [attempt_added]
  by_cases ha : fits rows s v = true ∧ v.Covers rows k
  · rw [if_pos ha, filter_append]
    by_cases hcall : call = v.call
    · rw [if_pos ⟨hcall, ha⟩]
      simp [hcall]
    · rw [if_neg fun h => hcall h.1]
      simp [Ne.symm hcall]
  · rw [if_neg ha, if_neg fun h => ha h.2]

theorem names_attempt : (attempt rows s v).names.Perm (v.call :: s.names) := by
  unfold Tpm.names
  rw [attempt_waiters, attempt_ended]
  by_cases he : ends rows s v = true
  · rw [if_pos he, if_pos he]
    exact perm_middle
  · rw [if_neg he, if_neg he]
    rfl

theorem Ledger.attempt (h : Ledger rows s) (hnew : v.call ∉ s.names) (htok : v.tokens ≠ 0) :
    Ledger rows (attempt rows s v) := by
  have hended : v.call ∉ s.ended.map fun e => e.reserve.call := fun hm =>
    hnew (mem_append_right _ hm)
  have hother : ∀ call, call ≠ v.call → ∀ k,
      (Gateway.attempt rows s v).addedBy k call = s.addedBy k call := by
    intro call hcall k
    rw [addedBy_attempt, if_neg fun hh => hcall hh.1]
  have hold : ∀ e ∈ s.ended, ∀ k, Settled rows (Gateway.attempt rows s v) e k := by
    intro e he k
    refine (h.ended e he k).congr (hother _ ?_ k)
    rintro heq
    exact hended (mem_map.2 ⟨e, he, heq⟩)
  refine ⟨names_attempt.nodup_iff.2 (nodup_cons.2 ⟨hnew, h.nodup⟩), ?_, ?_⟩
  · rw [attempt_ended]
    split
    · intro e he k
      rcases mem_cons.1 he with rfl | he
      · -- the call that ends now had booked nothing before
        have hnone := h.others v.call hended k
        unfold Settled
        rw [addedBy_attempt, hnone]
        by_cases hf : fits rows s v = true
        · by_cases hc : v.Covers rows k
          · rw [if_pos ⟨by simp [hf], htok, hc⟩, if_pos ⟨rfl, hf, hc⟩]
            exact ⟨s.now, rfl⟩
          · rw [if_neg fun hh => hc hh.2.2, if_neg fun hh => hc hh.2.2]
        · rw [if_neg fun hh => hf (by simpa using hh.1), if_neg fun hh => hf hh.2.1]
      · exact hold e he k
    · exact hold
  · intro call hcall k
    rw [attempt_ended] at hcall
    by_cases he : ends rows s v = true
    · rw [if_pos he, map_cons, mem_cons, not_or] at hcall
      rw [hother call hcall.1 k]
      exact h.others call hcall.2 k
    · rw [if_neg he] at hcall
      have hf : ¬ fits rows s v = true := fun hf => he (by simp [ends, hf])
      rw [addedBy_attempt, if_neg fun hh => hf hh.2.1]
      exact h.others call hcall k

/-! ## Whole runs -/

structure TpmInv (rows : Limits) (s : Tpm) : Prop where
  window : ∀ k, WindowInv rows s k
  counted : Counted rows s.windows s.waiters
  ledger : Ledger rows s
  tokens : ∀ v ∈ s.waiters, v.tokens ≠ 0

theorem tpmInv_init (rows : Limits) (now : Int) : TpmInv rows (Tpm.init now) := by
  refine ⟨fun k => ⟨Window.Holds.refl, ⟨List.Pairwise.nil, ?_⟩, ?_, ?_⟩, fun _ _ => rfl,
    ⟨nodup_nil, ?_, fun _ _ _ => rfl⟩, ?_⟩
  · exact nofun
  · exact nofun
  · exact fun l _ => ⟨fun _ _ => Or.inr (Nat.zero_le _), fun _ _ _ => Or.inr (Nat.zero_le _)⟩
  · exact nofun
  · exact nofun

theorem tpmInv_attempt (hw : ∀ k, WindowInv rows s k)
    (hc : Counted rows s.windows (v :: s.waiters)) (hl : Ledger rows s)
    (ht : ∀ v ∈ s.waiters, v.tokens ≠ 0) (hnew : v.call ∉ s.names) (htok : v.tokens ≠ 0) :
    TpmInv rows (attempt rows s v) := by
  refine ⟨fun k => (hw k).attempt htok, hc.attempt, hl.attempt hnew htok, ?_⟩
  rw [attempt_waiters]
  split
  · exact ht
  · intro w hw
    rcases mem_cons.1 hw with rfl | hw
    · exact htok
    · exact ht w hw

theorem WindowInv.enter (h : WindowInv rows s k) (v : Reserve) :
    WindowInv rows
      { s with windows := forEach (v.covering rows) (TpmWindow.enter v.line) s.windows } k := by
  refine h.congr rfl ?_ rfl
  dsimp only
  rw [forEach_covering]
  split <;> rfl

theorem waiters_perm {waiters : List Reserve} {i : Nat} (hi : waiters[i]? = some v) :
    waiters.Perm (v :: waiters.eraseIdx i) := by
  obtain ⟨hlt, rfl⟩ := List.getElem?_eq_some_iff.1 hi
  exact (getElem_cons_eraseIdx_perm hlt).symm

theorem Ledger.erase {i : Nat} (h : Ledger rows s) (hi : s.waiters[i]? = some v) :
    Ledger rows { s with waiters := s.waiters.eraseIdx i } ∧
      v.call ∉ Tpm.names { s with waiters := s.waiters.eraseIdx i } := by
  have hp : s.names.Perm (v.call :: Tpm.names { s with waiters := s.waiters.eraseIdx i }) :=
    ((waiters_perm hi).map _).append_right _
  obtain ⟨hnew, hnodup⟩ := nodup_cons.1 (hp.nodup_iff.1 h.nodup)
  exact ⟨⟨hnodup, h.ended, h.others⟩, hnew⟩

theorem tpmInv_step (rows : Limits) (s : Tpm) (op : TpmOp) (h : TpmInv rows s) : TpmInv rows (tpmStep rows s op) := by
  cases op with
  | tick d =>
    exact ⟨fun k => (h.window k).tick d, h.counted, ⟨h.ledger.nodup, h.ledger.ended, h.ledger.others⟩, h.tokens⟩
  | reserve call connectionKey modelKey tokens line started =>
    unfold tpmStep
    dsimp only
    split
    · exact h
    · next hnew =>
      split
      · -- nothing to book
        next hno =>
        refine ⟨fun k => (h.window k).congr rfl rfl rfl, h.counted, ⟨?_, ?_, ?_⟩, h.tokens⟩
        · exact perm_middle.nodup_iff.2 (nodup_cons.2 ⟨hnew, h.ledger.nodup⟩)
        · intro e he k
          rcases mem_cons.1 he with rfl | he
          · have hnone := h.ledger.others call (fun hm => hnew (mem_append_right _ hm)) k
            unfold Settled
            rw [if_neg]
            · exact hnone
            · rintro ⟨-, htok, hcov⟩
              rcases hno with hno | hno
              · exact htok hno
              · unfold Reserve.Covers at hcov
                rw [hno] at hcov
                cases hcov
          · exact h.ledger.ended e he k
        · intro call' hcall k
          exact h.ledger.others call' (fun hm => hcall (mem_cons_of_mem _ hm)) k
      · next hbook =>
        push Not at hbook
        exact tpmInv_attempt (fun k => (h.window k).enter _) (h.counted.enter _)
          ⟨h.ledger.nodup, h.ledger.ended, h.ledger.others⟩ h.tokens hnew hbook.1
  | wake i =>
    unfold tpmStep
    dsimp only
    cases hi : s.waiters[i]? with
    | none => exact h
    | some v =>
      obtain ⟨hledger, hnew⟩ := h.ledger.erase hi
      refine tpmInv_attempt (fun k => (h.window k).congr rfl rfl rfl)
        (h.counted.perm (waiters_perm hi)) hledger ?_ hnew (h.tokens v (mem_of_getElem? hi))
      exact fun w hw => h.tokens w (mem_of_mem_eraseIdx hw)

/-- A step that books for another line leaves no `prod` call waiting there. -/
def ProdFirst (rows : Limits) (s : Tpm) (op : TpmOp) : Prop :=
  ∀ k e, (tpmStep rows s op).added k = s.added k ++ [e] → e.2.line ≠ .prod →
    ∀ w ∈ s.waiters, w.line = .prod → ¬ w.Covers rows k

theorem booked_attempt {e : Nat × Reservation} (h : (attempt rows s v).added k = s.added k ++ [e]) :
    fits rows s v = true ∧ v.Covers rows k ∧ e.2.line = v.line := by
  rw [attempt_added] at h
  split at h
  · next hadd =>
    obtain rfl : (v.call, (⟨s.now, v.tokens, v.line⟩ : Reservation)) = e := by simpa using h
    exact ⟨hadd.1, hadd.2, rfl⟩
  · simp at h

theorem prodFirst_of_inv (rows : Limits) (s : Tpm) (op : TpmOp) (h : TpmInv rows s) : ProdFirst rows s op := by
  intro k e he hline w hw hprod
  cases op with
  | tick d => simp [tpmStep] at he
  | reserve call connectionKey modelKey tokens line started =>
    unfold tpmStep at he
    dsimp only at he
    split at he
    · simp at he
    · split at he
      · simp at he
      · obtain ⟨hf, hc, hl⟩ := booked_attempt he
        exact prodFree_of_fits (h.counted.enter _) hf hc (hl ▸ hline) hw hprod
  | wake i =>
    unfold tpmStep at he
    dsimp only at he
    cases hi : s.waiters[i]? with
    | none => simp [hi] at he
    | some v =>
      rw [hi] at he
      obtain ⟨hf, hc, hl⟩ := booked_attempt he
      -- the call that books is not the one that waits
      rcases mem_cons.1 ((waiters_perm hi).mem_iff.1 hw) with rfl | hw
      · exact absurd hprod (hl ▸ hline)
      · exact prodFree_of_fits (s := { s with waiters := s.waiters.eraseIdx i })
          (h.counted.perm (waiters_perm hi)) hf hc (hl ▸ hline) hw hprod

/-- **Token windows.**  In every reachable state the bookings of the last 60 s are
within the limit or a single one, for each line with a share as well; every call
that ended booked in all covering windows or in none; and no step books for
another line while a `prod` call waits on the window. -/
theorem windows_sound (rows : Limits) (now : Int) (ops : List TpmOp) : Always (tpmStep rows) (fun s =>
      (∀ k l, rows.get? k = some l → InLimit l (s.recent k)) ∧
      ∀ e ∈ s.ended, ∀ k, Settled rows s e k) (Tpm.init now) ops ∧
    Along (tpmStep rows) (ProdFirst rows) (Tpm.init now) ops := by
  have hinv : Always (tpmStep rows) (TpmInv rows) (Tpm.init now) ops :=
    always_of_step (tpmInv_step rows) ops (tpmInv_init rows now)
  constructor
  · exact hinv.mono fun s h => ⟨fun k => (h.window k).within, h.ledger.ended⟩
  · exact hinv.along fun s op h _ => prodFirst_of_inv rows s op h

end CisApp.Gateway
