import CisApp.Feed.Events

/-! One consumer of a feed (`list_events`), which passes each `next_cursor` back.

`Consumer k s` says where it stands at any moment: it has, in order, the committed events up to its cursor
`k`.  Nothing can still be committed there, since every open or later transaction has a `txid` above the
cursor's (`Consumer.ahead`).  Each call either brings a new event or finds none left below the horizon, so
the events below a horizon are all received after as many calls (`Consumer.reaches`). -/

namespace CisApp.Feed

open List

variable {β : Type}

/-! ## One page -/

/-- The events that a call may serve, in order. -/
def servable (events : List (Event β)) (horizon : Nat) (cursor : Nat × Nat) : List (Event β) :=
  (events.filter fun e => e.txid < horizon && Before cursor e.key).mergeSort fun a b => !Before b.key a.key

variable {e : Event β}

variable {events : List (Event β)}

theorem mem_servable {horizon : Nat} {cursor : Nat × Nat} :
    e ∈ servable events horizon cursor ↔ e ∈ events ∧ e.txid < horizon ∧ Before cursor e.key := by
  unfold servable
  rw [mem_mergeSort, mem_filter, Bool.and_eq_true, decide_eq_true_eq, decide_eq_true_eq]

theorem servable_sorted (hkeys : events.Pairwise fun a b => a.key ≠ b.key) (horizon : Nat) (cursor : Nat × Nat) :
    (servable events horizon cursor).Pairwise fun a b => Before a.key b.key := by
  have hsorted : (servable events horizon cursor).Pairwise fun a b => (!Before b.key a.key) = true := by
    refine pairwise_mergeSort (fun a b c hab hbc => ?_) (fun a b => ?_) _
    · simp only [Bool.not_eq_true', decide_eq_false_iff_not] at *
      exact not_before_trans hab hbc
    · rw [Bool.or_eq_true, Bool.not_eq_true', decide_eq_false_iff_not, Bool.not_eq_true', decide_eq_false_iff_not]
      by_contra hboth
      rw [not_or, not_not, not_not] at hboth
      exact not_before_self _ (hboth.1.trans hboth.2)
  have hne : (servable events horizon cursor).Pairwise fun a b => a.key ≠ b.key :=
    (hkeys.sublist filter_sublist).perm (mergeSort_perm _ _).symm fun h => h.symm
  refine (hsorted.and hne).imp fun h => ?_
  have hnot := h.1
  rw [Bool.not_eq_true', decide_eq_false_iff_not] at hnot
  rcases before_or_eq hnot with hlt | heq
  · exact hlt
  · exact absurd heq.symm h.2

def nextKey (k : Nat × Nat) (rows : List (Event β)) : Nat × Nat := (rows.getLast?.map Event.key).getD k

/-- What the consumer sends for the cursor `k`. -/
def Sent (k : Nat × Nat) (after : Option String) : Prop :=
  (k.1 ≤ maxTxid ∧ k.2 ≤ maxSeq) ∧ (after = none ∧ k = start ∨ after = some (encodeCursor k.1 k.2))

variable {k : Nat × Nat}

variable {after : Option String}

theorem Sent.decoded (h : Sent k after) : decodeCursor after = .ok k := by
  obtain ⟨⟨ht, hs⟩, ⟨rfl, rfl⟩ | rfl⟩ := h
  · rfl
  · exact decodeCursor_encodeCursor ht hs

theorem Sent.again (h : Sent k after) :
    (after.filter (· ≠ "")).getD (encodeCursor start.1 start.2) = encodeCursor k.1 k.2 := by
  obtain ⟨⟨ht, hs⟩, ⟨rfl, rfl⟩ | rfl⟩ := h
  · rfl
  · have hne := encodeCursor_ne_empty ht hs
    rw [Option.filter_some, if_pos (decide_eq_true hne)]
    rfl

variable {limit : Nat}

theorem listEvents_of_sent {horizon : Nat} (h : Sent k after) : listEvents events horizon after limit =
      .ok ⟨((servable events horizon k).take limit).map fun e => (e, encodeCursor e.txid e.seq),
        encodeCursor (nextKey k ((servable events horizon k).take limit)).1
          (nextKey k ((servable events horizon k).take limit)).2⟩ := by
  unfold listEvents
  rw [h.decoded]
  show Except.ok _ = Except.ok _
  congr 2
  have hpage : feedSql events horizon k limit = (servable events horizon k).take limit := rfl
  unfold nextKey
  rw [hpage, List.getLast?_map]
  cases hlast : ((servable events horizon k).take limit).getLast? with
  | none => exact h.again
  | some r => rfl

theorem page_bounds {rows : List (Event β)} (hsorted : rows.Pairwise fun a b => Before a.key b.key)
    {r : Event β} (hlast : (rows.take limit).getLast? = some r) :
    (∀ e ∈ rows.take limit, ¬Before r.key e.key) ∧ ∀ e ∈ rows.drop limit, Before r.key e.key := by
  have hmem : r ∈ rows.take limit := mem_of_getLast? hlast
  have hsplit : rows = rows.take limit ++ rows.drop limit := (take_append_drop limit rows).symm
  rw [hsplit] at hsorted
  obtain ⟨hpage, -, hcross⟩ := pairwise_append.1 hsorted
  refine ⟨fun e he => ?_, fun e he => hcross r hmem e he⟩
  obtain ⟨init, hinit⟩ := List.getLast?_eq_some_iff.1 hlast
  rw [hinit] at hpage he
  rcases mem_append.1 he with he | he
  · have := (pairwise_append.1 hpage).2.2 e he r (mem_singleton_self r)
    exact fun hback => not_before_self _ (hback.trans this)
  · rw [mem_singleton.1 he]
    exact not_before_self _

/-! ## Where the consumer stands -/

/-- The consumer has the committed events up to the cursor `k`, in order. -/
structure Consumer (k : Nat × Nat) (s : State β) : Prop where
  sent : Sent k s.after
  ahead : Ahead (k.1 + 1) s
  order : s.received.Pairwise fun a b => Before a.key b.key
  received : ∀ e, e ∈ s.received ↔ e ∈ s.events ∧ ¬Before k e.key
  issued : ∀ c ∈ s.issued, ∃ k', decodeCursor (some c) = .ok k' ∧ encodeCursor k'.1 k'.2 = c ∧ ¬Before k k'

theorem consumer_init : Consumer start (init : State β) := by
  refine ⟨⟨⟨Nat.zero_le _, Nat.zero_le _⟩, Or.inl ⟨rfl, rfl⟩⟩, ⟨?_, fun i w hw => ?_⟩, List.Pairwise.nil, ?_, ?_⟩
  · show 1 ≤ 3
    omega
  · cases hw
  · intro e
    exact ⟨(nomatch ·), fun he => nomatch he.1⟩
  · intro c hc
    cases hc

theorem txInv_init : TxInv (init : State β) := by
  refine ⟨?_, fun i w hw => ?_, fun i j w w' _ hw => ?_, fun e he => ?_, List.Pairwise.nil⟩
  · show 0 < 3
    omega
  · cases hw
  · cases hw
  · cases he

variable {s : State β}

theorem mem_events_run (he : e ∈ s.events) (more : List (Act β)) : e ∈ (run step s more).events := by
  induction more generalizing s with
  | nil => exact he
  | cons act more ih => exact ih (mem_events_step he)

theorem Consumer.step_of_same (h : Consumer k s) (hinv : TxInv s) {act : Act β}
    (hafter : (step s act).after = s.after) (hrec : (step s act).received = s.received)
    (hissued : (step s act).issued = s.issued) : Consumer k (step s act) := by
  refine ⟨hafter ▸ h.sent, h.ahead.step hinv act, hrec ▸ h.order, fun e => ?_, hissued ▸ h.issued⟩
  rw [hrec, h.received e]
  constructor
  · exact fun he => ⟨mem_events_step he.1, he.2⟩
  · intro he
    rcases events_of_ahead h.ahead hinv he.1 with hold | hnew
    · exact ⟨hold, he.2⟩
    · refine absurd (Or.inl ?_) he.2
      show k.1 < e.txid
      omega

def State.served (s : State β) (k : Nat × Nat) (limit : Nat) : List (Event β) :=
  (servable s.events s.horizon k).take limit

theorem step_list (h : Sent k s.after)
    (hlimit : 1 ≤ limit ∧ limit ≤ maxLimit) :
    step s (.list limit) =
      { s with
        after := some (encodeCursor (nextKey k (s.served k limit)).1 (nextKey k (s.served k limit)).2)
        received := s.received ++ s.served k limit
        issued := s.issued ++ (s.served k limit).map (fun e => encodeCursor e.txid e.seq) ++
          [encodeCursor (nextKey k (s.served k limit)).1 (nextKey k (s.served k limit)).2] } := by
  unfold step
  dsimp only
  rw [if_pos (by simpa using hlimit), listEvents_of_sent h]
  show State.mk _ _ _ _ _ (s.received ++ _) (s.issued ++ _ ++ [_]) = _
  rw [map_map, map_map]
  show State.mk _ _ _ _ _ (s.received ++ (s.served k limit).map fun e => e) _ = _
  rw [map_id']
  rfl

theorem mem_served (he : e ∈ s.served k limit) : e ∈ s.events ∧ e.txid < s.horizon ∧ Before k e.key :=
  mem_servable.1 (mem_of_mem_take he)

theorem nextKey_cases (k : Nat × Nat) (rows : List (Event β)) :
    rows = [] ∧ nextKey k rows = k ∨ ∃ r, rows.getLast? = some r ∧ nextKey k rows = r.key := by
  unfold nextKey
  cases hlast : rows.getLast? with
  | none => exact Or.inl ⟨List.getLast?_eq_none_iff.1 hlast, rfl⟩
  | some r => exact Or.inr ⟨r, rfl, rfl⟩

theorem mem_served_iff (hinv : TxInv s) (he : e ∈ s.events) (hk : Before k e.key) :
    e ∈ s.served k limit ↔ ¬Before (nextKey k (s.served k limit)) e.key := by
  have hsorted := servable_sorted hinv.keys s.horizon k
  rcases nextKey_cases k (s.served k limit) with ⟨hnil, heq⟩ | ⟨r, hlast, heq⟩
  · rw [hnil] at heq ⊢
    exact ⟨(nomatch ·), fun h => absurd hk h⟩
  · obtain ⟨hpage, hrest⟩ := page_bounds hsorted hlast
    rw [heq]
    refine ⟨fun h => hpage e h, fun hle => ?_⟩
    have hr := mem_served (mem_of_getLast? hlast)
    have htxid : e.txid ≤ r.txid := by
      by_contra hlt
      exact hle (Or.inl (by show r.txid < e.txid; omega))
    have hmem : e ∈ servable s.events s.horizon k := mem_servable.2 ⟨he, by omega, hk⟩
    rw [← take_append_drop limit (servable s.events s.horizon k)] at hmem
    rcases mem_append.1 hmem with hin | hout
    · exact hin
    · exact absurd (hrest e hout) hle

theorem not_before_nextKey : ¬Before (nextKey k (s.served k limit)) k := by
  rcases nextKey_cases k (s.served k limit) with ⟨-, heq⟩ | ⟨r, hlast, heq⟩
  · rw [heq]
    exact not_before_self k
  · rw [heq]
    have := (mem_served (mem_of_getLast? hlast)).2.2
    exact fun hback => not_before_self _ (this.trans hback)

theorem Consumer.next (h : Consumer k s) (hinv : TxInv s) (limit : Nat) :
    ((nextKey k (s.served k limit)).1 ≤ maxTxid ∧ (nextKey k (s.served k limit)).2 ≤ maxSeq) ∧
      Ahead ((nextKey k (s.served k limit)).1 + 1) s := by
  rcases nextKey_cases k (s.served k limit) with ⟨-, heq⟩ | ⟨r, hlast, heq⟩
  · rw [heq]
    exact ⟨h.sent.1, h.ahead⟩
  · rw [heq]
    obtain ⟨hr, hhor, -⟩ := mem_served (mem_of_getLast? hlast)
    obtain ⟨-, -, ht, hs⟩ := hinv.events r hr
    exact ⟨⟨ht, hs⟩, (ahead_horizon s).mono hhor⟩

theorem Consumer.step_list (h : Consumer k s) (hinv : TxInv s) (hlimit : 1 ≤ limit ∧ limit ≤ maxLimit) :
    Consumer (nextKey k (s.served k limit)) (step s (.list limit)) := by
  obtain ⟨hbounds, hahead⟩ := h.next hinv limit
  have hmono : ¬Before (nextKey k (s.served k limit)) k := not_before_nextKey
  rw [Feed.step_list h.sent hlimit]
  refine ⟨⟨hbounds, Or.inr rfl⟩, ⟨hahead.next, hahead.writers⟩, ?_, ?_, ?_⟩
  · refine pairwise_append.2 ⟨h.order, ?_, fun a ha b hb => ?_⟩
    · exact (servable_sorted hinv.keys s.horizon k).sublist (take_sublist _ _)
    · have hak := ((h.received a).1 ha).2
      have hkb := (mem_served hb).2.2
      rcases before_or_eq hak with hlt | heq
      · exact hlt.trans hkb
      · rw [← heq]
        exact hkb
  · intro e
    show e ∈ s.received ++ s.served k limit ↔ e ∈ s.events ∧ _
    rw [mem_append]
    constructor
    · rintro (he | he)
      · obtain ⟨hin, hle⟩ := (h.received e).1 he
        exact ⟨hin, not_before_trans hle hmono⟩
      · obtain ⟨hin, -, hk⟩ := mem_served he
        exact ⟨hin, (mem_served_iff hinv hin hk).1 he⟩
    · rintro ⟨hin, hle⟩
      by_cases hk : Before k e.key
      · exact Or.inr ((mem_served_iff hinv hin hk).2 hle)
      · exact Or.inl ((h.received e).2 ⟨hin, hk⟩)
  · intro c hc
    rcases mem_append.1 hc with hc | hc
    · rcases mem_append.1 hc with hc | hc
      · obtain ⟨k', hdec, henc, hle⟩ := h.issued c hc
        exact ⟨k', hdec, henc, not_before_trans hle hmono⟩
      · obtain ⟨e, he, rfl⟩ := mem_map.1 hc
        obtain ⟨hin, -, hk⟩ := mem_served he
        obtain ⟨-, -, ht, hs⟩ := hinv.events e hin
        exact ⟨e.key, decodeCursor_encodeCursor ht hs, rfl, (mem_served_iff hinv hin hk).1 he⟩
    · rw [mem_singleton.1 hc]
      exact ⟨_, decodeCursor_encodeCursor hbounds.1 hbounds.2, rfl, not_before_self _⟩

/-! ## Whole runs -/

def Act.isCall : Act β → Bool
  | .list limit => 1 ≤ limit && limit ≤ maxLimit
  | _ => false

theorem step_of_not_call {act : Act β} (h : act.isCall = false) :
    (step s act).after = s.after ∧ (step s act).received = s.received ∧ (step s act).issued = s.issued := by
  unfold step
  cases act with
  | list limit =>
    have hlimit : (1 ≤ limit && limit ≤ maxLimit) = false := h
    dsimp only
    rw [hlimit]
    exact ⟨rfl, rfl, rfl⟩
  | start i =>
    dsimp only
    split <;> exact ⟨rfl, rfl, rfl⟩
  | write i =>
    dsimp only
    split
    · exact ⟨rfl, rfl, rfl⟩
    · split <;> exact ⟨rfl, rfl, rfl⟩
  | emit i body =>
    dsimp only
    split
    · exact ⟨rfl, rfl, rfl⟩
    · split
      · exact ⟨rfl, rfl, rfl⟩
      · split <;> exact ⟨rfl, rfl, rfl⟩
  | rollbackTo i n =>
    dsimp only
    split <;> exact ⟨rfl, rfl, rfl⟩
  | commit i =>
    dsimp only
    split <;> exact ⟨rfl, rfl, rfl⟩
  | abort i => exact ⟨rfl, rfl, rfl⟩

/-- The committed events below `n` that the consumer has still to get. -/
def pending (n : Nat) (k : Nat × Nat) (s : State β) : List (Event β) :=
  s.events.filter fun e => e.txid < n && Before k e.key

variable {n : Nat}

theorem mem_pending : e ∈ pending n k s ↔ e ∈ s.events ∧ e.txid < n ∧ Before k e.key := by
  unfold pending
  rw [mem_filter, Bool.and_eq_true, decide_eq_true_eq, decide_eq_true_eq]

theorem pending_step (hinv : TxInv s) (h : Ahead n s) (act : Act β) : pending n k (step s act) = pending n k s := by
  unfold pending
  rcases events_step s act with heq | ⟨i, w, hi, heq⟩
  · rw [heq]
  · rw [heq, filter_append]
    have hown : (w.own.filter fun e => e.txid < n && Before k e.key) = [] := by
      refine filter_eq_nil_iff.2 fun e he => ?_
      have := h.writers i w hi _ ((hinv.writers i w hi).own e he).1
      rw [Bool.and_eq_true, decide_eq_true_eq, not_and]
      omega
    rw [hown, append_nil]

theorem pending_later {k' : Nat × Nat} (hmono : ¬Before k' k) (s : State β) :
    pending n k' s = (pending n k s).filter fun e => Before k' e.key := by
  unfold pending
  rw [filter_filter]
  refine filter_congr fun e _ => ?_
  by_cases hbefore : Before k' e.key
  · have hk : Before k e.key := by
      by_contra hnot
      exact not_before_trans hnot hmono hbefore
    simp [hbefore, hk]
  · simp [hbefore]

theorem pending_nextKey (h : Ahead n s) (hlimit : 1 ≤ limit) :
    (pending n (nextKey k (s.served k limit)) s).length ≤ (pending n k s).length - 1 := by
  rw [pending_later not_before_nextKey]
  by_cases hnone : pending n k s = []
  · rw [hnone]
    exact le_refl 0
  refine Nat.le_sub_one_of_lt (length_filter_lt_length_iff_exists.2 ?_)
  obtain ⟨e, he⟩ := exists_mem_of_ne_nil _ hnone
  obtain ⟨hin, hlt, hk⟩ := mem_pending.1 he
  have hmem : e ∈ servable s.events s.horizon k :=
    mem_servable.2 ⟨hin, lt_of_lt_of_le hlt (le_horizon h), hk⟩
  rcases nextKey_cases k (s.served k limit) with ⟨hnil, -⟩ | ⟨r, hlast, heq⟩
  · unfold State.served at hnil
    rw [take_eq_nil_iff] at hnil
    rcases hnil with hzero | hnil
    · omega
    · rw [hnil] at hmem
      cases hmem
  · -- the last row of the page is one of them, unless `e` comes before it
    rw [heq]
    by_cases hre : Before r.key e.key
    · obtain ⟨hr, -, hkr⟩ := mem_served (mem_of_getLast? hlast)
      have hrn : r.txid < n := by
        have : r.txid < e.txid ∨ r.txid = e.txid ∧ r.seq < e.seq := hre
        omega
      exact ⟨r, mem_pending.2 ⟨hr, hrn, hkr⟩, by simpa using not_before_self r.key⟩
    · exact ⟨e, he, by simpa using hre⟩

theorem Consumer.step (h : Consumer k s) (hinv : TxInv s) (act : Act β) :
    ∃ k', Consumer k' (step s act) ∧ ¬Before k' k ∧
      ∀ n, Ahead n s → (pending n k' (step s act)).length ≤ (pending n k s).length - act.isCall.toNat := by
  cases hcall : act.isCall with
  | false =>
    obtain ⟨hafter, hrec, hissued⟩ := step_of_not_call (s := s) hcall
    refine ⟨k, h.step_of_same hinv hafter hrec hissued, not_before_self k, fun n hn => ?_⟩
    rw [pending_step hinv hn]
    exact le_refl _
  | true =>
    cases act with
    | list limit =>
      have hlimit : 1 ≤ limit ∧ limit ≤ maxLimit := by
        simpa [Act.isCall] using hcall
      refine ⟨_, h.step_list hinv hlimit, not_before_nextKey, fun n hn => ?_⟩
      rw [pending_step hinv hn]
      exact pending_nextKey hn hlimit.1
    | _ => cases hcall

theorem Consumer.run (h : Consumer k s) (hinv : TxInv s) (hn : Ahead n s) (more : List (Act β)) :
    ∃ k', Consumer k' (CisApp.run Feed.step s more) ∧ ¬Before k' k ∧
      (pending n k' (CisApp.run Feed.step s more)).length ≤ (pending n k s).length - more.countP Act.isCall ∧
      ∀ e ∈ (CisApp.run Feed.step s more).events, e ∉ s.events → Before k e.key := by
  induction more generalizing k s with
  | nil => exact ⟨k, h, not_before_self k, le_refl _, fun e he hnot => absurd he hnot⟩
  | cons act more ih =>
    obtain ⟨k₁, h₁, hmono₁, hcount₁⟩ := h.step hinv act
    obtain ⟨k', h', hmono', hcount', hlater⟩ := ih h₁ (hinv.step act) (hn.step hinv act)
    refine ⟨k', h', not_before_trans hmono₁ hmono', ?_, fun e he hnot => ?_⟩
    · have := hcount₁ n hn
      rw [countP_cons]
      have hnat : act.isCall.toNat = if act.isCall = true then 1 else 0 := by
        cases act.isCall <;> rfl
      show (pending n k' (CisApp.run Feed.step (Feed.step s act) more)).length ≤ _
      omega
    · by_cases hmid : e ∈ (Feed.step s act).events
      · rcases events_of_ahead h.ahead hinv hmid with hold | hnew
        · exact absurd hold hnot
        · exact Or.inl hnew
      · have := hlater e he hmid
        by_contra hback
        exact not_before_trans hback hmono₁ this

theorem reachable (acts : List (Act β)) : TxInv (run step init acts) ∧ ∃ k, Consumer k (run step init acts) := by
  have hinv : ∀ (acts : List (Act β)) (s : State β), TxInv s → TxInv (run step s acts) := by
    intro acts
    induction acts with
    | nil => exact fun s h => h
    | cons act acts ih => exact fun s h => ih _ (h.step act)
  obtain ⟨k, h, -⟩ := consumer_init.run txInv_init (ahead_horizon _) acts
  exact ⟨hinv acts init txInv_init, k, h⟩

/-- **The feed loses and repeats nothing.**  At any moment of any run the consumer has committed events only,
each once and in the order `(txid, seq)`; whatever the run does next, an event that was committed below every
open transaction is received after as many more calls as there were events, and what is committed later comes
after every cursor handed out, each of which reads back. -/
theorem feed_exactly_once (acts more : List (Act β)) :
    let s := run step init acts
    let s' := run step s more
    (s.received.Pairwise (fun a b => Before a.key b.key) ∧ s.received.Nodup ∧
        ∀ e ∈ s.received, e ∈ s.events) ∧
      (∀ e ∈ s.events, e.txid < s.horizon → s.events.length ≤ more.countP Act.isCall → e ∈ s'.received) ∧
      ∀ c ∈ s.issued, ∃ k, decodeCursor (some c) = .ok k ∧ encodeCursor k.1 k.2 = c ∧
        ∀ e ∈ s'.events, e ∉ s.events → Before k e.key := by
  intro s s'
  obtain ⟨hinv, k, h⟩ := reachable acts
  obtain ⟨k', h', hmono, hcount, hlater⟩ := h.run hinv (ahead_horizon s) more
  refine ⟨⟨h.order, h.order.imp fun hlt heq => ?_, fun e he => ((h.received e).1 he).1⟩, ?_, ?_⟩
  · rw [heq] at hlt
    exact not_before_self _ hlt
  · intro e he hlt hcalls
    have hin : e ∈ s'.events := mem_events_run he more
    refine (h'.received e).2 ⟨hin, fun hbefore => ?_⟩
    have hmem : e ∈ pending s.horizon k' s' := mem_pending.2 ⟨hin, hlt, hbefore⟩
    have hlen : (pending s.horizon k s).length ≤ s.events.length := length_filter_le _ _
    have hpos := length_pos_of_mem hmem
    have hleft : (pending s.horizon k' s').length ≤ (pending s.horizon k s).length - more.countP Act.isCall := hcount
    omega
  · intro c hc
    obtain ⟨kc, hdec, henc, hle⟩ := h.issued c hc
    refine ⟨kc, hdec, henc, fun e he hnot => ?_⟩
    by_contra hback
    exact not_before_trans hback hle (hlater e he hnot)

def oneEvent : List (Act Nat) := [.start 0, .emit 0 7, .commit 0]

theorem feed_oneEvent : ⟨3, 1, 7⟩ ∈ (run step (run step init oneEvent) [.write 1, .list 1]).received := by
  refine (feed_exactly_once oneEvent [.write 1, .list 1]).2.1 ⟨3, 1, 7⟩ ?_ ?_ ?_
  · decide
  · decide
  · decide

end CisApp.Feed
