import CisApp.Feed.Cursor
import CisApp.Lib.Run
import CisApp.Lib.Table

/-! The event feeds (`services/tenant_membership/feed.py`, `services/tenant_account/feed.py`, the event tables of
migrations 276 and 353).

A writing transaction gets its `txid` at its first write of anything and a `seq` from the identity sequence
for each event; its events are seen once it commits.  `list_events` serves the committed events of
transactions older than every open one, after the cursor and in the order `(txid, seq)`, one page at a time.
The two feeds differ in the body of an event only.

Transaction ids only go up, so what is open or still to come stays above any id that once was below all of
them (`Ahead.step`), and so does what is committed later (`events_of_ahead`). -/

namespace CisApp.Feed

open List

variable {β : Type}

/-! ## The order -/

/-- PostgreSQL's `<` of two rows `(txid, seq)`. -/
def Before (a b : Nat × Nat) : Prop := a.1 < b.1 ∨ a.1 = b.1 ∧ a.2 < b.2

instance (a b : Nat × Nat) : Decidable (Before a b) := inferInstanceAs (Decidable (_ ∨ _ ∧ _))

theorem Before.trans {a b c : Nat × Nat} (h : Before a b) (h' : Before b c) : Before a c := by
  unfold Before at *
  omega

theorem not_before_self (a : Nat × Nat) : ¬Before a a := by
  unfold Before
  omega

theorem before_or_eq {a b : Nat × Nat} (h : ¬Before a b) : Before b a ∨ a = b := by
  unfold Before at *
  rcases a with ⟨a₁, a₂⟩
  rcases b with ⟨b₁, b₂⟩
  simp only [Prod.mk.injEq] at *
  omega

theorem not_before_trans {a b c : Nat × Nat} (h : ¬Before b a) (h' : ¬Before c b) : ¬Before c a := by
  unfold Before at *
  omega

/-! ## The tables and the transactions -/

structure Event (β : Type) where
  txid : Nat
  seq : Nat
  body : β
deriving Repr, DecidableEq

def Event.key (e : Event β) : Nat × Nat := (e.txid, e.seq)

/-- An open transaction and the events it has written. -/
structure Writer (β : Type) where
  txid : Option Nat
  own : List (Event β)
deriving Repr, DecidableEq

structure State (β : Type) where
  nextTxid : Nat
  nextSeq : Nat
  writers : Table Nat (Writer β)
  events : List (Event β)
  /-- What the consumer sends as `after`. -/
  after : Option String
  received : List (Event β)
  issued : List String

def init : State β := ⟨3, 1, Table.empty, [], none, [], []⟩

inductive Act (β : Type) where
  | start (i : Nat)
  | write (i : Nat)
  | emit (i : Nat) (body : β)
  /-- A rollback to a savepoint, where `n` events were written. -/
  | rollbackTo (i : Nat) (n : Nat)
  | commit (i : Nat)
  | abort (i : Nat)
  | list (limit : Nat)
deriving Repr, DecidableEq

/-- `pg_snapshot_xmin(pg_current_snapshot())`: the smallest open `txid`, or the next one. -/
def State.horizon (s : State β) : Nat := (s.writers.rows.filterMap (·.2.txid)).foldl min s.nextTxid

def feedSql (events : List (Event β)) (horizon : Nat) (cursor : Nat × Nat) (limit : Nat) : List (Event β) :=
  ((events.filter fun e => e.txid < horizon && Before cursor e.key).mergeSort
    fun a b => !Before b.key a.key).take limit

structure Page (β : Type) where
  items : List (Event β × String)
  nextCursor : String

def maxLimit : Nat := 500

def listEvents (events : List (Event β)) (horizon : Nat) (after : Option String) (limit : Nat) :
    Except InvalidRequest (Page β) := do
  let cursor ← decodeCursor after
  let items := (feedSql events horizon cursor limit).map fun e => (e, encodeCursor e.txid e.seq)
  let nextCursor :=
    match items.getLast? with
    | some item => item.2
    | none => (after.filter (· ≠ "")).getD (encodeCursor start.1 start.2)
  .ok ⟨items, nextCursor⟩

/-- The transaction's `txid`, assigned now if it has none, and the next free one. -/
def State.assign (s : State β) (w : Writer β) : Option (Nat × Nat) :=
  match w.txid with
  | some t => some (t, s.nextTxid)
  | none => if s.nextTxid ≤ maxTxid then some (s.nextTxid, s.nextTxid + 1) else none

def State.drop (s : State β) (i : Nat) : State β := { s with writers := s.writers.delete fun j _ => j = i }

def step (s : State β) : Act β → State β
  | .start i => if (s.writers.get? i).isSome then s else { s with writers := s.writers.upsert i ⟨none, []⟩ }
  | .write i =>
    match s.writers.get? i with
    | none => s
    | some w =>
      match s.assign w with
      | none => s
      | some (t, next) =>
        { s with nextTxid := next, writers := s.writers.upsert i { w with txid := some t } }
  | .emit i body =>
    match s.writers.get? i with
    | none => s
    | some w =>
      match s.assign w with
      | none => s
      | some (t, next) =>
        if s.nextSeq ≤ maxSeq then
          { s with
            nextTxid := next
            nextSeq := s.nextSeq + 1
            writers := s.writers.upsert i ⟨some t, w.own ++ [⟨t, s.nextSeq, body⟩]⟩ }
        else s
  | .rollbackTo i n =>
    match s.writers.get? i with
    | none => s
    | some w => { s with writers := s.writers.upsert i { w with own := w.own.take n } }
  | .commit i =>
    match s.writers.get? i with
    | none => s
    | some w => { s.drop i with events := s.events ++ w.own }
  | .abort i => s.drop i
  | .list limit =>
    if 1 ≤ limit && limit ≤ maxLimit then
      match listEvents s.events s.horizon s.after limit with
      | .error _ => s
      | .ok page =>
        { s with
          after := some page.nextCursor
          received := s.received ++ page.items.map Prod.fst
          issued := s.issued ++ page.items.map Prod.snd ++ [page.nextCursor] }
    else s

/-! ## Transactions -/

/-- The transaction ids that are open or still to come are from `n` on. -/
structure Ahead (n : Nat) (s : State β) : Prop where
  next : n ≤ s.nextTxid
  writers : ∀ i w, s.writers.get? i = some w → ∀ t, w.txid = some t → n ≤ t

variable {n : Nat}

theorem le_foldl_min {m : Nat} {ts : List Nat} (hm : n ≤ m) (h : ∀ t ∈ ts, n ≤ t) : n ≤ ts.foldl min m := by
  induction ts generalizing m with
  | nil => exact hm
  | cons t ts ih =>
    exact ih (le_min hm (h t mem_cons_self)) fun t' ht' => h t' (mem_cons_of_mem _ ht')

variable {s : State β}

theorem le_horizon (h : Ahead n s) : n ≤ s.horizon := by
  refine le_foldl_min h.next fun t ht => ?_
  obtain ⟨x, hx, heq⟩ := mem_filterMap.1 ht
  exact h.writers x.1 x.2 ((Table.get?_eq_some_iff _ _ _).2 hx) t heq

theorem foldl_min_le (ts : List Nat) (m : Nat) : ts.foldl min m ≤ m ∧ ∀ t ∈ ts, ts.foldl min m ≤ t := by
  induction ts generalizing m with
  | nil => exact ⟨le_refl _, nofun⟩
  | cons t ts ih =>
    obtain ⟨hle, hall⟩ := ih (min m t)
    refine ⟨le_trans hle (min_le_left _ _), fun t' ht' => ?_⟩
    rcases mem_cons.1 ht' with rfl | ht'
    · exact le_trans hle (min_le_right _ _)
    · exact hall t' ht'

theorem ahead_horizon (s : State β) : Ahead s.horizon s := by
  obtain ⟨hle, hall⟩ := foldl_min_le (s.writers.rows.filterMap (·.2.txid)) s.nextTxid
  refine ⟨hle, fun i w hw t ht => hall t (mem_filterMap.2 ⟨(i, w), ?_, ht⟩)⟩
  exact (Table.get?_eq_some_iff _ _ _).1 hw

theorem Ahead.mono {m : Nat} (h : Ahead n s) (hmn : m ≤ n) : Ahead m s :=
  ⟨le_trans hmn h.next, fun i w hw t ht => le_trans hmn (h.writers i w hw t ht)⟩

/-- What holds of an open transaction. -/
structure Writer.Good (s : State β) (w : Writer β) : Prop where
  txid : ∀ t, w.txid = some t → 0 < t ∧ t < s.nextTxid ∧ t ≤ maxTxid ∧ ∀ e ∈ s.events, e.txid ≠ t
  own : ∀ e ∈ w.own, w.txid = some e.txid ∧ e.seq < s.nextSeq ∧ e.seq ≤ maxSeq
  order : w.own.Pairwise fun a b => a.seq < b.seq

/-- What holds of the transactions and the committed events. -/
structure TxInv (s : State β) : Prop where
  next : 0 < s.nextTxid
  writers : ∀ i w, s.writers.get? i = some w → w.Good s
  apart : ∀ i j w w', i ≠ j → s.writers.get? i = some w → s.writers.get? j = some w' →
    ∀ t, w.txid = some t → w'.txid ≠ some t
  events : ∀ e ∈ s.events, 0 < e.txid ∧ e.txid < s.nextTxid ∧ e.txid ≤ maxTxid ∧ e.seq ≤ maxSeq
  keys : s.events.Pairwise fun a b => a.key ≠ b.key

variable {i : Nat} {w : Writer β}

theorem get?_of_drop {j : Nat} (h : (s.drop i).writers.get? j = some w) : j ≠ i ∧ s.writers.get? j = some w := by
  unfold State.drop at h
  rw [Table.get?_delete, Option.filter_eq_some_iff] at h
  exact ⟨by simpa using h.2, h.1⟩

theorem TxInv.assign (h : TxInv s) (hi : s.writers.get? i = some w)
    {t next : Nat} (ha : s.assign w = some (t, next)) :
    s.nextTxid ≤ next ∧ (0 < t ∧ t < next ∧ t ≤ maxTxid ∧ ∀ e ∈ s.events, e.txid ≠ t) ∧
      (∀ j w', j ≠ i → s.writers.get? j = some w' → w'.txid ≠ some t) ∧ (∀ e ∈ w.own, e.txid = t) ∧
      (w.txid = some t ∨ t = s.nextTxid) := by
  have hw := h.writers i w hi
  unfold State.assign at ha
  cases htxid : w.txid with
  | some t' =>
    rw [htxid] at ha
    cases ha
    refine ⟨le_refl _, hw.txid t htxid, ?_, ?_, Or.inl rfl⟩
    · exact fun j w' hne hj => h.apart i j w w' (Ne.symm hne) hi hj t htxid
    · intro e he
      have := (hw.own e he).1
      rw [htxid] at this
      exact (Option.some.inj this).symm
  | none =>
    rw [htxid] at ha
    dsimp only at ha
    split at ha
    · next hmax =>
      cases ha
      have hnext := h.next
      refine ⟨by omega, ⟨hnext, by omega, hmax, fun e he => ?_⟩, ?_, ?_, Or.inr rfl⟩
      · have := (h.events e he).2.1
        omega
      · intro j w' _ hj heq
        have := ((h.writers j w' hj).txid _ heq).2.1
        omega
      · intro e he
        have := (hw.own e he).1
        rw [htxid] at this
        cases this
    · cases ha

theorem TxInv.put (h : TxInv s) {next seq : Nat}
    (hnext : s.nextTxid ≤ next) (hseq : s.nextSeq ≤ seq)
    (hgood : w.Good { s with nextTxid := next, nextSeq := seq })
    (hapart : ∀ t, w.txid = some t → ∀ j w', j ≠ i → s.writers.get? j = some w' → w'.txid ≠ some t) :
    TxInv { s with nextTxid := next, nextSeq := seq, writers := s.writers.upsert i w } := by
  have hpos := h.next
  refine ⟨by show 0 < next; omega, ?_, ?_, ?_, h.keys⟩
  · intro j w' hj
    rw [Table.get?_upsert] at hj
    split at hj
    · cases hj
      exact ⟨hgood.txid, hgood.own, hgood.order⟩
    · have hw := h.writers j w' hj
      refine ⟨fun t ht => ?_, fun e he => ?_, hw.order⟩
      · obtain ⟨h0, hlt, hmax, hne⟩ := hw.txid t ht
        exact ⟨h0, lt_of_lt_of_le hlt hnext, hmax, hne⟩
      · obtain ⟨ht, hlt, hmax⟩ := hw.own e he
        exact ⟨ht, lt_of_lt_of_le hlt hseq, hmax⟩
  · intro j k w₁ w₂ hjk hj hk t ht
    rw [Table.get?_upsert] at hj hk
    split at hj
    · next hji =>
      cases hj
      rw [if_neg (by rw [← hji]; exact Ne.symm hjk)] at hk
      exact hapart t ht k w₂ (by rw [← hji]; exact Ne.symm hjk) hk
    · next hji =>
      split at hk
      · cases hk
        intro heq
        exact hapart t heq j w₁ hji hj ht
      · exact h.apart j k w₁ w₂ hjk hj hk t ht
  · intro e he
    obtain ⟨h0, hlt, hmax⟩ := h.events e he
    exact ⟨h0, lt_of_lt_of_le hlt hnext, hmax⟩

theorem TxInv.drop (h : TxInv s) (i : Nat) : TxInv (s.drop i) := by
  refine ⟨h.next, fun j w hj => ?_, fun j k w w' hjk hj hk => ?_, h.events, h.keys⟩
  · have hw := h.writers j w (get?_of_drop hj).2
    exact ⟨hw.txid, hw.own, hw.order⟩
  · exact h.apart j k w w' hjk (get?_of_drop hj).2 (get?_of_drop hk).2

theorem TxInv.commit (h : TxInv s) (hi : s.writers.get? i = some w) :
    TxInv { s.drop i with events := s.events ++ w.own } := by
  have hw := h.writers i w hi
  refine ⟨h.next, ?_, (h.drop i).apart, ?_, ?_⟩
  · intro j w' hj
    obtain ⟨hne, hj⟩ := get?_of_drop hj
    have hw' := h.writers j w' hj
    refine ⟨fun t ht => ?_, hw'.own, hw'.order⟩
    obtain ⟨h0, hlt, hmax, hold⟩ := hw'.txid t ht
    refine ⟨h0, hlt, hmax, fun e he => ?_⟩
    rcases mem_append.1 he with he | he
    · exact hold e he
    · rintro rfl
      exact h.apart i j w w' (Ne.symm hne) hi hj _ (hw.own e he).1 ht
  · intro e he
    rcases mem_append.1 he with he | he
    · exact h.events e he
    · obtain ⟨ht, -, hseq⟩ := hw.own e he
      obtain ⟨h0, hlt, hmax, -⟩ := hw.txid _ ht
      exact ⟨h0, hlt, hmax, hseq⟩
  · refine pairwise_append.2 ⟨h.keys, hw.order.imp fun hlt heq => ?_, fun a ha b hb heq => ?_⟩
    · have := congrArg Prod.snd heq
      exact absurd this (Nat.ne_of_lt hlt)
    · exact (hw.txid _ (hw.own b hb).1).2.2.2 a ha (congrArg Prod.fst heq)

theorem TxInv.step (h : TxInv s) (act : Act β) : TxInv (step s act) := by
  cases act with
  | start i =>
    unfold Feed.step
    dsimp only
    split
    · exact h
    · refine h.put (le_refl _) (le_refl _) ⟨fun t ht => ?_, fun e he => ?_, List.Pairwise.nil⟩ fun t ht => ?_
      · cases ht
      · cases he
      · cases ht
  | write i =>
    unfold Feed.step
    dsimp only
    split
    · exact h
    · next w hi =>
      split
      · exact h
      · next t next ha =>
        have hw := h.writers i w hi
        obtain ⟨hnext, hgood, hapart, hown, -⟩ := h.assign hi ha
        refine h.put hnext (le_refl _) ⟨fun t' ht' => ?_, fun e he => ?_, hw.order⟩ fun t' ht' => ?_
        · cases ht'
          exact hgood
        · rw [hown e he]
          exact ⟨rfl, (hw.own e he).2⟩
        · cases ht'
          exact hapart
  | emit i body =>
    unfold Feed.step
    dsimp only
    split
    · exact h
    · next w hi =>
      split
      · exact h
      · next t next ha =>
        split
        · next hseq =>
          have hw := h.writers i w hi
          obtain ⟨hnext, hgood, hapart, hown, -⟩ := h.assign hi ha
          refine h.put hnext (Nat.le_succ _) ⟨fun t' ht' => ?_, fun e he => ?_, ?_⟩ fun t' ht' => ?_
          · cases ht'
            exact hgood
          · rcases mem_append.1 he with he | he
            · rw [hown e he]
              exact ⟨rfl, Nat.lt_succ_of_lt (hw.own e he).2.1, (hw.own e he).2.2⟩
            · rw [mem_singleton.1 he]
              exact ⟨rfl, Nat.lt_succ_self _, hseq⟩
          · refine pairwise_append.2 ⟨hw.order, pairwise_singleton _ _, fun a ha b hb => ?_⟩
            rw [mem_singleton.1 hb]
            exact (hw.own a ha).2.1
          · cases ht'
            exact hapart
        · exact h
  | rollbackTo i n =>
    unfold Feed.step
    dsimp only
    split
    · exact h
    · next w hi =>
      have hw := h.writers i w hi
      refine h.put (le_refl _) (le_refl _) ⟨hw.txid, fun e he => hw.own e (mem_of_mem_take he),
        hw.order.sublist (take_sublist _ _)⟩ fun t ht j w' hne hj => ?_
      exact h.apart i j w w' (Ne.symm hne) hi hj t ht
  | commit i =>
    unfold Feed.step
    dsimp only
    split
    · exact h
    · next w hi => exact h.commit hi
  | abort i => exact h.drop i
  | list limit =>
    unfold Feed.step
    dsimp only
    split
    · split
      · exact h
      · exact ⟨h.next, fun i w hw => ⟨(h.writers i w hw).txid, (h.writers i w hw).own, (h.writers i w hw).order⟩,
          h.apart, h.events, h.keys⟩
    · exact h

theorem events_step (s : State β) (act : Act β) : (step s act).events = s.events ∨
      ∃ i w, s.writers.get? i = some w ∧ (step s act).events = s.events ++ w.own := by
  cases act with
  | commit i =>
    unfold step
    dsimp only
    split
    · exact Or.inl rfl
    · next w hi => exact Or.inr ⟨i, w, hi, rfl⟩
  | start i =>
    left
    unfold step
    dsimp only
    split <;> rfl
  | write i =>
    left
    unfold step
    dsimp only
    split
    · rfl
    · split <;> rfl
  | emit i body =>
    left
    unfold step
    dsimp only
    split
    · rfl
    · split
      · rfl
      · split <;> rfl
  | rollbackTo i n =>
    left
    unfold step
    dsimp only
    split <;> rfl
  | abort i => exact Or.inl rfl
  | list limit =>
    left
    unfold step
    dsimp only
    split
    · split <;> rfl
    · rfl

theorem Ahead.upsert (h : Ahead n s) {next : Nat} (hnext : s.nextTxid ≤ next) (hw : ∀ t, w.txid = some t → n ≤ t) :
    n ≤ next ∧ ∀ j w', (s.writers.upsert i w).get? j = some w' → ∀ t, w'.txid = some t → n ≤ t := by
  refine ⟨le_trans h.next hnext, fun j w' hj => ?_⟩
  rw [Table.get?_upsert] at hj
  split at hj
  · cases hj
    exact hw
  · exact h.writers j w' hj

theorem Ahead.step (h : Ahead n s) (hinv : TxInv s) (act : Act β) : Ahead n (step s act) := by
  have hassign : ∀ i w t next, s.writers.get? i = some w → s.assign w = some (t, next) →
      s.nextTxid ≤ next ∧ n ≤ t := by
    intro i w t next hi ha
    obtain ⟨hnext, -, -, -, hcase⟩ := hinv.assign hi ha
    refine ⟨hnext, ?_⟩
    rcases hcase with hold | hnew
    · exact h.writers i w hi t hold
    · rw [hnew]
      exact h.next
  have hdrop : ∀ i, Ahead n (s.drop i) := fun i =>
    ⟨h.next, fun j w hj => h.writers j w (get?_of_drop hj).2⟩
  cases act with
  | start i =>
    unfold Feed.step
    dsimp only
    split
    · exact h
    · obtain ⟨hnext, hw⟩ := h.upsert (i := i) (w := ⟨none, []⟩) (le_refl s.nextTxid) (fun t ht => by cases ht)
      exact ⟨hnext, hw⟩
  | write i =>
    unfold Feed.step
    dsimp only
    split
    · exact h
    · next w hi =>
      split
      · exact h
      · next t next ha =>
        obtain ⟨hnext, ht⟩ := hassign i w t next hi ha
        obtain ⟨hle, hw⟩ := h.upsert (i := i) (w := { w with txid := some t }) hnext fun t' ht' => by
          cases ht'
          exact ht
        exact ⟨hle, hw⟩
  | emit i body =>
    unfold Feed.step
    dsimp only
    split
    · exact h
    · next w hi =>
      split
      · exact h
      · next t next ha =>
        split
        · obtain ⟨hnext, ht⟩ := hassign i w t next hi ha
          obtain ⟨hle, hw⟩ := h.upsert (i := i) (w := ⟨some t, w.own ++ [⟨t, s.nextSeq, body⟩]⟩) hnext
            fun t' ht' => by
              cases ht'
              exact ht
          exact ⟨hle, hw⟩
        · exact h
  | rollbackTo i n' =>
    unfold Feed.step
    dsimp only
    split
    · exact h
    · next w hi =>
      obtain ⟨hle, hw⟩ := h.upsert (i := i) (w := { w with own := w.own.take n' }) (le_refl s.nextTxid)
        (h.writers i w hi)
      exact ⟨hle, hw⟩
  | commit i =>
    unfold Feed.step
    dsimp only
    split
    · exact h
    · exact ⟨(hdrop i).next, (hdrop i).writers⟩
  | abort i => exact hdrop i
  | list limit =>
    unfold Feed.step
    dsimp only
    split
    · split
      · exact h
      · exact ⟨h.next, h.writers⟩
    · exact h

theorem events_of_ahead (h : Ahead n s) (hinv : TxInv s) {act : Act β} {e : Event β}
    (he : e ∈ (step s act).events) : e ∈ s.events ∨ n ≤ e.txid := by
  rcases events_step s act with heq | ⟨i, w, hi, heq⟩
  · rw [heq] at he
    exact Or.inl he
  · rw [heq] at he
    rcases mem_append.1 he with he | he
    · exact Or.inl he
    · exact Or.inr (h.writers i w hi _ ((hinv.writers i w hi).own e he).1)

theorem mem_events_step {act : Act β} {e : Event β} (he : e ∈ s.events) : e ∈ (step s act).events := by
  rcases events_step s act with heq | ⟨i, w, -, heq⟩
  · rw [heq]
    exact he
  · rw [heq]
    exact mem_append_left _ he

end CisApp.Feed
