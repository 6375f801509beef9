import CisApp.Audit.Chain
import CisApp.Lib.Run

/-! Concurrent writers of the audit log, and verifiers that read while they write.

A writer is a transaction under READ COMMITTED.  Its INSERT waits for the advisory lock `(884, 1)`; then the
trigger's SELECT takes a new snapshot, which shows the committed rows and the writer's own.  The lock is kept
to the end of the transaction; a rollback to a savepoint set before it was taken may give it back.  An
INSERT refused by a constraint and any other failing statement leave the transaction failed until it
rolls back to a savepoint or altogether.

Whoever has uncommitted rows has the lock (`Inv.locked`), so nobody commits between a writer's first row and
its commit, and its rows stay a continuation of the committed chain. -/

namespace CisApp.Audit

open List

/-- How many own rows there were and whether the lock was held when the savepoint was set. -/
structure Savepoint where
  own : Nat
  locked : Bool
deriving Repr, DecidableEq

structure Writer where
  own : List Row
  locked : Bool
  failed : Bool
  savepoints : List Savepoint
deriving DecidableEq

structure State where
  rows : List Row
  writers : Table Nat Writer
  /-- The calls of `verify_chain` under way. -/
  scans : Table Nat Scan
  verdicts : List Verdict

def atRest (rows : List Row) : State := ⟨rows, Table.empty, Table.empty, []⟩

inductive Act where
  | start (i : Nat)
  /-- An INSERT; `allowed` is false when a CHECK or NOT NULL constraint refuses the row. -/
  | insert (i : Nat) (now : Stamp) (c : Columns) (allowed : Bool)
  | other (i : Nat) (fails : Bool)
  | savepoint (i : Nat)
  | release (i : Nat)
  /-- To the savepoint under `depth` later ones; a lock taken since is kept or given back. -/
  | rollbackTo (i : Nat) (depth : Nat) (keeps : Bool)
  | commit (i : Nat)
  | abort (i : Nat)
  | verify (v : Nat)
  | batch (v : Nat)
deriving DecidableEq

def State.busy (s : State) (i : Nat) : Bool := s.writers.rows.any fun e => e.1 ≠ i && e.2.locked

def State.put (s : State) (i : Nat) (w : Writer) : State := { s with writers := s.writers.upsert i w }

def State.drop (s : State) (i : Nat) : State := { s with writers := s.writers.delete fun j _ => j = i }

/-- The primary key and the unique index on `chain_seq`. -/
def unique (seen : List Row) (r : Row) : Bool :=
  seen.all fun r' => r'.id ≠ r.id && r'.chainSeq ≠ r.chainSeq

/-- The INSERT, with the lock taken. -/
def Writer.insert (sha : String → String) (rows : List Row) (w : Writer) (now : Stamp) (c : Columns)
    (allowed : Bool) : Writer :=
  let r := auditLogChain sha now (rows ++ w.own) c
  if allowed && unique (rows ++ w.own) r then { w with own := w.own ++ [r], locked := true }
  else { w with locked := true, failed := true }

def Writer.rollbackTo (w : Writer) (depth : Nat) (keeps : Bool) : Writer :=
  match w.savepoints.drop depth with
  | [] => w
  | p :: ps =>
    { own := w.own.take p.own
      locked := p.locked || (keeps && w.locked)
      failed := false
      savepoints := p :: ps }

def step (sha : String → String) (s : State) : Act → State
  | .start i =>
    if (s.writers.get? i).isSome then s else s.put i ⟨[], false, false, []⟩
  | .insert i now c allowed =>
    match s.writers.get? i with
    | none => s
    | some w => if w.failed || s.busy i then s else s.put i (w.insert sha s.rows now c allowed)
  | .other i fails =>
    match s.writers.get? i with
    | none => s
    | some w => if w.failed then s else s.put i { w with failed := fails }
  | .savepoint i =>
    match s.writers.get? i with
    | none => s
    | some w =>
      if w.failed then s
      else s.put i { w with savepoints := ⟨w.own.length, w.locked⟩ :: w.savepoints }
  | .release i =>
    match s.writers.get? i with
    | none => s
    | some w => if w.failed then s else s.put i { w with savepoints := w.savepoints.tail }
  | .rollbackTo i depth keeps =>
    match s.writers.get? i with
    | none => s
    | some w => s.put i (w.rollbackTo depth keeps)
  | .commit i =>
    match s.writers.get? i with
    | none => s
    | some w => if w.failed then s.drop i else { s.drop i with rows := s.rows ++ w.own }
  | .abort i => s.drop i
  | .verify v =>
    if (s.scans.get? v).isSome then s else { s with scans := s.scans.upsert v (Scan.init none) }
  | .batch v =>
    match s.scans.get? v with
    | none => s
    | some t =>
      match batch sha none s.rows t with
      | .inl verdict =>
        { s with scans := s.scans.delete fun j _ => j = v, verdicts := s.verdicts ++ [verdict] }
      | .inr t' => { s with scans := s.scans.upsert v t' }

/-! ## One writer over the committed rows -/

variable {sha : String → String}

/-- What holds of an open transaction over the committed rows. -/
structure Writer.Good (sha : String → String) (rows : List Row) (w : Writer) : Prop where
  locked : w.own ≠ [] → w.locked = true
  saved : ∀ p ∈ w.savepoints, 0 < p.own → p.locked = true
  held : ∀ p ∈ w.savepoints, p.locked = true → w.locked = true
  order : w.savepoints.Pairwise fun p q => q.locked = true → p.locked = true
  chained : Chained sha (rows ++ w.own)
  readable : ∀ r ∈ w.own, Readable r

theorem chainedRows_append (a b : List Row) : chainedRows (a ++ b) = chainedRows a ++ chainedRows b :=
  filter_append a b

theorem Chained.take {a b : List Row} (h : Chained sha (a ++ b)) (k : Nat) : Chained sha (a ++ b.take k) := by
  rw [← take_append_drop k b, ← append_assoc] at h
  unfold Chained at h ⊢
  rw [chainedRows_append, linked_append] at h
  exact h.1

/-- The times that the verifier reads as the trigger wrote them. -/
def Act.dated : Act → Bool
  | .insert _ now c _ => 1000 ≤ (c.createdAt.getD now).year && (c.createdAt.getD now).year ≤ 9999
  | _ => true

variable {rows : List Row} {w : Writer}

theorem Writer.Good.insert (h : w.Good sha rows) {now : Stamp} {c : Columns}
    (hdated : (1000 ≤ (c.createdAt.getD now).year && (c.createdAt.getD now).year ≤ 9999) = true)
    (allowed : Bool) : (w.insert sha rows now c allowed).Good sha rows := by
  unfold Writer.insert
  dsimp only
  split
  · refine ⟨fun _ => rfl, h.saved, fun _ _ _ => rfl, h.order, ?_, ?_⟩
    · rw [← append_assoc]
      exact h.chained.insert now c
    · intro r hr
      rcases mem_append.1 hr with hr | hr
      · exact h.readable r hr
      · rw [mem_singleton.1 hr]
        exact ⟨rfl, hdated⟩
  · exact ⟨fun _ => rfl, h.saved, fun _ _ _ => rfl, h.order, h.chained, h.readable⟩

theorem Writer.Good.rollbackTo (h : w.Good sha rows) (depth : Nat)
    (keeps : Bool) : (w.rollbackTo depth keeps).Good sha rows := by
  unfold Writer.rollbackTo
  split
  · exact h
  · next p ps hdrop =>
    have hsaved : ∀ q ∈ p :: ps, 0 < q.own → q.locked = true := by
      intro q hq
      rw [← hdrop] at hq
      exact h.saved q (mem_of_mem_drop hq)
    have horder : (p :: ps).Pairwise fun p q => q.locked = true → p.locked = true := by
      rw [← hdrop]
      exact h.order.drop
    refine ⟨?_, hsaved, ?_, horder, h.chained.take p.own, fun r hr => h.readable r (mem_of_mem_take hr)⟩
    swap
    · intro q hq hlocked
      show (p.locked || _) = true
      rcases mem_cons.1 hq with rfl | hq
      · rw [hlocked]
        rfl
      · rw [(pairwise_cons.1 horder).1 q hq hlocked]
        rfl
    intro hown
    have hpos : 0 < p.own := by
      rcases Nat.eq_zero_or_pos p.own with hzero | hpos
      · rw [hzero] at hown
        exact absurd rfl hown
      · exact hpos
    show (p.locked || _) = true
    rw [hsaved p mem_cons_self hpos]
    rfl

theorem Writer.Good.of_nil {rows' : List Row} (h : w.Good sha rows) (hown : w.own = [])
    (hrows : Chained sha rows') : w.Good sha rows' := by
  refine ⟨h.locked, h.saved, h.held, h.order, ?_, h.readable⟩
  rw [hown, append_nil]
  exact hrows

/-! ## A verifier over the committed rows -/

/-- The verifier has read a beginning of the chain. -/
def Scanned (rows : List Row) (t : Scan) : Prop :=
  ∃ k, k ≤ (chainedRows rows).length ∧ t = scanAt k (endHash none ((chainedRows rows).take k)) k

theorem scanned_init (rows : List Row) : Scanned rows (Scan.init none) := ⟨0, Nat.zero_le _, rfl⟩

theorem Scanned.append {t : Scan} (h : Scanned rows t) (more : List Row) : Scanned (rows ++ more) t := by
  obtain ⟨k, hk, rfl⟩ := h
  refine ⟨k, ?_, ?_⟩
  · rw [chainedRows_append, length_append]
    omega
  · rw [chainedRows_append, take_append_of_le_length hk]

theorem batch_chained (h : Chained sha rows) (hread : ∀ r ∈ chainedRows rows, Readable r)
    {k : Nat} (hk : k ≤ (chainedRows rows).length) :
    (∃ v, batch sha none rows (scanAt k (endHash none ((chainedRows rows).take k)) k) = .inl v ∧ v.ok = true) ∨
      ∃ k', k < k' ∧ k' ≤ (chainedRows rows).length ∧
        batch sha none rows (scanAt k (endHash none ((chainedRows rows).take k)) k) =
          .inr (scanAt k' (endHash none ((chainedRows rows).take k')) k') := by
  have hpage : fetch rows (scanAt k (endHash none ((chainedRows rows).take k)) k).cursor verifyBatch =
      ((chainedRows rows).drop k).take verifyBatch := h.fetch k verifyBatch
  generalize hp : ((chainedRows rows).drop k).take verifyBatch = page at hpage
  -- the page is the next stretch of the chain
  have hsplit : (chainedRows rows).take (k + page.length) = (chainedRows rows).take k ++ page := by
    rw [take_add, ← hp, length_take]
    congr 1
    rw [take_eq_take_iff]
    omega
  have hlinked : Linked (fun r => sha (triggerText r)) k (endHash none ((chainedRows rows).take k)) page := by
    have hall := h
    unfold Chained at hall
    rw [← take_append_drop (k + page.length) (chainedRows rows), linked_append, hsplit, linked_append] at hall
    have := hall.1.2
    rwa [Nat.zero_add, length_take, Nat.min_eq_left hk] at this
  have hmem : ∀ r ∈ page, Readable r := by
    intro r hr
    rw [← hp] at hr
    exact hread r (mem_of_mem_drop (mem_of_mem_take hr))
  have hlen : k + page.length ≤ (chainedRows rows).length := by
    rw [← hp, length_take, length_drop]
    omega
  have hscan := (hlinked.canonical hmem).scan (by rintro rfl; rfl) (k : Int)
  rw [← endHash_append, ← hsplit] at hscan
  unfold batch
  rw [hpage]
  by_cases hempty : page.isEmpty = true
  · rw [if_pos hempty]
    exact Or.inl ⟨_, rfl, rfl⟩
  · have hpos : 0 < page.length := by
      rw [length_pos_iff]
      simpa using hempty
    rw [if_neg hempty, hscan]
    dsimp only
    split
    · exact Or.inl ⟨_, rfl, rfl⟩
    · refine Or.inr ⟨k + page.length, by omega, hlen, ?_⟩
      have hne : k + page.length ≠ 0 := by omega
      unfold scanAt
      rw [if_neg hne]
      rfl

/-! ## The invariant -/

structure Inv (sha : String → String) (s : State) : Prop where
  chained : Chained sha s.rows
  readable : ∀ r ∈ chainedRows s.rows, Readable r
  writers : ∀ i w, s.writers.get? i = some w → w.Good sha s.rows
  one : ∀ i j w w', s.writers.get? i = some w → s.writers.get? j = some w' → w.locked = true →
    w'.locked = true → i = j
  scans : ∀ v t, s.scans.get? v = some t → Scanned s.rows t
  verdicts : ∀ v ∈ s.verdicts, v.ok = true

variable {s : State}

variable {i : Nat}

theorem not_locked_of_free (h : s.busy i = false) {j : Nat}
    (hj : s.writers.get? j = some w) (hne : j ≠ i) : w.locked = false := by
  unfold State.busy at h
  rw [any_eq_false] at h
  have := h (j, w) ((Table.get?_eq_some_iff _ _ _).1 hj)
  simpa [hne] using this

theorem Inv.put (h : Inv sha s) (hgood : w.Good sha s.rows)
    (hlock : w.locked = true → ∀ j w', j ≠ i → s.writers.get? j = some w' → w'.locked = false) : Inv sha (s.put i w) := by
  have hget : ∀ j w', (s.put i w).writers.get? j = some w' →
      (j = i ∧ w' = w) ∨ (j ≠ i ∧ s.writers.get? j = some w') := by
    intro j w' hj
    rw [show (s.put i w).writers.get? j = (s.writers.upsert i w).get? j from rfl, Table.get?_upsert] at hj
    split at hj
    · next heq => exact Or.inl ⟨heq, (Option.some.inj hj).symm⟩
    · next hne => exact Or.inr ⟨hne, hj⟩
  refine ⟨h.chained, h.readable, ?_, ?_, h.scans, h.verdicts⟩
  · intro j w' hj
    rcases hget j w' hj with ⟨-, rfl⟩ | ⟨-, hj⟩
    · exact hgood
    · exact h.writers j w' hj
  · intro j k w₁ w₂ hj hk h₁ h₂
    rcases hget j w₁ hj with ⟨rfl, rfl⟩ | ⟨hji, hold⟩
    · rcases hget k w₂ hk with ⟨rfl, -⟩ | ⟨hki, hk⟩
      · rfl
      · rw [hlock h₁ k w₂ hki hk] at h₂
        cases h₂
    · rcases hget k w₂ hk with ⟨rfl, rfl⟩ | ⟨hki, hk⟩
      · rw [hlock h₂ j w₁ hji hold] at h₁
        cases h₁
      · exact h.one j k w₁ w₂ hold hk h₁ h₂

theorem Inv.put_of_le (h : Inv sha s) {w' : Writer} (hi : s.writers.get? i = some w)
    (hgood : w'.Good sha s.rows) (hle : w'.locked = true → w.locked = true) : Inv sha (s.put i w') := by
  refine h.put hgood fun hlocked j w₂ hne hj => ?_
  by_contra hnot
  rw [Bool.not_eq_false] at hnot
  exact hne (h.one j i w₂ w hj hi hnot (hle hlocked))

theorem Inv.drop (h : Inv sha s) (i : Nat) : Inv sha (s.drop i) := by
  have hget : ∀ j w, (s.drop i).writers.get? j = some w → s.writers.get? j = some w := by
    intro j w hj
    rw [show (s.drop i).writers.get? j = (s.writers.delete fun j _ => j = i).get? j from rfl,
      Table.get?_delete, Option.filter_eq_some_iff] at hj
    exact hj.1
  exact ⟨h.chained, h.readable, fun j w hj => h.writers j w (hget j w hj),
    fun j k w w' hj hk => h.one j k w w' (hget j w hj) (hget k w' hk), h.scans, h.verdicts⟩

theorem Inv.commit (h : Inv sha s) (hi : s.writers.get? i = some w) :
    Inv sha { s.drop i with rows := s.rows ++ w.own } := by
  have hw := h.writers i w hi
  have hdrop := h.drop i
  have hget : ∀ j w', (s.drop i).writers.get? j = some w' → j ≠ i ∧ s.writers.get? j = some w' := by
    intro j w' hj
    rw [show (s.drop i).writers.get? j = (s.writers.delete fun j _ => j = i).get? j from rfl,
      Table.get?_delete, Option.filter_eq_some_iff] at hj
    exact ⟨by simpa using hj.2, hj.1⟩
  refine ⟨hw.chained, ?_, ?_, hdrop.one, fun v t ht => (h.scans v t ht).append _, h.verdicts⟩
  · intro r hr
    rw [chainedRows_append] at hr
    rcases mem_append.1 hr with hr | hr
    · exact h.readable r hr
    · exact hw.readable r (mem_of_mem_filter hr)
  · intro j w' hj
    obtain ⟨hne, hj⟩ := hget j w' hj
    have hw' := h.writers j w' hj
    by_cases hown : w.own = []
    · show w'.Good sha (s.rows ++ w.own)
      rw [hown, append_nil]
      exact hw'
    · -- the lock was this writer's, so the other has no rows yet
      refine hw'.of_nil ?_ hw.chained
      by_contra hown'
      exact hne (h.one j i w' w hj hi (hw'.locked hown') (hw.locked hown))

theorem Inv.step (h : Inv sha s) {act : Act} (hdated : act.dated = true) : Inv sha (step sha s act) := by
  cases act with
  | start i =>
    unfold Audit.step
    dsimp only
    split
    · exact h
    · refine h.put ⟨?_, ?_, ?_, List.Pairwise.nil, ?_, ?_⟩ (fun hlocked => by cases hlocked)
      · exact fun hown => absurd rfl hown
      · intro p hp
        cases hp
      · intro p hp
        cases hp
      · rw [append_nil]
        exact h.chained
      · intro r hr
        cases hr
  | insert i now c allowed =>
    unfold Audit.step
    dsimp only
    split
    · exact h
    · next w hi =>
      split
      · exact h
      · next hfree =>
        rw [Bool.or_eq_true, not_or, Bool.not_eq_true, Bool.not_eq_true] at hfree
        exact h.put ((h.writers i w hi).insert hdated allowed) fun _ j w' hne hj =>
          not_locked_of_free hfree.2 hj hne
  | other i fails =>
    unfold Audit.step
    dsimp only
    split
    · exact h
    · next w hi =>
      split
      · exact h
      · have hw := h.writers i w hi
        exact h.put_of_le hi ⟨hw.locked, hw.saved, hw.held, hw.order, hw.chained, hw.readable⟩ id
  | savepoint i =>
    unfold Audit.step
    dsimp only
    split
    · exact h
    · next w hi =>
      split
      · exact h
      · have hw := h.writers i w hi
        refine h.put_of_le hi ⟨hw.locked, ?_, ?_, ?_, hw.chained, hw.readable⟩ id
        · intro p hp hpos
          rcases mem_cons.1 hp with rfl | hp
          · exact hw.locked (length_pos_iff.1 hpos)
          · exact hw.saved p hp hpos
        · intro p hp hlocked
          rcases mem_cons.1 hp with rfl | hp
          · exact hlocked
          · exact hw.held p hp hlocked
        · exact pairwise_cons.2 ⟨hw.held, hw.order⟩
  | release i =>
    unfold Audit.step
    dsimp only
    split
    · exact h
    · next w hi =>
      split
      · exact h
      · have hw := h.writers i w hi
        exact h.put_of_le hi ⟨hw.locked, fun p hp => hw.saved p (mem_of_mem_tail hp),
          fun p hp => hw.held p (mem_of_mem_tail hp), hw.order.tail, hw.chained, hw.readable⟩ id
  | rollbackTo i depth keeps =>
    unfold Audit.step
    dsimp only
    split
    · exact h
    · next w hi =>
      have hw := h.writers i w hi
      refine h.put_of_le hi (hw.rollbackTo depth keeps) fun hlocked => ?_
      unfold Writer.rollbackTo at hlocked
      split at hlocked
      · exact hlocked
      · next p ps hdrop =>
        have hp : p ∈ w.savepoints := mem_of_mem_drop (hdrop ▸ mem_cons_self)
        rcases Bool.or_eq_true_iff.1 hlocked with hsaved | hkept
        · exact hw.held p hp hsaved
        · exact (Bool.and_eq_true_iff.1 hkept).2
  | commit i =>
    unfold Audit.step
    dsimp only
    split
    · exact h
    · next w hi =>
      split
      · exact h.drop i
      · exact h.commit hi
  | abort i => exact h.drop i
  | verify v =>
    unfold Audit.step
    dsimp only
    split
    · exact h
    · refine ⟨h.chained, h.readable, h.writers, h.one, ?_, h.verdicts⟩
      intro v' t ht
      rw [Table.get?_upsert] at ht
      split at ht
      · cases ht
        exact scanned_init s.rows
      · exact h.scans v' t ht
  | batch v =>
    unfold Audit.step
    dsimp only
    split
    · exact h
    · next t ht =>
      obtain ⟨k, hk, rfl⟩ := h.scans v t ht
      rcases batch_chained h.chained h.readable hk with ⟨verdict, hbatch, hok⟩ | ⟨k', -, hk', hbatch⟩
      · rw [hbatch]
        refine ⟨h.chained, h.readable, h.writers, h.one, ?_, ?_⟩
        · intro v' t' ht'
          rw [Table.get?_delete, Option.filter_eq_some_iff] at ht'
          exact h.scans v' t' ht'.1
        · intro verdict' hv'
          rcases mem_append.1 hv' with hv' | hv'
          · exact h.verdicts verdict' hv'
          · rw [mem_singleton.1 hv']
            exact hok
      · rw [hbatch]
        refine ⟨h.chained, h.readable, h.writers, h.one, ?_, h.verdicts⟩
        intro v' t' ht'
        rw [Table.get?_upsert] at ht'
        split at ht'
        · cases ht'
          exact ⟨k', hk', rfl⟩
        · exact h.scans v' t' ht'

/-! ## Every run -/

theorem inv_atRest {old : List Row} (h : ∀ r ∈ old, r.chainSeq = none) : Inv sha (atRest old) := by
  have hnone : chainedRows old = [] := by
    unfold chainedRows
    rw [filter_eq_nil_iff]
    intro r hr
    rw [h r hr]
    exact Bool.false_ne_true
  refine ⟨?_, ?_, ?_, ?_, ?_, ?_⟩
  · show Linked _ 0 none (chainedRows old)
    rw [hnone]
    trivial
  · intro r hr
    rw [show chainedRows (atRest old).rows = [] from hnone] at hr
    cases hr
  · intro i w hw
    cases hw
  · intro i j w w' hw
    cases hw
  · intro v t ht
    cases ht
  · intro v hv
    cases hv

theorem Inv.verdict (h : Inv sha s) {v : Nat} {t : Scan} (ht : s.scans.get? v = some t) :
    ∃ n verdict, (run (Audit.step sha) s (List.replicate n (.batch v))).verdicts = s.verdicts ++ [verdict] ∧
      verdict.ok = true := by
  obtain ⟨k, hk, rfl⟩ := h.scans v t ht
  induction hm : (chainedRows s.rows).length - k using Nat.strong_induction_on generalizing s k with
  | _ m ih =>
    rcases batch_chained h.chained h.readable hk with ⟨verdict, hbatch, hok⟩ | ⟨k', hlt, hk', hbatch⟩
    · refine ⟨1, verdict, ?_, hok⟩
      show (Audit.step sha s (.batch v)).verdicts = _
      unfold Audit.step
      dsimp only
      rw [ht]
      dsimp only
      rw [hbatch]
    · have hstep : Audit.step sha s (.batch v) =
          { s with scans := s.scans.upsert v (scanAt k' (endHash none ((chainedRows s.rows).take k')) k') } := by
        unfold Audit.step
        dsimp only
        rw [ht]
        dsimp only
        rw [hbatch]
      have hnext : Inv sha (Audit.step sha s (.batch v)) := h.step rfl
      rw [hstep] at hnext
      obtain ⟨n, verdict, hrun, hok⟩ := ih _ (by rw [← hm]; show (chainedRows s.rows).length - k' < _; omega)
        hnext k' hk' (by simp) rfl
      refine ⟨n + 1, verdict, ?_, hok⟩
      show (run (Audit.step sha) (Audit.step sha s (.batch v)) _).verdicts = _
      rw [hstep]
      exact hrun

/-- **The audit chain.**  Whatever writers and verifiers do, in whatever order, the committed rows are one
chain, every verdict is good, and a verifier that is left alone comes to one. -/
theorem audit_chain_of_writers (sha : String → String) (old : List Row) (hold : ∀ r ∈ old, r.chainSeq = none)
    (acts : List Act) (hdated : ∀ act ∈ acts, act.dated = true) :
    Always (step sha) (fun s => Chained sha s.rows ∧ (∀ v ∈ s.verdicts, v.ok = true) ∧
      ∀ v t, s.scans.get? v = some t → ∃ n verdict,
        (run (step sha) s (List.replicate n (.batch v))).verdicts = s.verdicts ++ [verdict] ∧
          verdict.ok = true) (atRest old) acts := by
  have hall : Along (step sha) (fun _ act => act.dated = true) (atRest old) acts := along_of_forall hdated
  have hinv : Always (step sha) (Inv sha) (atRest old) acts :=
    hall.always (fun s act h hd => h.step hd) (inv_atRest hold)
  exact hinv.mono fun s h => ⟨h.chained, h.verdicts, fun v t ht => h.verdict ht⟩

theorem idOne_hex : "00000000-0000-0000-0000-000000000001".toList.all hexOrDash = true := by decide

def idOne : Uuid := ⟨"00000000-0000-0000-0000-000000000001", idOne_hex⟩
def idTwo : Uuid := ⟨"00000000-0000-0000-0000-000000000002", by decide⟩

def sampleTime : Stamp := ⟨2026, 1, 2, 3, 4, 5, 6⟩

def sampleRow (id : Uuid) : Columns :=
  ⟨id, none, some "admin:1", some .staff, some "tenant.update", some "tenant", some "t1", some "\x7b\x7d",
    some sampleTime, some "POST", some "/admin/tenants", some 200⟩

/-- The text of a sample row from `tenant_id` on. -/
def sampleTail : String :=
  "|admin:1|staff|tenant.update|tenant|t1|\x7b\x7d|2026-01-02T03:04:05.000006Z|POST|/admin/tenants|200"

def firstHash : String := "0928701fac36f7dcb7039f34d96e4b9f48345874226bab55d205bfd5575c7a4b"
def secondHash : String := "e98ec70edeb299fbf09c97e822b15abb88696e82f0f349892c008ff3d40041b0"

/-- SHA-256 on the texts that the run below hashes. -/
def sha256Sample (text : String) : String :=
  if text = "|00000000-0000-0000-0000-000000000001|1|" ++ sampleTail then firstHash
  else if text = firstHash ++ "|00000000-0000-0000-0000-000000000002|2|" ++ sampleTail then secondHash
  else if text = "|00000000-0000-0000-0000-000000000002|1|" ++ sampleTail then
    "d34f80308f2c091989b502bff813bc08248c12f44705340d4d559fbed5eb7795"
  else ""

/-- Two writers: the second inserts once the first has committed, and a rolled back row is gone. -/
def twoWriters : List Act :=
  [.start 1, .start 2, .savepoint 1, .insert 1 sampleTime (sampleRow idTwo) true, .rollbackTo 1 0 false,
    .insert 1 sampleTime (sampleRow idOne) true, .insert 2 sampleTime (sampleRow idTwo) true, .verify 1,
    .commit 1, .insert 2 sampleTime (sampleRow idTwo) true, .commit 2]

theorem audit_chain_twoWriters : (∀ act ∈ twoWriters, act.dated = true) ∧
      Chained sha256Sample (run (step sha256Sample) (atRest []) twoWriters).rows ∧
      (run (step sha256Sample) (atRest []) twoWriters).rows.map Row.rowHash = [some firstHash, some secondHash] := by
  have hdated : ∀ act ∈ twoWriters, act.dated = true := by decide +kernel
  have hall := audit_chain_of_writers sha256Sample [] (fun r hr => by cases hr) twoWriters hdated
  refine ⟨hdated, hall.run.1, ?_⟩
  decide +kernel

end CisApp.Audit
