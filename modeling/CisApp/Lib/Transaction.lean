import CisApp.Lib.Table

/-!
# Transactions with row locks under READ COMMITTED

A transaction is a list of statements.  Each statement sees the committed rows
overlaid with the transaction's own writes at the moment it runs, waits while
another transaction holds a lock on a row that it needs, and may put further
statements in front of the rest (the rows that a statement found in its snapshot,
visited one by one).  Own writes are committed together.

* `Service`: the statements of each request and what one statement does.
* `Service.step`: begin, one statement, commit or roll back, of any transaction in any
  order.
* `LockInv`: rows locked exclusively are locked by nobody else, and own writes are
  to rows so locked.  So a lock keeps the row as it is (`LockInv.get?_rows`).
* `AloneInv`: a transaction since whose begin nothing was committed has done
  what it would have done alone.
-/

namespace CisApp.Lib

open List

/-- The rows after the writes `own`, in their order. -/
def overlay {κ ν : Type} [DecidableEq κ] (rows : Table κ ν) (own : List (κ × ν)) : Table κ ν :=
  own.foldl (fun t e => t.upsert e.1 e.2) rows

/-- What a statement does: the locks it takes (`true` for exclusive), the rows it writes, the
statements that come next, and the local data afterwards. -/
structure Effect (κ ν ι μ : Type) where
  takes : List (κ × Bool) := []
  writes : List (κ × ν) := []
  more : List ι := []
  data : μ

/-- What the requests `α` to a service do, as statements `ι` over rows `κ ↦ ν`, with the local data
`μ` of a transaction and the rest of the database `δ`. -/
structure Service (κ ν ι μ δ α ε : Type) where
  program : α → List ι
  data : α → μ
  needs : ι → List (κ × Bool)
  /-- An uncommitted write of another transaction keeps the statement waiting. -/
  waits : Table κ ν → ι → κ × ν → Bool
  exec : δ → Table κ ν → μ → ι → Except ε (Effect κ ν ι μ)
  /-- What a commit adds to the rest of the database; the number is when the transaction began. -/
  commit : δ → Nat → μ → δ

structure Txn (κ ν ι μ : Type) where
  todo : List ι
  own : List (κ × ν)
  held : List (κ × Bool)
  start : Nat
  data : μ

structure Sys (κ ν ι μ δ : Type) where
  rows : Table κ ν
  shared : δ
  txns : Table Nat (Txn κ ν ι μ)
  clock : Nat
  /-- When the last commit was. -/
  last : Nat

inductive Label (α : Type) where
  | start (i : Nat) (a : α)
  | advance (i : Nat)
  | commit (i : Nat)
  | abort (i : Nat)
deriving Repr, DecidableEq

def clash {κ : Type} [DecidableEq κ] (h h' : κ × Bool) : Bool := h.1 = h'.1 && (h.2 || h'.2)

section system

variable {κ ν ι μ δ α ε : Type} [DecidableEq κ]

def Txn.sees (x : Txn κ ν ι μ) (rows : Table κ ν) : Table κ ν := overlay rows x.own

def Txn.apply (x : Txn κ ν ι μ) (e : Effect κ ν ι μ) (rest : List ι) : Txn κ ν ι μ :=
  { x with
    todo := e.more ++ rest
    own := x.own ++ e.writes
    held := e.takes ++ x.held
    data := e.data }

variable (V : Service κ ν ι μ δ α ε)

def Service.first (a : α) (start : Nat) : Txn κ ν ι μ :=
  ⟨V.program a, [], [], start, V.data a⟩

/-- A statement waits for the locks of others on the rows it needs, and for their writes. -/
def Service.blocked (s : Sys κ ν ι μ δ) (i : Nat) (st : ι) : Bool :=
  s.txns.rows.any fun e => e.1 ≠ i &&
    ((V.needs st).any (fun n => e.2.held.any (clash n)) || e.2.own.any (V.waits s.rows st))

def Service.step (s : Sys κ ν ι μ δ) : Label α → Sys κ ν ι μ δ
  | .start i a =>
    if (s.txns.get? i).isSome then s
    else { s with txns := s.txns.upsert i (V.first a s.clock), clock := s.clock + 1 }
  | .advance i =>
    match s.txns.get? i with
    | none => s
    | some x =>
      match x.todo with
      | [] => s
      | st :: rest =>
        if V.blocked s i st then s
        else
          match V.exec s.shared (x.sees s.rows) x.data st with
          | .error _ => { s with txns := s.txns.delete fun j _ => j = i }
          | .ok e => { s with txns := s.txns.upsert i (x.apply e rest) }
  | .commit i =>
    match s.txns.get? i with
    | none => s
    | some x =>
      if x.todo.isEmpty then
        { rows := x.sees s.rows
          shared := V.commit s.shared x.start x.data
          txns := s.txns.delete fun j _ => j = i
          clock := s.clock + 1
          last := s.clock }
      else s
  | .abort i => { s with txns := s.txns.delete fun j _ => j = i }

/-! ## What a step does -/

@[simp] theorem get?_overlay (rows : Table κ ν) (own : List (κ × ν)) (k : κ) :
    (overlay rows own).get? k = (own.reverse.lookup k).or (rows.get? k) := by
  unfold overlay
  induction own generalizing rows with
  | nil => rfl
  | cons e l ih =>
    rw [foldl_cons, ih, Table.get?_upsert, reverse_cons, lookup_append, lookup_cons]
    by_cases hk : k = e.1
    · subst hk
      cases l.reverse.lookup e.1 <;> simp
    · have : (k == e.1) = false := by simpa using hk
      rw [if_neg hk, this]
      cases l.reverse.lookup k <;> simp

theorem sees_apply (x : Txn κ ν ι μ) (e : Effect κ ν ι μ) (rest : List ι) (rows : Table κ ν) :
    (x.apply e rest).sees rows = overlay (x.sees rows) e.writes := by
  unfold Txn.sees Txn.apply overlay
  rw [foldl_append]

variable {k : κ}

theorem mem_of_lookup_reverse {l : List (κ × ν)} {v : ν} (h : l.reverse.lookup k = some v) : (k, v) ∈ l := by
  obtain ⟨l₁, l₂, heq, -⟩ := List.lookup_eq_some_iff.1 h
  rw [← mem_reverse, heq]
  simp

variable {y : Txn κ ν ι μ}

theorem txns_cases {s : Sys κ ν ι μ δ} {l : Label α} {j : Nat} (h : (V.step s l).txns.get? j = some y) :
    s.txns.get? j = some y ∨ (∃ a, l = .start j a ∧ s.txns.get? j = none ∧ y = V.first a s.clock) ∨
      ∃ x st rest e, l = .advance j ∧ s.txns.get? j = some x ∧ x.todo = st :: rest ∧
        V.blocked s j st = false ∧ V.exec s.shared (x.sees s.rows) x.data st = .ok e ∧ y = x.apply e rest := by
  have hdel : ∀ i, (s.txns.delete fun j _ => j = i).get? j = some y → s.txns.get? j = some y := by
    intro i hi
    rw [Table.get?_delete, Option.filter_eq_some_iff] at hi
    exact hi.1
  cases l with
  | start i a =>
    unfold Service.step at h
    dsimp only at h
    split at h
    · exact Or.inl h
    · next hnone =>
      rw [Table.get?_upsert] at h
      split at h
      · next hji =>
        subst hji
        refine Or.inr (Or.inl ⟨a, rfl, ?_, (Option.some.inj h).symm⟩)
        simpa using hnone
      · exact Or.inl h
  | advance i =>
    unfold Service.step at h
    dsimp only at h
    split at h
    · exact Or.inl h
    · next x hx =>
      split at h
      · exact Or.inl h
      · next st rest htodo =>
        split at h
        · exact Or.inl h
        · next hfree =>
          split at h
          · exact Or.inl (hdel i h)
          · next e he =>
            rw [Table.get?_upsert] at h
            split at h
            · next hji =>
              subst hji
              exact Or.inr (Or.inr ⟨x, st, rest, e, rfl, hx, htodo, by simpa using hfree, he,
                (Option.some.inj h).symm⟩)
            · exact Or.inl h
  | commit i =>
    unfold Service.step at h
    dsimp only at h
    split at h
    · exact Or.inl h
    · split at h
      · exact Or.inl (hdel i h)
      · exact Or.inl h
  | abort i => exact Or.inl (hdel i h)

theorem commit_cases (s : Sys κ ν ι μ δ) (l : Label α) :
    ((V.step s l).rows = s.rows ∧ (V.step s l).shared = s.shared ∧ (V.step s l).last = s.last) ∨
      ∃ i x, l = .commit i ∧ s.txns.get? i = some x ∧ x.todo = [] ∧
        (V.step s l).rows = x.sees s.rows ∧ (V.step s l).shared = V.commit s.shared x.start x.data ∧
        (V.step s l).last = s.clock ∧ (V.step s l).txns.get? i = none := by
  cases l with
  | start i a =>
    left
    unfold Service.step
    dsimp only
    split <;> exact ⟨rfl, rfl, rfl⟩
  | advance i =>
    left
    unfold Service.step
    dsimp only
    split
    · exact ⟨rfl, rfl, rfl⟩
    · split
      · exact ⟨rfl, rfl, rfl⟩
      · split
        · exact ⟨rfl, rfl, rfl⟩
        · split <;> exact ⟨rfl, rfl, rfl⟩
  | commit i =>
    unfold Service.step
    dsimp only
    cases hx : s.txns.get? i with
    | none => exact Or.inl ⟨rfl, rfl, rfl⟩
    | some x =>
      by_cases hnil : x.todo.isEmpty = true
      · right
        refine ⟨i, x, rfl, hx, by simpa using hnil, ?_⟩
        dsimp only
        rw [if_pos hnil]
        refine ⟨rfl, rfl, rfl, ?_⟩
        simp
      · left
        dsimp only
        rw [if_neg hnil]
        exact ⟨rfl, rfl, rfl⟩
  | abort i => exact Or.inl ⟨rfl, rfl, rfl⟩

theorem clock_le (s : Sys κ ν ι μ δ) (l : Label α) : s.clock ≤ (V.step s l).clock := by
  cases l with
  | start i a =>
    unfold Service.step
    dsimp only
    split
    · exact le_refl _
    · exact Nat.le_succ _
  | advance i =>
    unfold Service.step
    dsimp only
    split
    · exact le_refl _
    · split
      · exact le_refl _
      · split
        · exact le_refl _
        · split <;> exact le_refl _
  | commit i =>
    unfold Service.step
    dsimp only
    split
    · exact le_refl _
    · split
      · exact Nat.le_succ _
      · exact le_refl _
  | abort i => exact le_refl _

/-! ## Locks -/

/-- Statements lock what they said they need, and write only what they lock exclusively. -/
structure Service.Lawful : Prop where
  takes : ∀ d rows data st e, V.exec d rows data st = .ok e → ∀ h ∈ e.takes, h ∈ V.needs st
  writes : ∀ d rows data st e, V.exec d rows data st = .ok e → ∀ w ∈ e.writes, (w.1, true) ∈ e.takes

structure LockInv (s : Sys κ ν ι μ δ) : Prop where
  apart : ∀ i j x y, i ≠ j → s.txns.get? i = some x → s.txns.get? j = some y →
    ∀ h ∈ x.held, ∀ h' ∈ y.held, clash h h' = false
  own : ∀ i x, s.txns.get? i = some x → ∀ w ∈ x.own, (w.1, true) ∈ x.held

theorem clash_comm (h h' : κ × Bool) : clash h h' = clash h' h := by
  unfold clash
  rw [Bool.or_comm, show decide (h.1 = h'.1) = decide (h'.1 = h.1) from decide_eq_decide.2 eq_comm]

variable {i : Nat}

theorem not_clash_of_free {s : Sys κ ν ι μ δ} {j : Nat} {st : ι}
    (hfree : V.blocked s i st = false) (hij : i ≠ j) (hy : s.txns.get? j = some y) :
    ∀ n ∈ V.needs st, ∀ h ∈ y.held, clash n h = false := by
  intro n hn h hh
  have hrow := (Table.get?_eq_some_iff _ _ _).1 hy
  unfold Service.blocked at hfree
  rw [any_eq_false] at hfree
  have hone := hfree (j, y) hrow
  rw [Bool.and_eq_true, not_and, decide_eq_true_eq, Bool.or_eq_true, not_or] at hone
  have hneeds := (hone (Ne.symm hij)).1
  rw [any_eq_true] at hneeds
  by_contra hclash
  rw [Bool.not_eq_false] at hclash
  exact hneeds ⟨n, hn, List.any_eq_true.2 ⟨h, hh, hclash⟩⟩

variable {V} {s : Sys κ ν ι μ δ}

theorem lockInv_init (rows : Table κ ν) (shared : δ) : LockInv (⟨rows, shared, Table.empty, 1, 0⟩ : Sys κ ν ι μ δ) := by
  constructor
  · intro i j x y _ hx
    cases hx
  · intro i x hx
    cases hx

theorem LockInv.step (h : LockInv s) (hV : V.Lawful) (l : Label α) : LockInv (V.step s l) := by
  constructor
  · -- of two transactions one moved, and took what nobody else has
    have hmoved : ∀ i j x y, i ≠ j → (V.step s l).txns.get? i = some x → s.txns.get? j = some y →
        ∀ h ∈ x.held, ∀ h' ∈ y.held, clash h h' = false := by
      intro i j x y hij hx hy
      rcases txns_cases V hx with hx | ⟨a, -, -, rfl⟩ | ⟨x₀, st, rest, e, -, hx₀, -, hfree, hexec, rfl⟩
      · exact h.apart i j x y hij hx hy
      · exact fun _ hin => absurd hin not_mem_nil
      · intro k hk k' hk'
        rcases List.mem_append.1 hk with hk | hk
        · exact not_clash_of_free V hfree hij hy k (hV.takes _ _ _ _ _ hexec k hk) k' hk'
        · exact h.apart i j x₀ y hij hx₀ hy k hk k' hk'
    intro i j x y hij hx hy k hk k' hk'
    rcases txns_cases V hy with hy | ⟨a, -, -, rfl⟩ | ⟨y₀, st, rest, e, rfl, hy₀, -, hfree, hexec, rfl⟩
    · exact hmoved i j x y hij hx hy k hk k' hk'
    · exact absurd hk' not_mem_nil
    · -- the other one moved, so this one did not
      have hx' : s.txns.get? i = some x := by
        rcases txns_cases V hx with hx | ⟨a, ha, -, -⟩ | ⟨x₀, st', rest', e', ha, -⟩
        · exact hx
        · cases ha
        · exact absurd (Label.advance.inj ha).symm hij
      rw [clash_comm]
      exact hmoved j i _ x (Ne.symm hij) hy hx' k' hk' k hk
  · intro i x hx w hw
    rcases txns_cases V hx with hx | ⟨a, -, -, rfl⟩ | ⟨x₀, st, rest, e, -, hx₀, -, -, hexec, rfl⟩
    · exact h.own i x hx w hw
    · exact absurd hw not_mem_nil
    · show (w.1, true) ∈ e.takes ++ x₀.held
      rcases List.mem_append.1 hw with hw | hw
      · exact mem_append_right _ (h.own i x₀ hx₀ w hw)
      · exact mem_append_left _ (hV.writes _ _ _ _ _ hexec w hw)

variable {x : Txn κ ν ι μ}

theorem LockInv.not_own (h : LockInv s) {j : Nat} (hij : i ≠ j)
    (hx : s.txns.get? i = some x) (hy : s.txns.get? j = some y) {b : Bool}
    (hk : (k, b) ∈ x.held) : ∀ v, (k, v) ∉ y.own := by
  intro v hv
  have := h.apart i j x y hij hx hy _ hk _ (h.own j y hy (k, v) hv)
  unfold clash at this
  simp at this

theorem lookup_reverse_eq_none {l : List (κ × ν)} (h : ∀ v, (k, v) ∉ l) : l.reverse.lookup k = none := by
  by_contra hne
  obtain ⟨v, hv⟩ := Option.ne_none_iff_exists'.1 hne
  exact h v (mem_of_lookup_reverse hv)

theorem LockInv.get?_rows (h : LockInv s) {l : Label α}
    (hx : s.txns.get? i = some x) (hy : (V.step s l).txns.get? i = some y) {b : Bool}
    (hk : (k, b) ∈ x.held) : (V.step s l).rows.get? k = s.rows.get? k := by
  rcases commit_cases V s l with ⟨hrows, -⟩ | ⟨j, z, -, hz, -, hrows, -, -, hend⟩
  · rw [hrows]
  · have hij : i ≠ j := by
      rintro rfl
      rw [hy] at hend
      cases hend
    rw [hrows, Txn.sees, get?_overlay, lookup_reverse_eq_none (h.not_own hij hx hz hk), Option.none_or]

theorem LockInv.frame (h : LockInv s) {l : Label α}
    (hx : s.txns.get? i = some x) (hy : (V.step s l).txns.get? i = some x) (k : κ) :
    ((V.step s l).rows.get? k = s.rows.get? k ∧ (x.sees (V.step s l).rows).get? k = (x.sees s.rows).get? k) ∨
      ((x.sees (V.step s l).rows).get? k = (V.step s l).rows.get? k ∧ (x.sees s.rows).get? k = s.rows.get? k) := by
  by_cases hown : ∃ v, (k, v) ∈ x.own
  · left
    obtain ⟨v, hv⟩ := hown
    have hrows := h.get?_rows hx hy (h.own i x hx (k, v) hv)
    refine ⟨hrows, ?_⟩
    rw [Txn.sees, Txn.sees, get?_overlay, get?_overlay, hrows]
  · right
    have hnone := lookup_reverse_eq_none (not_exists.1 hown)
    refine ⟨?_, ?_⟩ <;> rw [Txn.sees, get?_overlay, hnone, Option.none_or]

/-! ## Alone -/

variable (V) in
/-- One statement over fixed committed rows. -/
def Service.Local (d : δ) (rows : Table κ ν) (x y : Txn κ ν ι μ) : Prop :=
  ∃ st rest e, x.todo = st :: rest ∧ V.exec d (x.sees rows) x.data st = .ok e ∧ y = x.apply e rest

variable (V) in
/-- The statements that a transaction has run since it began, as if alone. -/
def Service.Alone (d : δ) (rows : Table κ ν) : Txn κ ν ι μ → Txn κ ν ι μ → Prop :=
  Relation.ReflTransGen (V.Local d rows)

/-- Every open transaction began before now, and if nothing was committed since, it has run alone. -/
structure AloneInv (V : Service κ ν ι μ δ α ε) (s : Sys κ ν ι μ δ) : Prop where
  last : s.last < s.clock
  start : ∀ i x, s.txns.get? i = some x → x.start < s.clock
  alone : ∀ i x, s.txns.get? i = some x → s.last < x.start →
    ∃ a, V.Alone s.shared s.rows (V.first a x.start) x

theorem aloneInv_init (rows : Table κ ν) (shared : δ) : AloneInv V (⟨rows, shared, Table.empty, 1, 0⟩ : Sys κ ν ι μ δ) := by
  refine ⟨?_, ?_, ?_⟩
  · show 0 < 1
    omega
  · intro i x hx
    cases hx
  · intro i x hx
    cases hx

theorem AloneInv.step (h : AloneInv V s) (l : Label α) : AloneInv V (V.step s l) := by
  have hclock := clock_le V s l
  have hstart : ∀ i x, (V.step s l).txns.get? i = some x → x.start < (V.step s l).clock := by
    intro i x hx
    rcases txns_cases V hx with hx | ⟨a, rfl, hnone, rfl⟩ | ⟨x₀, st, rest, e, -, hx₀, -, -, -, rfl⟩
    · have := h.start i x hx
      omega
    · unfold Service.step
      dsimp only
      rw [hnone, if_neg (by simp)]
      exact Nat.lt_succ_self _
    · have := h.start i x₀ hx₀
      show x₀.start < _
      omega
  rcases commit_cases V s l with ⟨hrows, hshared, hlast⟩ | ⟨i, x, rfl, hx, hnil, -, -, hlast, -⟩
  · refine ⟨?_, hstart, fun i x hx hfresh => ?_⟩
    · have := h.last
      omega
    · rw [hrows, hshared]
      rw [hlast] at hfresh
      rcases txns_cases V hx with hx | ⟨a, -, -, rfl⟩ | ⟨x₀, st, rest, e, -, hx₀, htodo, -, hexec, rfl⟩
      · exact h.alone i x hx hfresh
      · exact ⟨a, Relation.ReflTransGen.refl⟩
      · obtain ⟨a, ha⟩ := h.alone i x₀ hx₀ hfresh
        exact ⟨a, ha.tail ⟨st, rest, e, htodo, hexec, rfl⟩⟩
  · -- after a commit no open transaction is fresh
    refine ⟨?_, hstart, fun j y hy hfresh => ?_⟩
    · unfold Service.step
      dsimp only
      rw [hx]
      dsimp only
      rw [if_pos (by simpa using hnil)]
      exact Nat.lt_succ_self _
    · rcases txns_cases V hy with hy | ⟨a, hc, -⟩ | ⟨x₀, st, rest, e, hc, -⟩
      · have := h.start j y hy
        omega
      · cases hc
      · cases hc

variable (V) in
/-- The statements in order, over rows that nobody else changes. -/
inductive Service.Does (d : δ) : Table κ ν → μ → List ι → Table κ ν → μ → Prop
  | nil (rows : Table κ ν) (m : μ) : Service.Does d rows m [] rows m
  | cons {rows rows' : Table κ ν} {m m' : μ} {st : ι} {rest : List ι} {e : Effect κ ν ι μ}
      (hexec : V.exec d rows m st = .ok e)
      (hrest : Service.Does d (overlay rows e.writes) e.data (e.more ++ rest) rows' m') :
      Service.Does d rows m (st :: rest) rows' m'

variable {d : δ} {rows rows' : Table κ ν} {m m' : μ}

theorem Service.Does.next {st : ι} {rest : List ι} (h : V.Does d rows m (st :: rest) rows' m') :
    ∃ e, V.exec d rows m st = .ok e ∧ V.Does d (overlay rows e.writes) e.data (e.more ++ rest) rows' m' := by
  cases h with
  | cons hexec hrest => exact ⟨_, hexec, hrest⟩

theorem Service.Does.done (h : V.Does d rows m [] rows' m') : rows' = rows ∧ m' = m := by
  cases h
  exact ⟨rfl, rfl⟩

variable (V) in
/-- The statements in order, `n` of them at most. -/
def Service.play (d : δ) : Nat → Table κ ν → μ → List ι → Option (Table κ ν × μ)
  | _, rows, m, [] => some (rows, m)
  | 0, _, _, _ :: _ => none
  | n + 1, rows, m, st :: rest =>
    match V.exec d rows m st with
    | .error _ => none
    | .ok e => Service.play d n (overlay rows e.writes) e.data (e.more ++ rest)

variable {todo : List ι}

theorem does_of_play {n : Nat} {w : Table κ ν × μ}
    (h : V.play d n rows m todo = some w) : V.Does d rows m todo w.1 w.2 := by
  induction n generalizing rows m todo with
  | zero =>
    cases todo with
    | nil =>
      cases h
      exact Service.Does.nil _ _
    | cons st rest => cases h
  | succ n ih =>
    cases todo with
    | nil =>
      cases h
      exact Service.Does.nil _ _
    | cons st rest =>
      unfold Service.play at h
      split at h
      · cases h
      · next e he => exact Service.Does.cons he (ih h)

theorem Service.Does.keeps (P : ι → Prop) (I : Table κ ν → μ → Prop)
    (hstep : ∀ rows m st e, P st → V.exec d rows m st = .ok e → I rows m →
      (∀ st' ∈ e.more, P st') ∧ I (overlay rows e.writes) e.data) (h : V.Does d rows m todo rows' m')
    (hP : ∀ st ∈ todo, P st) (hI : I rows m) : I rows' m' := by
  induction h with
  | nil => exact hI
  | @cons rows rows' m m' st rest e hexec _ ih =>
    obtain ⟨hmore, hI'⟩ := hstep rows m st e (hP st mem_cons_self) hexec hI
    refine ih (fun st' hst' => ?_) hI'
    rcases List.mem_append.1 hst' with hst' | hst'
    · exact hmore st' hst'
    · exact hP st' (mem_cons_of_mem _ hst')

theorem Service.Does.invariant (P : ι → Prop) (I : Table κ ν → μ → Prop)
    (hmore : ∀ rows m st e, P st → V.exec d rows m st = .ok e → ∀ st' ∈ e.more, P st')
    (hstep : ∀ rows m st e, P st → V.exec d rows m st = .ok e → I rows m → I (overlay rows e.writes) e.data)
    (h : V.Does d rows m todo rows' m') (hP : ∀ st ∈ todo, P st) (hI : I rows m) : I rows' m' :=
  h.keeps P I (fun rows m st e hst hexec hI => ⟨hmore rows m st e hst hexec, hstep rows m st e hst hexec hI⟩) hP hI

theorem Service.Alone.does (h : V.Alone d rows x y)
    (hy : y.todo = []) : V.Does d (x.sees rows) x.data x.todo (y.sees rows) y.data := by
  induction h using Relation.ReflTransGen.head_induction_on with
  | refl =>
    rw [hy]
    exact Service.Does.nil _ _
  | head hstep _ ih =>
    obtain ⟨st, rest, e, htodo, hexec, rfl⟩ := hstep
    rw [htodo]
    refine Service.Does.cons hexec ?_
    rw [sees_apply] at ih
    exact ih

theorem Service.Does.append (h : V.Does d rows m todo rows' m') : ∀ l rest, todo = l ++ rest →
      ∃ rows₁ m₁, V.Does d rows m l rows₁ m₁ ∧ V.Does d rows₁ m₁ rest rows' m' := by
  induction h with
  | nil rows m =>
    intro l rest heq
    obtain ⟨rfl, rfl⟩ := List.append_eq_nil_iff.1 heq.symm
    exact ⟨rows, m, Service.Does.nil _ _, Service.Does.nil _ _⟩
  | @cons rows rows' m m' st todo e hexec hrest ih =>
    intro l rest heq
    cases l with
    | nil =>
      rw [nil_append] at heq
      exact ⟨rows, m, Service.Does.nil _ _, heq ▸ Service.Does.cons hexec hrest⟩
    | cons st' l =>
      obtain ⟨rfl, rfl⟩ := List.cons.inj heq
      obtain ⟨rows₁, m₁, hl, hr⟩ := ih (e.more ++ l) rest (append_assoc _ _ _).symm
      exact ⟨rows₁, m₁, Service.Does.cons hexec hl, hr⟩

variable (V) in
/-- The statements in order, each with the rows that it visits; `n` is how deep the visits go. -/
def Service.finish (d : δ) : Nat → Table κ ν → μ → List ι → Except ε (Table κ ν × μ)
  | 0, rows, m, _ => .ok (rows, m)
  | n + 1, rows, m, todo =>
    todo.foldlM (fun w st =>
      match V.exec d w.1 w.2 st with
      | .error err => .error err
      | .ok e => Service.finish d n (overlay w.1 e.writes) e.data e.more) (rows, m)

theorem finish_cons (d : δ) (n : Nat) (rows : Table κ ν) (m : μ) (st : ι) (rest : List ι) :
    V.finish d (n + 1) rows m (st :: rest) =
      match V.exec d rows m st with
      | .error err => .error err
      | .ok e =>
        match V.finish d n (overlay rows e.writes) e.data e.more with
        | .error err => .error err
        | .ok w => V.finish d (n + 1) w.1 w.2 rest := by
  rw [Service.finish, foldlM_cons]
  cases V.exec d rows m st with
  | error err => rfl
  | ok e =>
    dsimp only
    cases V.finish d n (overlay rows e.writes) e.data e.more with
    | error err => rfl
    | ok w => rfl

theorem finish_cons_ok {n : Nat} {st : ι} {rest : List ι}
    {r : Table κ ν × μ} (h : V.finish d (n + 1) rows m (st :: rest) = .ok r) :
    ∃ e w, V.exec d rows m st = .ok e ∧ V.finish d n (overlay rows e.writes) e.data e.more = .ok w ∧
      V.finish d (n + 1) w.1 w.2 rest = .ok r := by
  rw [finish_cons] at h
  split at h
  · cases h
  · next e he =>
    split at h
    · cases h
    · next w hw => exact ⟨e, w, he, hw, h⟩

variable (V) in
/-- A statement visits rows, and a visit ends there. -/
def Service.Shallow : Prop :=
  ∀ d rows m st e, V.exec d rows m st = .ok e → ∀ st' ∈ e.more,
    ∀ d rows m e', V.exec d rows m st' = .ok e' → e'.more = []

theorem Service.Does.finish (hV : V.Shallow) (h : V.Does d rows m todo rows' m') :
    V.finish d 2 rows m todo = .ok (rows', m') := by
  -- the rows that one statement visits
  have hvisits : ∀ (l : List ι), (∀ st ∈ l, ∀ d rows m e, V.exec d rows m st = .ok e → e.more = []) →
      ∀ rows m rows' m', V.Does d rows m l rows' m' → V.finish d 1 rows m l = .ok (rows', m') := by
    intro l
    induction l with
    | nil =>
      intro _ rows m rows' m' h
      obtain ⟨rfl, rfl⟩ := h.done
      rfl
    | cons st l ih =>
      intro hflat rows m rows' m' h
      obtain ⟨e, hexec, hrest⟩ := h.next
      rw [hflat st mem_cons_self _ _ _ _ hexec, nil_append] at hrest
      rw [finish_cons, hexec]
      exact ih (fun st' hst' => hflat st' (mem_cons_of_mem _ hst')) _ _ _ _ hrest
  induction todo generalizing rows m with
  | nil =>
    obtain ⟨rfl, rfl⟩ := h.done
    rfl
  | cons st rest ih =>
    obtain ⟨e, hexec, hrest⟩ := h.next
    obtain ⟨rows₁, m₁, hmore, hrest⟩ := hrest.append e.more rest rfl
    rw [finish_cons, hexec]
    dsimp only
    rw [hvisits e.more (hV _ _ _ _ _ hexec) _ _ _ _ hmore]
    exact ih hrest

theorem Service.Does.trans {rows₁ : Table κ ν} {m₁ : μ} {l rest : List ι}
    (hl : V.Does d rows m l rows₁ m₁) (hrest : V.Does d rows₁ m₁ rest rows' m') : V.Does d rows m (l ++ rest) rows' m' := by
  induction hl with
  | nil => exact hrest
  | cons hexec _ ih =>
    have hthen := ih hrest
    rw [append_assoc] at hthen
    exact Service.Does.cons hexec hthen

theorem does_total (hV : V.Shallow) (d : δ) (P : ι → Prop)
    (hmore : ∀ rows m st e, P st → V.exec d rows m st = .ok e → ∀ st' ∈ e.more, P st')
    (hok : ∀ rows m st, P st → ∃ e, V.exec d rows m st = .ok e) (todo : List ι)
    (hP : ∀ st ∈ todo, P st) (rows : Table κ ν) (m : μ) : ∃ rows' m', V.Does d rows m todo rows' m' := by
  have hvisits : ∀ l : List ι, (∀ st ∈ l, P st) →
      (∀ st ∈ l, ∀ d rows m e, V.exec d rows m st = .ok e → e.more = []) →
      ∀ rows m, ∃ rows' m', V.Does d rows m l rows' m' := by
    intro l
    induction l with
    | nil => exact fun _ _ rows m => ⟨rows, m, Service.Does.nil _ _⟩
    | cons st l ih =>
      intro hl hflat rows m
      obtain ⟨e, hexec⟩ := hok rows m st (hl st mem_cons_self)
      obtain ⟨rows', m', hrest⟩ := ih (fun st' hst' => hl st' (mem_cons_of_mem _ hst'))
        (fun st' hst' => hflat st' (mem_cons_of_mem _ hst')) (overlay rows e.writes) e.data
      refine ⟨rows', m', Service.Does.cons hexec ?_⟩
      rw [hflat st mem_cons_self _ _ _ _ hexec]
      exact hrest
  induction todo generalizing rows m with
  | nil => exact ⟨rows, m, Service.Does.nil _ _⟩
  | cons st rest ih =>
    have hst := hP st mem_cons_self
    obtain ⟨e, hexec⟩ := hok rows m st hst
    obtain ⟨rows₁, m₁, hfirst⟩ := hvisits e.more (hmore rows m st e hst hexec)
      (hV _ _ _ _ _ hexec) (overlay rows e.writes) e.data
    obtain ⟨rows', m', hrest⟩ := ih (fun st' hst' => hP st' (mem_cons_of_mem _ hst')) rows₁ m₁
    exact ⟨rows', m', Service.Does.cons hexec (hfirst.trans hrest)⟩

theorem does_of_finish (hV : V.Shallow) (h : V.finish d 2 rows m todo = .ok (rows', m')) :
    V.Does d rows m todo rows' m' := by
  have hvisits : ∀ (l : List ι), (∀ st ∈ l, ∀ d rows m e, V.exec d rows m st = .ok e → e.more = []) →
      ∀ rows m w, V.finish d 1 rows m l = .ok w → V.Does d rows m l w.1 w.2 := by
    intro l
    induction l with
    | nil =>
      intro _ rows m w h
      cases h
      exact Service.Does.nil _ _
    | cons st l ih =>
      intro hflat rows m w h
      obtain ⟨e, w₁, hexec, hmore, hrest⟩ := finish_cons_ok h
      cases hmore
      refine Service.Does.cons hexec ?_
      rw [hflat st mem_cons_self _ _ _ _ hexec]
      exact ih (fun st' hst' => hflat st' (mem_cons_of_mem _ hst')) _ _ _ hrest
  induction todo generalizing rows m with
  | nil =>
    cases h
    exact Service.Does.nil _ _
  | cons st rest ih =>
    obtain ⟨e, w, hexec, hmore, hrest⟩ := finish_cons_ok h
    refine Service.Does.cons hexec ?_
    exact (hvisits e.more (hV _ _ _ _ _ hexec) _ _ _ hmore).trans (ih hrest)

theorem Service.Does.alone (h : V.Does d rows m todo rows' m') : ∀ (base : Table κ ν) (x : Txn κ ν ι μ),
      x.sees base = rows → x.data = m → x.todo = todo →
      ∃ y, V.Alone d base x y ∧ y.todo = [] ∧ y.sees base = rows' ∧ y.data = m' := by
  induction h with
  | nil rows m =>
    intro base x hrows hm htodo
    exact ⟨x, Relation.ReflTransGen.refl, htodo, hrows, hm⟩
  | @cons rows rows' m m' st rest e hexec _ ih =>
    intro base x hrows hm htodo
    subst hrows hm
    obtain ⟨y, hy, hdone, hsees, hdata⟩ := ih base (x.apply e rest) (sees_apply _ _ _ _) rfl rfl
    exact ⟨y, hy.head ⟨st, rest, e, htodo, hexec, rfl⟩, hdone, hsees, hdata⟩

end system

end CisApp.Lib
