import CisApp.Jobs.Lifecycle

/-!
# The concurrency cap of a kind

A claim counts the running rows of the candidate's kind in the same statement
that makes it running, claims are serialised by the advisory lock, and no other
statement makes a row running (`Touch.running`).  So the number of running rows
of a kind stays within every bound on the caps its claims pass
(`running_le_cap`), whatever the other operations and however many workers with
different caps.

`claimCapsFor` is what a worker passes: its registered caps, without the
background kinds while slots are scarce.
-/

namespace CisApp.Jobs

open List

/-! ## The caps a worker passes -/

def backgroundReserve : Int := 2
def backgroundMaxRunning : Int := 1

def backgroundReserveFor (maxParallel : Int) : Int := min backgroundReserve (max (maxParallel - 1) 0)

/-- The caps passed to `claim`: all of `caps`, or only the kinds that are not in
`background`. -/
def claimCapsFor (maxParallel : Int) (caps : List (String × Int)) (freeSlots runningBackground : Int)
    (background : List String) : List (String × Int) :=
  if freeSlots ≤ backgroundReserveFor maxParallel ∨ backgroundMaxRunning ≤ runningBackground then
    caps.filter fun x => !background.contains x.1
  else caps

variable {kind : String}

theorem lookup_filter_le {caps : List (String × Int)} {p : String → Bool} {cap : Int}
    (h : (caps.filter fun x => p x.1).lookup kind = some cap) : caps.lookup kind = some cap := by
  induction caps with
  | nil => simp at h
  | cons x caps ih =>
    obtain ⟨k, c⟩ := x
    by_cases hp : p k = true
    · rw [filter_cons_of_pos (by simpa using hp), lookup_cons] at h
      rw [lookup_cons]
      cases hk : kind == k with
      | true =>
        rw [hk] at h
        exact h
      | false =>
        rw [hk] at h
        exact ih h
    · rw [filter_cons_of_neg (by simpa using hp)] at h
      rw [lookup_cons]
      cases hk : kind == k with
      | true =>
        -- a kind that was filtered out is in no entry that is left
        obtain rfl : kind = k := by simpa using hk
        obtain ⟨l₁, l₂, he, -⟩ := lookup_eq_some_iff.1 h
        have hm : (kind, cap) ∈ caps.filter fun x => p x.1 := by
          rw [he]
          simp
        exact absurd (mem_filter.1 hm).2 hp
      | false => exact ih h

theorem claimCapsFor_lookup {maxParallel freeSlots runningBackground : Int}
    {caps : List (String × Int)} {background : List String} {cap : Int}
    (h : (claimCapsFor maxParallel caps freeSlots runningBackground background).lookup kind =
      some cap) : caps.lookup kind = some cap := by
  unfold claimCapsFor at h
  split at h
  · exact lookup_filter_le (p := fun k => !background.contains k) h
  · exact h

/-! ## The cap holds -/

/-- The cap the operation passes for `kind`, if it is a claim, is at most `c`. -/
def CapWithin (kind : String) (c : Nat) : QueueOp → Prop
  | .claim _ _ caps _ _ => ∀ cap, caps.lookup kind = some cap → cap ≤ c
  | _ => True

theorem isRunningOf_iff {k : JobId} {r : JobRow} : isRunningOf kind k r = true ↔ r.kind = kind ∧ r.status = .running := by
  simp [isRunningOf]

theorem running_after {t : JobTable} {op : QueueOp} {k : JobId} {r' : JobRow}
    (hr' : (step t op).get? k = some r') (hrun : isRunningOf kind k r' = true) :
    (∃ r, t.get? k = some r ∧ isRunningOf kind k r = true) ∨
      ∃ now worker caps lease locked r, op = .claim now worker caps lease locked ∧
        claimable t now caps locked = some (k, r) ∧ r.kind = kind := by
  obtain ⟨hkind, hs⟩ := isRunningOf_iff.1 hrun
  rcases step_cases hr' with ⟨r, hr, rfl | h⟩ | hi
  · exact Or.inl ⟨r', hr, hrun⟩
  · rcases h.running hs with hs' | ⟨now, worker, caps, lease, locked, hop, hc⟩
    · exact Or.inl ⟨r, hr, isRunningOf_iff.2 ⟨h.kind_eq ▸ hkind, hs'⟩⟩
    · exact Or.inr ⟨now, worker, caps, lease, locked, r, hop, hc, h.kind_eq ▸ hkind⟩
  · cases hi with
    | enqueue => cases hs

theorem runningCount_step (kind : String) (c : Nat) (t : JobTable) (op : QueueOp)
    (hop : CapWithin kind c op) (h : runningCount t kind ≤ c) : runningCount (step t op) kind ≤ c := by
  by_cases hclaim : ∃ now worker caps lease locked k r, op = .claim now worker caps lease locked ∧
      claimable t now caps locked = some (k, r) ∧ r.kind = kind
  · -- the claim takes a row of the kind: it counted fewer than its cap before
    obtain ⟨now, worker, caps, lease, locked, k, r, rfl, hc, hkind⟩ := hclaim
    obtain ⟨-, hel, -, -⟩ := claimable_spec hc
    obtain ⟨-, -, -, cap, hcap, hlt⟩ := eligible_iff.1 hel
    rw [hkind] at hcap hlt
    have hle := hop cap hcap
    have hsucc : runningCount (step t (.claim now worker caps lease locked)) kind ≤
        runningCount t kind + 1 := by
      refine Table.count_le_succ k fun k' r' hr' hrun => ?_
      rcases running_after hr' hrun with hold | ⟨_, _, _, _, _, r₀, he, hc', -⟩
      · exact Or.inr hold
      · cases he
        rw [hc] at hc'
        cases hc'
        exact Or.inl rfl
    omega
  · refine le_trans (Table.count_le fun k' r' hr' hrun => ?_) h
    rcases running_after hr' hrun with hold | ⟨_, _, _, _, _, r₀, he, hc', hk⟩
    · exact hold
    · exact absurd ⟨_, _, _, _, _, k', r₀, he, hc', hk⟩ hclaim

/-- What a claim that returns a job took: a queued, due, uncancelled row of a
kind in the caps that no other transaction locks, and none of the eligible rows
that are not locked comes before it. -/
def ClaimSound (t : JobTable) : QueueOp → Prop
  | .claim now worker caps lease locked =>
    ∀ job, (claim t now worker caps lease locked).2 = some job →
      ∃ r, t.get? job.id = some r ∧ r.status = .queued ∧ r.runAfter ≤ now ∧
        r.cancelRequested = false ∧ (caps.lookup r.kind).isSome ∧ job.id ∉ locked ∧
        ∀ k' r', t.get? k' = some r' → eligible t now caps k' r' = true → k' ∉ locked →
          r.runAfter < r'.runAfter ∨ (r.runAfter = r'.runAfter ∧ r.createdAt ≤ r'.createdAt)
  | _ => True

theorem claim_sound (t : JobTable) (op : QueueOp) : ClaimSound t op := by
  cases op with
  | claim now worker caps lease locked =>
    intro job hjob
    simp only [claim] at hjob
    cases hc : claimable t now caps locked with
    | none =>
      rw [hc] at hjob
      cases hjob
    | some x =>
      obtain ⟨k, r⟩ := x
      rw [hc] at hjob
      cases hjob
      obtain ⟨hr, hel, hlock, hmin⟩ := claimable_spec hc
      obtain ⟨h1, h2, h3, cap, hcap, -⟩ := eligible_iff.1 hel
      refine ⟨r, hr, h1, h2, h3, by rw [hcap]; rfl, hlock, fun k' r' hr' hel' hl' => ?_⟩
      exact dueBefore_iff.1 (hmin k' r' hr' hel' hl')
  | _ => trivial

/-- **The cap.**  If every claim of a run passes at most `c` for `kind`, at most
`c` rows of the kind run in every state reached; and every claim takes the first
eligible row. -/
theorem running_le_cap (kind : String) (c : Nat) (ops : List QueueOp) (hcaps : ∀ op ∈ ops, CapWithin kind c op) :
    Always step (fun t => runningCount t kind ≤ c) Table.empty ops ∧ Along step ClaimSound Table.empty ops := by
  have hwithin : Along step (fun _ op => CapWithin kind c op) Table.empty ops :=
    along_of_forall hcaps
  have hcount : Always step (fun t => runningCount t kind ≤ c) Table.empty ops := by
    refine Along.always ?_ (Nat.zero_le c) hwithin
    intro t op ht hop
    exact runningCount_step kind c t op hop ht
  exact ⟨hcount, Along.imp_of_always (fun t op _ _ => claim_sound t op) hcount hwithin⟩

/-- Two workers with caps 1 and 2, two jobs of the kind. -/
def twoClaims : List QueueOp :=
  [.enqueue 0 1 "recompute" [] none 3 none none none,
   .enqueue 1 2 "recompute" [] none 3 none none none,
   .claim 2 "w" [("recompute", 1)] 90 [],
   .claim 3 "v" [("recompute", 2)] 90 []]

theorem running_le_cap_two : Always step (fun t => runningCount t "recompute" ≤ 2) Table.empty twoClaims ∧
      runningCount (run step Table.empty twoClaims) "recompute" = 2 := by
  refine ⟨(running_le_cap "recompute" 2 twoClaims ?_).1, by decide +kernel⟩
  intro op hop
  simp only [twoClaims, mem_cons, not_mem_nil, or_false] at hop
  rcases hop with rfl | rfl | rfl | rfl
  · trivial
  · trivial
  · intro cap hcap
    have : cap = 1 := by simpa [eq_comm] using hcap
    omega
  · intro cap hcap
    have : cap = 2 := by simpa [eq_comm] using hcap
    omega

end CisApp.Jobs
