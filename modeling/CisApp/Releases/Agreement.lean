import CisApp.Releases.Evidence
import CisApp.Releases.Guard

/-! Whether the two halves of the release gate agree.

Both halves are a sequence of rules, so each accepts exactly when every value it reads passes.  A
`Reading` is one value with what either half asks of it, and `readings` lists them for a release: most
are the same on both sides, and the others show where the API's dictionaries and truth values and the
database's NULLs and JSON texts part.  The halves agree on a release unless the values it breaks a rule
with are all broken on one side only (`gate_agrees_iff`). -/

namespace CisApp.Releases

open List

/-! ## Readings -/

structure Reading where
  api : Prop
  db : Prop

def Reading.both (p : Prop) : Reading := ⟨p, p⟩

def Reading.ApiOnly (x : Reading) : Prop := x.api ∧ ¬ x.db

def Reading.DbOnly (x : Reading) : Prop := x.db ∧ ¬ x.api

theorem readings_agree_iff (l : List Reading) : ((∀ x ∈ l, x.api) ↔ ∀ x ∈ l, x.db) ↔
      ((∀ x ∈ l, x.api ∨ x.db) → ((∃ x ∈ l, x.ApiOnly) ↔ ∃ x ∈ l, x.DbOnly)) := by
  constructor
  · intro hagree hsome
    constructor
    · rintro ⟨x, hx, hapi, hdb⟩
      by_contra hno
      have hall : ∀ y ∈ l, y.api := by
        intro y hy
        by_contra hy'
        exact hno ⟨y, hy, (hsome y hy).resolve_left hy', hy'⟩
      exact hdb (hagree.1 hall x hx)
    · rintro ⟨x, hx, hdb, hapi⟩
      by_contra hno
      have hall : ∀ y ∈ l, y.db := by
        intro y hy
        by_contra hy'
        exact hno ⟨y, hy, (hsome y hy).resolve_right hy', hy'⟩
      exact hapi (hagree.2 hall x hx)
  · intro h
    constructor
    · intro hapi x hx
      by_contra hdb
      obtain ⟨y, hy, -, hno⟩ := (h fun y hy => Or.inl (hapi y hy)).1 ⟨x, hx, hapi x hx, hdb⟩
      exact hno (hapi y hy)
    · intro hdb x hx
      by_contra hapi
      obtain ⟨y, hy, -, hno⟩ := (h fun y hy => Or.inr (hdb y hy)).2 ⟨x, hx, hdb x hx, hapi⟩
      exact hno (hdb y hy)

/-! ## The values of a run -/

/-- The details the API sees: none when an integer in them has too many digits. -/
def shown (lim : Limits) (run : EvalRun) : JObj :=
  match loadsDetails lim run with
  | .ok _ => run.object
  | .error _ => []

def Unread (lim : Limits) (run : EvalRun) : Prop :=
  ∃ e, loadsDetails lim run = .error e ∧ e ≠ .valueError

/-- A number the API reads as `0.0`: an integer only when it is 0, another up to half the smallest
double. -/
def readsZero : Option Json → Prop
  | some (.num m s) => if s = 0 then m = 0 else |decimal m s| ≤ 2 ^ (-1075 : ℤ)
  | _ => False

/-- A number the API reads as `20.0` or more; an integer beyond the doubles raises. -/
def readsEnough : Option Json → Prop
  | some (.num m s) =>
    if s = 0 then 20 ≤ m ∧ (m : ℚ) < 2 ^ (1024 : ℤ) - 2 ^ (970 : ℤ)
    else 20 - 2 ^ (-49 : ℤ) ≤ decimal m s
  | _ => False

def Linked (r : Release) (run : EvalRun) : Prop := run.releaseId = some r.releaseId

/-- A run without a verdict passes the API in a slot that does not take its kind. -/
def r0Readings (lim : Limits) (r : Release) (run : EvalRun) : List Reading :=
  ⟨run.runKind = .r0Replay ∧ run.verdict = some .pass ∨ run.runKind ≠ .r0Replay ∧ run.verdict = none,
    run.runKind = .r0Replay ∧ run.verdict = some .pass⟩ ::
  if r.contentClass = .empty then
    [⟨¬ Unread lim run, True⟩,
      ⟨readsZero ((shown lim run).at? "byte_diffs"), numeric? run.object "byte_diffs" = some 0⟩,
      ⟨readsEnough ((shown lim run).at? "inputs"), 20 ≤ (numeric? run.object "inputs").getD 0⟩]
  else []

def takesEval (r : Release) (kind : RunKind) : Prop :=
  kind = .r2 ∨ r.contentClass = .empty ∧ kind = .baselineImport

def evalReadings (lim : Limits) (r : Release) (run : EvalRun) : List Reading :=
  ⟨run.runKind = .r2 ∧ run.verdict = some .pass ∧ Linked r run ∨
      r.contentClass = .empty ∧ run.runKind = .baselineImport ∧ run.verdict = some .baseline ∨
      ¬ takesEval r run.runKind ∧ run.verdict = none ∧ (run.runKind = .baselineImport ∨ Linked r run),
    run.runKind = .r2 ∧ (run.verdict = some .pass ∨ run.verdict = none) ∧ Linked r run ∨
      r.contentClass = .empty ∧ run.runKind = .baselineImport ∧
        (run.verdict = some .baseline ∨ run.verdict = none)⟩ ::
  if run.runKind = .r2 then
    [⟨¬ Unread lim run, True⟩,
      ⟨truthy ((shown lim run).at? "seeded_fault") = false,
        (text? run.object "seeded_fault").getD "" = ""⟩,
      ⟨isRelease (((shown lim run).at? "candidate").getD (.str "release")) = true,
        (text? run.object "candidate").getD "release" = "release"⟩]
  else []

def shadowReadings (r : Release) (run : EvalRun) : List Reading :=
  [⟨Linked r run ∧ (run.runKind = .shadow ∧ run.verdict = some .pass ∨
      run.runKind ≠ .shadow ∧ run.verdict = none),
    Linked r run ∧ run.runKind = .shadow ∧ run.verdict = some .pass⟩]

def slotReadings (lim : Limits) (ev : Evidence) (r : Release) (slot : Slot) : List Reading :=
  match ev.run? r slot with
  | none => [.both False]
  | some run =>
    .both (notOfWriter run r.writer = false) ::
    match slot with
    | .r0 => r0Readings lim r run
    | .eval => evalReadings lim r run
    | .shadow => shadowReadings r run

/-! ## The values of a release -/

/-- Every id names a rule of the owner, the kinds are those of the class, and a first activation finds
the rules approved or active. -/
structure RulesFit (ev : Evidence) (r : Release) (first : Bool) : Prop where
  own : ∀ id ∈ r.ruleIds, badId ev r id = false
  kinds : ev.rulesOf r.ruleIds = [] ∨
    contentClassOf ((ev.rulesOf r.ruleIds).map fun x => x.2.kind) = r.contentClass
  ready : first = true → ∀ x ∈ ev.rulesOf r.ruleIds, x.2.ready = true

/-- The month of a first regular activation is not closed. -/
def TrainOpen (ev : Evidence) (r : Release) (first : Bool) (today : Date) : Prop :=
  r.trainKind = .regular ∧ first = true →
    (ev.closedMonth r.writer).any (fun closed => (r.trainMonth.getD today.firstOfMonth).le closed) = false

/-- What the two halves read before a release becomes active. -/
def readings (lim : Limits) (ev : Evidence) (r : Release) (first : Bool) (today : Date) : List Reading :=
  .both (r.status = .retired → isRollback (r.retiredReason.getD "") = false) ::
    ⟨r.approvedBy ≠ some "", True⟩ ::
    r.contentClass.need.flatMap (slotReadings lim ev r) ++
    [⟨none ∉ r.ruleIds, True⟩, .both (RulesFit ev r first), .both (TrainOpen ev r first today)]

/-! ## Sequences of rules -/

theorem answerAll_ok_iff {l : List Answer} : answerAll l = .ok () ↔ ∀ a ∈ l, a = .ok () := by
  induction l with
  | nil => simp [answerAll]
  | cons a l ih =>
    rw [forall_mem_cons, ← ih]
    cases a with
    | ok u => exact ⟨fun h => ⟨rfl, h⟩, fun h => h.2⟩
    | error e =>
      constructor
      · intro h
        cases h
      · rintro ⟨h, -⟩
        cases h

theorem raiseFirst_ok_iff {l : List Guarded} : raiseFirst l = .ok () ↔ ∀ g ∈ l, g = .ok () := by
  induction l with
  | nil => simp [raiseFirst]
  | cons g l ih =>
    rw [forall_mem_cons, ← ih]
    cases g with
    | ok u => exact ⟨fun h => ⟨rfl, h⟩, fun h => h.2⟩
    | error e =>
      constructor
      · intro h
        cases h
      · rintro ⟨h, -⟩
        cases h

theorem seq_ok_iff {ε β : Type} {x : Except ε Unit} {y : Except ε β} {b : β} :
    (x >>= fun _ => y) = .ok b ↔ x = .ok () ∧ y = .ok b := by
  cases x with
  | ok u => exact ⟨fun h => ⟨rfl, h⟩, fun h => h.2⟩
  | error e =>
    constructor
    · intro h
      cases h
    · rintro ⟨h, -⟩
      cases h

@[simp] theorem refuseIf_ok_iff {c : Bool} {p : Problem} : refuseIf c p = .ok () ↔ c = false := by
  cases c <;> simp [refuseIf]

@[simp] theorem raiseIf_ok_iff {c : Tri} {e : Raised} : raiseIf c e = .ok () ↔ c.holds = false := by
  unfold raiseIf
  cases c.holds <;> simp

/-! ## The API's half -/

variable {run : EvalRun} {slot : Slot}

theorem runProblem_ok_iff {writer : Writer}
    {okKinds : List (RunKind × Verdict)} : runProblem (some run) writer slot okKinds = .ok () ↔
      notOfWriter run writer = false ∧ okKinds.lookup run.runKind = run.verdict := by
  show (refuseIf _ _ >>= fun _ => refuseIf _ _ >>= fun _ => refuseIf _ _) = _ ↔ _
  rw [seq_ok_iff, seq_ok_iff, refuseIf_ok_iff, refuseIf_ok_iff, refuseIf_ok_iff]
  simp [notOfWriter, and_assoc]

theorem detailsOf_cases (lim : Limits) (run : EvalRun) : (Unread lim run ∧ ∃ e, detailsOf lim run = .error e) ∨
      (¬ Unread lim run ∧ detailsOf lim run = .ok (shown lim run)) := by
  unfold Unread detailsOf shown
  cases h : loadsDetails lim run with
  | ok u => exact Or.inr ⟨nofun, rfl⟩
  | error e =>
    by_cases he : e = .valueError
    · subst he
      refine Or.inr ⟨?_, rfl⟩
      rintro ⟨e, heq, hne⟩
      cases heq
      exact hne rfl
    · refine Or.inl ⟨⟨e, rfl, he⟩, .raised e, ?_⟩
      cases e with
      | valueError => exact absurd rfl he
      | overflowError => rfl
      | recursionError => rfl
      | typeError => rfl

variable {lim : Limits}

theorem details_ok_iff {f : JObj → Answer} :
    (detailsOf lim run >>= f) = .ok () ↔ ¬ Unread lim run ∧ f (shown lim run) = .ok () := by
  rcases detailsOf_cases lim run with ⟨hun, e, heq⟩ | ⟨hread, heq⟩
  · rw [heq]
    constructor
    · intro h
      cases h
    · rintro ⟨h, -⟩
      exact absurd hun h
  · rw [heq]
    exact ⟨fun h => ⟨hread, h⟩, fun h => h.2⟩

theorem decimal_zero (m : Int) : decimal m 0 = m := by simp [decimal]

variable {j : Option Json}

theorem not_readsZero (hno : ∀ m s, j = some (.num m s) → False) : ¬ readsZero j := by
  intro h
  unfold readsZero at h
  split at h
  · next m s => exact hno m s rfl
  · exact h

theorem not_readsEnough (hno : ∀ m s, j = some (.num m s) → False) : ¬ readsEnough j := by
  intro h
  unfold readsEnough at h
  split at h
  · next m s => exact hno m s rfl
  · exact h

theorem num_zero_iff : (∃ d, num j = .ok d ∧ d.any Double.isZero = true) ↔ readsZero j := by
  unfold num
  split
  · next m s =>
    unfold readsZero
    dsimp only
    by_cases hs : s = 0
    · subst hs
      rw [if_pos rfl, decimal_zero]
      constructor
      · rintro ⟨d, hd, hz⟩
        split at hd
        · cases hd
        · cases hd
          rw [Option.any_some, Double.isZero_ofRat] at hz
          by_contra hne
          have hone : (1 : ℚ) ≤ |(m : ℚ)| := by exact_mod_cast Int.one_le_abs hne
          have hsmall : (2 : ℚ) ^ (-1075 : ℤ) < 2 ^ (0 : ℤ) := zpow_lt_zpow_right₀ (by norm_num) (by norm_num)
          exact absurd (hone.trans hz) (not_le.2 hsmall)
      · rintro rfl
        refine ⟨some (Double.ofRat 0), ?_, ?_⟩
        · rw [if_neg]
          · simp
          · rintro ⟨-, hinf⟩
            have hno : ¬ (2 : ℚ) ^ (1024 : ℤ) - 2 ^ (970 : ℤ) ≤ |((0 : ℤ) : ℚ)| := by
              rw [not_le, Int.cast_zero, abs_zero, sub_pos]
              exact zpow_lt_zpow_right₀ (by norm_num) (by norm_num)
            exact hno ((Double.isInf_ofRat _).1 hinf)
        · rw [Option.any_some, Double.isZero_ofRat, abs_zero]
          exact (Double.two_pow_pos _).le
    · rw [if_neg hs, if_neg (fun h => hs h.1), ← Double.isZero_ofRat]
      constructor
      · rintro ⟨d, hd, hz⟩
        cases hd
        exact hz
      · intro hz
        exact ⟨_, rfl, hz⟩
  · next hno =>
    constructor
    · rintro ⟨d, hd, hz⟩
      cases hd
      cases hz
    · intro h
      exact (not_readsZero hno h).elim

theorem twenty_le_iff (m : Int) : 20 - 2 ^ (-49 : ℤ) ≤ (m : ℚ) ↔ 20 ≤ m := by
  constructor
  · intro h
    have hlt : ((19 : ℤ) : ℚ) < m := by
      refine lt_of_lt_of_le ?_ h
      norm_num
    exact_mod_cast Int.add_one_le_iff.2 (Int.cast_lt.1 hlt)
  · intro h
    have h' : ((20 : ℤ) : ℚ) ≤ m := Int.cast_le.2 h
    push_cast at h'
    linarith [Double.two_pow_pos (-49)]

theorem num_enough_iff : (∃ d, num j = .ok d ∧ (d.getD (.finite 0)).lt minR0Inputs = false) ↔ readsEnough j := by
  have hlt : ∀ q, (Double.ofRat q).lt minR0Inputs = false ↔ 20 - 2 ^ (-49 : ℤ) ≤ q := by
    intro q
    rw [← not_lt, ← Double.lt_twenty_ofRat, Bool.not_eq_true]
    rfl
  unfold num
  split
  · next m s =>
    unfold readsEnough
    dsimp only
    by_cases hs : s = 0
    · subst hs
      rw [if_pos rfl, decimal_zero]
      have hinf := Double.isInf_ofRat m
      constructor
      · rintro ⟨d, hd, hz⟩
        split at hd
        · cases hd
        · next hno =>
          cases hd
          rw [Option.getD_some, hlt, twenty_le_iff] at hz
          refine ⟨hz, ?_⟩
          by_contra hge
          rw [not_lt] at hge
          exact hno ⟨rfl, hinf.2 (hge.trans (le_abs_self _))⟩
      · rintro ⟨hz, hb⟩
        have hm : (0 : ℚ) ≤ m := by exact_mod_cast (by omega : 0 ≤ m)
        refine ⟨some (Double.ofRat m), ?_, ?_⟩
        · rw [if_neg]
          rintro ⟨-, h⟩
          have hle := hinf.1 h
          rw [abs_of_nonneg hm] at hle
          exact absurd hb (not_lt.2 hle)
        · rw [Option.getD_some, hlt, twenty_le_iff]
          exact hz
    · rw [if_neg hs, if_neg (fun h => hs h.1), ← hlt]
      constructor
      · rintro ⟨d, hd, hz⟩
        cases hd
        exact hz
      · intro hz
        exact ⟨_, rfl, hz⟩
  · next hno =>
    constructor
    · rintro ⟨d, hd, hz⟩
      cases hd
      cases hz
    · intro h
      exact (not_readsEnough hno h).elim

theorem byteIdentical_ok_iff : byteIdentical lim run = .ok () ↔
    ¬ Unread lim run ∧ readsZero ((shown lim run).at? "byte_diffs") ∧ readsEnough ((shown lim run).at? "inputs") := by
  unfold byteIdentical
  rw [details_ok_iff, ← num_zero_iff, ← num_enough_iff]
  refine and_congr_right fun _ => ?_
  cases num ((shown lim run).at? "byte_diffs") with
  | error e =>
    constructor
    · intro h
      cases h
    · rintro ⟨⟨d, hd, -⟩, -⟩
      cases hd
  | ok d =>
    cases num ((shown lim run).at? "inputs") with
    | error e =>
      constructor
      · intro h
        cases h
      · rintro ⟨-, d, hd, -⟩
        cases hd
    | ok d' =>
      show refuseIf _ _ = _ ↔ _
      simp

theorem lookup_single_iff {kind k : RunKind} {v : Verdict} {verdict : Option Verdict} :
    [(k, v)].lookup kind = verdict ↔ kind = k ∧ verdict = some v ∨ kind ≠ k ∧ verdict = none := by
  by_cases hk : kind = k
  · subst hk
    simp [eq_comm]
  · have hb : (kind == k) = false := beq_eq_false_iff_ne.2 hk
    simp [lookup_cons, hb, hk, eq_comm]

variable {r : Release}

theorem lookup_evalKinds_iff {kind : RunKind} {verdict : Option Verdict} :
    (evalKinds r.contentClass).lookup kind = verdict ↔ kind = .r2 ∧ verdict = some .pass ∨
        r.contentClass = .empty ∧ kind = .baselineImport ∧ verdict = some .baseline ∨
        ¬ takesEval r kind ∧ verdict = none := by
  unfold evalKinds takesEval
  by_cases hc : r.contentClass = .empty
  · rw [if_pos hc]
    by_cases hr2 : kind = .r2
    · subst hr2
      simp [eq_comm]
    · have hb : (kind == .r2) = false := beq_eq_false_iff_ne.2 hr2
      rw [lookup_cons, hb]
      show [(RunKind.baselineImport, Verdict.baseline)].lookup kind = verdict ↔ _
      rw [lookup_single_iff]
      simp [hr2, hc]
  · rw [if_neg hc, lookup_single_iff]
    simp [hc]

variable {ev : Evidence}

theorem r0Problem_ok_iff (hrun : ev.run? r .r0 = some run) : r0Problem lim ev r = .ok () ↔
      notOfWriter run r.writer = false ∧ ∀ x ∈ r0Readings lim r run, x.api := by
  unfold r0Problem r0Readings
  rw [hrun]
  rw [seq_ok_iff, runProblem_ok_iff, lookup_single_iff, forall_mem_cons, and_assoc]
  split
  · rw [byteIdentical_ok_iff]
    simp
  · simp [pure, Except.pure]

theorem evalProblem_ok_iff (hrun : ev.run? r .eval = some run) : evalProblem lim ev r = .ok () ↔
      notOfWriter run r.writer = false ∧ ∀ x ∈ evalReadings lim r run, x.api := by
  unfold evalProblem evalReadings
  rw [hrun, seq_ok_iff, runProblem_ok_iff, lookup_evalKinds_iff, forall_mem_cons, and_assoc]
  refine and_congr_right fun _ => ?_
  unfold releaseLinkProblem
  dsimp only
  rw [if_neg nofun]
  by_cases hb : run.runKind = .baselineImport
  · simp [hb]
  · rw [if_neg (fun h => hb h.2), seq_ok_iff, refuseIf_ok_iff]
    by_cases hr2 : run.runKind = .r2
    · rw [if_pos ⟨rfl, hr2⟩, if_pos hr2, details_ok_iff, seq_ok_iff, refuseIf_ok_iff, refuseIf_ok_iff]
      simp [hr2, Linked, takesEval, and_assoc]
    · simp [hr2, hb, Linked, pure, Except.pure, and_assoc]

theorem shadowProblem_ok_iff (hrun : ev.run? r .shadow = some run) : shadowProblem lim ev r = .ok () ↔
      notOfWriter run r.writer = false ∧ ∀ x ∈ shadowReadings r run, x.api := by
  unfold shadowProblem shadowReadings
  rw [hrun, seq_ok_iff, runProblem_ok_iff, lookup_single_iff, forall_mem_singleton, and_assoc]
  refine and_congr_right fun _ => ?_
  unfold releaseLinkProblem
  dsimp only
  rw [if_neg nofun, if_neg nofun, seq_ok_iff, refuseIf_ok_iff, if_neg nofun]
  simp [Linked, pure, Except.pure, and_comm]

theorem slotProblem_ok_iff : slotProblem lim ev r slot = .ok () ↔ ∀ x ∈ slotReadings lim ev r slot, x.api := by
  unfold slotReadings
  cases hrun : ev.run? r slot with
  | none =>
    rw [forall_mem_singleton]
    refine ⟨fun h => ?_, False.elim⟩
    -- without a run `_run_problem` answers first
    cases slot with
    | r0 =>
      rw [slotProblem, r0Problem, hrun, seq_ok_iff] at h
      exact absurd h.1 nofun
    | eval =>
      rw [slotProblem, evalProblem, hrun, seq_ok_iff] at h
      exact absurd h.1 nofun
    | shadow =>
      rw [slotProblem, shadowProblem, hrun, seq_ok_iff] at h
      exact absurd h.1 nofun
  | some run =>
    rw [forall_mem_cons]
    cases slot with
    | r0 => exact r0Problem_ok_iff hrun
    | eval => exact evalProblem_ok_iff hrun
    | shadow => exact shadowProblem_ok_iff hrun

/-! ## The database's half -/

theorem guardR0_ok_iff (lim : Limits) (hrun : ev.run? r .r0 = some run) : guardR0 ev r = .ok () ↔
      notOfWriter run r.writer = false ∧ ∀ x ∈ r0Readings lim r run, x.db := by
  unfold guardR0 r0Readings
  rw [hrun]
  rw [raiseFirst_ok_iff, forall_mem_cons, forall_mem_singleton, raiseIf_ok_iff, raiseIf_ok_iff, forall_mem_cons]
  split
  · next hc => simp [hc, and_assoc]
  · next hc => simp [hc, and_assoc]

theorem evalPassed_fails_iff : (evalPassed r run).fails = false ↔
    run.runKind = .r2 ∧ (run.verdict = some .pass ∨ run.verdict = none) ∨
      r.contentClass = .empty ∧ run.runKind = .baselineImport ∧ (run.verdict = some .baseline ∨ run.verdict = none) := by
  unfold evalPassed
  simp only [Tri.fails_or, Tri.fails_and, Tri.fails_some, Tri.fails_eq, Bool.and_eq_false_iff,
    Bool.or_eq_false_iff, Bool.not_eq_false', decide_eq_true_eq, decide_eq_false_iff_not,
    Bool.and_eq_true, not_and, not_not]
  have hv : ∀ v, (run.verdict ≠ none → run.verdict = some v) ↔ run.verdict = some v ∨ run.verdict = none := by
    intro v
    rw [or_comm]
    exact Decidable.imp_iff_not_or.trans (or_congr_left not_not)
  rw [hv, hv, and_assoc]

theorem guardEval_ok_iff (lim : Limits) (hrun : ev.run? r .eval = some run) : guardEval ev r = .ok () ↔
      notOfWriter run r.writer = false ∧ ∀ x ∈ evalReadings lim r run, x.db := by
  unfold guardEval evalReadings
  rw [hrun]
  rw [raiseFirst_ok_iff, forall_mem_cons, forall_mem_singleton, raiseIf_ok_iff, raiseIf_ok_iff,
    forall_mem_cons, Tri.holds_or, Tri.holds_not, Tri.holds_some, Tri.holds_some,
    Bool.or_eq_false_iff, evalPassed_fails_iff, and_assoc]
  refine and_congr_right fun _ => ?_
  by_cases hr2 : run.runKind = .r2
  · simp [hr2, Linked, and_assoc]
  · simp [hr2]

theorem guardShadow_ok_iff (hrun : ev.run? r .shadow = some run) : guardShadow ev r = .ok () ↔
      notOfWriter run r.writer = false ∧ ∀ x ∈ shadowReadings r run, x.db := by
  unfold guardShadow shadowReadings
  rw [hrun]
  rw [raiseFirst_ok_iff, forall_mem_cons, forall_mem_singleton, raiseIf_ok_iff, raiseIf_ok_iff,
    forall_mem_singleton]
  simp [Linked, and_assoc, and_comm, and_left_comm]

theorem guardSlot_ok_iff (lim : Limits) : guardSlot ev r slot = .ok () ↔ ∀ x ∈ slotReadings lim ev r slot, x.db := by
  unfold slotReadings
  cases hrun : ev.run? r slot with
  | none =>
    rw [forall_mem_singleton]
    refine ⟨fun h => ?_, False.elim⟩
    cases slot with
    | r0 =>
      rw [guardSlot, guardR0, hrun] at h
      cases h
    | eval =>
      rw [guardSlot, guardEval, hrun] at h
      cases h
    | shadow =>
      rw [guardSlot, guardShadow, hrun] at h
      cases h
  | some run =>
    rw [forall_mem_cons]
    cases slot with
    | r0 => exact guardR0_ok_iff lim hrun
    | eval => exact guardEval_ok_iff lim hrun
    | shadow => exact guardShadow_ok_iff hrun

/-! ## Rules and train -/

variable {found : List (Id × WritingRule)}

theorem kindsOf_eq_single_iff (hne : found ≠ []) {k : RuleKind} :
    kindsOf found = some [k] ↔ (found.map fun x => x.2.kind).all (· = k) = true := by
  unfold kindsOf
  rw [if_neg hne, Option.some.injEq, all_map, all_eq_true]
  constructor
  · intro h x hx
    have hmem : x.2.kind ∈ allRuleKinds.filter fun k => found.any fun y => y.2.kind = k := by
      refine List.mem_filter.2 ⟨?_, List.any_eq_true.2 ⟨x, hx, decide_eq_true rfl⟩⟩
      cases x.2.kind <;> decide
    rw [h] at hmem
    exact decide_eq_true (List.mem_singleton.1 hmem)
  · intro h
    obtain ⟨x, hx⟩ := exists_mem_of_ne_nil found hne
    have hany : ∀ k', (found.any fun y => y.2.kind = k') = decide (k = k') := by
      intro k'
      rw [Bool.eq_iff_iff, any_eq_true, decide_eq_true_eq]
      constructor
      · rintro ⟨y, hy, hk⟩
        have := h y hy
        simp only [Function.comp_apply, decide_eq_true_eq] at this hk
        rw [← this, hk]
      · rintro rfl
        exact ⟨x, hx, h x hx⟩
    simp only [hany]
    cases k <;> decide

theorem guardKinds_iff {cls : ContentClass} (hcls : cls ≠ .empty) (found : List (Id × WritingRule)) :
    (Tri.or (Tri.and (some (decide (cls = .lexiconOnly))) (Tri.not (Tri.eq (kindsOf found) (some [.lexicon]))))
      (Tri.or (Tri.and (some (decide (cls = .repairHintOnly)))
        (Tri.not (Tri.eq (kindsOf found) (some [.repairHint]))))
      (Tri.and (some (decide (cls = .rules))) (Tri.or (Tri.eq (kindsOf found) (some [.lexicon]))
        (Tri.eq (kindsOf found) (some [.repairHint])))))).holds = false ↔
      found = [] ∨ contentClassOf (found.map fun x => x.2.kind) = cls := by
  simp only [Tri.holds_or, Tri.holds_and, Tri.holds_not, Tri.holds_some, Tri.holds_eq, Tri.fails_eq]
  by_cases hne : found = []
  · subst hne
    simp [kindsOf]
  · have hsome : kindsOf found ≠ none := by simp [kindsOf, hne]
    have hmap : (found.map fun x => x.2.kind) ≠ [] := by simpa using hne
    simp only [ne_eq, hsome, not_false_eq_true, true_and, kindsOf_eq_single_iff hne, contentClassOf, hne,
      false_or, hmap, if_false]
    -- a rule of both kinds would have two kinds
    have hboth : ¬ ((found.map fun x => x.2.kind).all (· = .lexicon) = true ∧
        (found.map fun x => x.2.kind).all (· = .repairHint) = true) := by
      rintro ⟨h1, h2⟩
      obtain ⟨k, hk⟩ := exists_mem_of_ne_nil _ hmap
      have h1' := of_decide_eq_true (List.all_eq_true.1 h1 k hk)
      have h2' := of_decide_eq_true (List.all_eq_true.1 h2 k hk)
      rw [h1'] at h2'
      cases h2'
    generalize (found.map fun x => x.2.kind).all (· = .lexicon) = lex at hboth ⊢
    generalize (found.map fun x => x.2.kind).all (· = .repairHint) = rep at hboth ⊢
    cases cls with
    | empty => exact absurd rfl hcls
    | lexiconOnly => cases lex <;> cases rep <;> simp_all
    | repairHintOnly => cases lex <;> cases rep <;> simp_all
    | rules => cases lex <;> cases rep <;> simp_all

variable {first : Bool}

theorem guardRules_ok_iff {changed : Bool} (hclass : r.ruleIds ≠ [] → r.contentClass ≠ .empty) :
    guardRules ev r changed true first = .ok () ↔ RulesFit ev r first := by
  unfold guardRules
  by_cases hids : r.ruleIds = []
  · rw [if_neg (by simp [hids])]
    have hfound : ev.rulesOf r.ruleIds = [] := by simp [Evidence.rulesOf, hids]
    refine ⟨fun _ => ⟨?_, Or.inl hfound, ?_⟩, fun _ => rfl⟩
    · simp [hids]
    · simp [hfound]
  · rw [if_pos ⟨List.length_pos_iff.2 hids, Or.inr rfl⟩]
    rw [raiseFirst_ok_iff, forall_mem_cons, forall_mem_cons, forall_mem_singleton,
      raiseIf_ok_iff, raiseIf_ok_iff, raiseIf_ok_iff, guardKinds_iff (hclass hids), Tri.holds_some,
      Tri.holds_some]
    constructor
    · rintro ⟨hown, hkinds, hready⟩
      refine ⟨?_, hkinds, ?_⟩
      · intro id hid
        simpa using List.any_eq_false.1 hown id hid
      · intro hfirst x hx
        rw [hfirst] at hready
        simpa using (by simpa using hready : ∀ a b, (a, b) ∈ ev.rulesOf r.ruleIds → b.ready = true) x.1 x.2 hx
    · rintro ⟨hown, hkinds, hready⟩
      refine ⟨?_, hkinds, ?_⟩
      · rw [any_eq_false]
        intro id hid
        simp [hown id hid]
      · cases first with
        | false => rfl
        | true =>
          have hnil : (ev.rulesOf r.ruleIds).filter (fun x => !x.2.ready) = [] := by
            rw [filter_eq_nil_iff]
            intro x hx
            simp [hready rfl x hx]
          rw [hnil]
          rfl

theorem ruleMissing_ok_iff {ids : List (Option Id)} :
    ruleMissing ids found = .ok () ↔ ∀ id ∈ ids, ∃ x ∈ found, some x.1 = id := by
  have hnil : (ids.filter fun id => !(found.any fun x => some x.1 = id)).dedup = [] ↔
      ∀ id ∈ ids, ∃ x ∈ found, some x.1 = id := by
    simp
  unfold ruleMissing
  dsimp only
  rw [← hnil]
  split
  · next h => exact ⟨fun _ => h, fun _ => rfl⟩
  · next h =>
    refine ⟨fun hok => ?_, fun hno => absurd hno h⟩
    split at hok <;> cases hok

theorem own_rules_iff : (∀ id ∈ r.ruleIds, ∃ x ∈ ev.rulesOf r.ruleIds, some x.1 = id) ∧
      (∀ x ∈ ev.rulesOf r.ruleIds, foreignRule r x.2 = false) ↔
    none ∉ r.ruleIds ∧ ∀ id ∈ r.ruleIds, badId ev r id = false := by
  constructor
  · rintro ⟨hfound, hown⟩
    refine ⟨fun hnone => ?_, ?_⟩
    · obtain ⟨x, -, hx⟩ := hfound none hnone
      cases hx
    · intro id hid
      obtain ⟨⟨i, rule⟩, hx, rfl⟩ := hfound id hid
      rw [badId, (Evidence.mem_rulesOf.1 hx).1]
      exact hown (i, rule) hx
  · rintro ⟨hnone, hbad⟩
    have hget : ∀ i, some i ∈ r.ruleIds → ∃ rule, ev.rules.get? i = some rule ∧ foreignRule r rule = false := by
      intro i hi
      have := hbad (some i) hi
      rw [badId] at this
      cases h : ev.rules.get? i with
      | none =>
        rw [h] at this
        cases this
      | some rule =>
        rw [h] at this
        exact ⟨rule, rfl, this⟩
    refine ⟨?_, ?_⟩
    · intro id hid
      cases id with
      | none => exact absurd hid hnone
      | some i =>
        obtain ⟨rule, hrule, -⟩ := hget i hid
        exact ⟨(i, rule), Evidence.mem_rulesOf.2 ⟨hrule, hid⟩, rfl⟩
    · rintro ⟨i, rule⟩ hx
      obtain ⟨hrule, hi⟩ := Evidence.mem_rulesOf.1 hx
      obtain ⟨rule', hrule', hown⟩ := hget i hi
      rw [hrule] at hrule'
      cases hrule'
      exact hown

theorem ruleIsolation_ok_iff : ruleIsolation r found = .ok () ↔ ∀ x ∈ found, foreignRule r x.2 = false := by
  unfold ruleIsolation
  cases h : found.find? fun x => foreignRule r x.2 with
  | none =>
    refine ⟨fun _ x hx => ?_, fun _ => rfl⟩
    simpa using List.find?_eq_none.1 h x hx
  | some x =>
    constructor
    · intro hok
      cases hok
    · intro hall
      have hx := List.find?_some h
      rw [hall x (List.mem_of_find?_eq_some h)] at hx
      cases hx

theorem rulesReady_ok_iff : rulesReady found = .ok () ↔ ∀ x ∈ found, x.2.ready = true := by
  unfold rulesReady
  simp

theorem rulesProblem_ok_iff : rulesProblem r (ev.rulesOf r.ruleIds) first = .ok () ↔
      none ∉ r.ruleIds ∧ RulesFit ev r first := by
  unfold rulesProblem
  by_cases hids : r.ruleIds = []
  · rw [if_pos hids]
    have hfound : ev.rulesOf r.ruleIds = [] := by simp [Evidence.rulesOf, hids]
    refine ⟨fun _ => ⟨by simp [hids], ?_, Or.inl hfound, ?_⟩, fun _ => rfl⟩
    · simp [hids]
    · simp [hfound]
  · have hready : (if first = true then rulesReady (ev.rulesOf r.ruleIds) else .ok ()) = .ok () ↔
        (first = true → ∀ x ∈ ev.rulesOf r.ruleIds, x.2.ready = true) := by
      cases first with
      | false => exact ⟨fun _ h => (by cases h), fun _ => rfl⟩
      | true =>
        rw [if_pos rfl, rulesReady_ok_iff]
        exact ⟨fun h _ => h, fun h => h rfl⟩
    rw [if_neg hids, answerAll_ok_iff, forall_mem_cons, forall_mem_cons, forall_mem_cons,
      forall_mem_singleton, ruleMissing_ok_iff, ruleIsolation_ok_iff, refuseIf_ok_iff, hready,
      ← and_assoc, own_rules_iff]
    constructor
    · rintro ⟨⟨hnone, hbad⟩, hcls, hr⟩
      exact ⟨hnone, hbad, Or.inr (by simpa using hcls), hr⟩
    · rintro ⟨hnone, hbad, hkinds, hr⟩
      refine ⟨⟨hnone, hbad⟩, ?_, hr⟩
      -- some id is there, and it was found
      obtain ⟨id, hid⟩ := exists_mem_of_ne_nil _ hids
      obtain ⟨x, hx, -⟩ := (own_rules_iff.2 ⟨hnone, hbad⟩).1 id hid
      rcases hkinds with hno | hcls
      · rw [hno] at hx
        cases hx
      · simpa using hcls

variable {today : Date}

theorem trainProblem_ok_iff : trainProblem ev r first today = .ok () ↔ TrainOpen ev r first today := by
  unfold trainProblem TrainOpen
  split
  · next h =>
    rw [refuseIf_ok_iff]
    exact ⟨fun hno _ => hno, fun hno => hno h⟩
  · next h => exact ⟨fun _ hyes => absurd hyes h, fun _ => rfl⟩

theorem guardTrain_ok_iff : guardTrain ev r first today = .ok () ↔ TrainOpen ev r first today := by
  unfold guardTrain TrainOpen
  split
  · next h =>
    refine ⟨fun hno _ => ?_, fun hno => ?_⟩
    · cases hc : ev.closedMonth r.writer with
      | none => rfl
      | some closed =>
        rw [hc] at hno
        simpa using hno
    · have := hno h
      cases hc : ev.closedMonth r.writer with
      | none => rfl
      | some closed =>
        rw [hc] at this
        simpa using this
  · next h => exact ⟨fun _ hyes => absurd hyes h, fun _ => rfl⟩

/-! ## The whole gate -/

/-- A row about to become active: approved for a first activation, retired for a rollback. -/
structure MayActivate (r : Release) : Prop where
  checks : r.tableChecks = true
  status : r.status = .approved ∨ r.status = .retired

/-- What its table checks say of such a row. -/
structure RowFacts (r : Release) : Prop where
  scope : r.scopeCheck = true
  emergency : r.emergencyCheck = true
  cls : r.classCheck = true
  size : r.sizeCheck = true
  train : r.trainCheck = true
  approvedBy : r.approvedBy.isSome = true
  approvedAt : r.approvedAt.isSome = true

theorem MayActivate.facts (h : MayActivate r) : RowFacts r := by
  have hc := h.checks
  simp only [Release.tableChecks, Bool.and_eq_true] at hc
  obtain ⟨⟨⟨⟨⟨⟨hscope, hcls⟩, -⟩, happ⟩, hem⟩, htrain⟩, hsize⟩ := hc
  simp only [Release.approvalCheck, Bool.and_eq_true] at happ
  have hboth : r.approvedBy.isSome = true ∧ r.approvedAt.isSome = true := by
    have := happ.1.1.1
    rcases h.status with hs | hs
    · simpa [hs] using this
    · simpa [hs] using this
  exact ⟨hscope, hem, hcls, hsize, htrain, hboth.1, hboth.2⟩

theorem RowFacts.rules_of_ids (h : RowFacts r) (hids : r.ruleIds ≠ []) : r.contentClass ≠ .empty := by
  have hc := h.cls
  simp only [Release.classCheck, Bool.and_eq_true] at hc
  intro hempty
  have := hc.1.2
  rw [hempty] at this
  simp only [decide_true, beq_iff_eq, Bool.true_eq, decide_eq_true_eq, length_eq_zero_iff] at this
  exact hids this

def activated (r : Release) (prev : Option Id) : Release :=
  { r with status := .active, previousReleaseId := prev }

theorem need_present (h : (∀ x ∈ slotReadings lim ev r slot, x.api) ∨ ∀ x ∈ slotReadings lim ev r slot, x.db) :
    (r.runId slot).isSome = true := by
  cases hid : r.runId slot with
  | some id => rfl
  | none =>
    have hrun : ev.run? r slot = none := by rw [Evidence.run?, hid]; rfl
    rw [slotReadings, hrun] at h
    simp [Reading.both] at h

theorem evidenceProblem_ok_iff
    (h : MayActivate r) : evidenceProblem lim ev r (decide (r.status = .approved)) today = .ok () ↔
      ∀ x ∈ readings lim ev r (decide (r.status = .approved)) today, x.api := by
  have hf := h.facts
  have hstatus : (if decide (r.status = .approved) = true then
        refuseIf (decide (r.status ≠ .approved)) .notApproved
      else transitionProblem r.status .active r.retiredReason) = .ok () ↔
      (r.status = .retired → isRollback (r.retiredReason.getD "") = false) := by
    rcases h.status with hs | hs
    · simp [hs]
    · rw [if_neg (by simp [hs]), transitionProblem, seq_ok_iff, refuseIf_ok_iff, refuseIf_ok_iff]
      simp [hs, transitions]
  have happ : (!(r.approvedBy.any (· ≠ "") && r.approvedAt.isSome)) = false ↔ r.approvedBy ≠ some "" := by
    obtain ⟨by', hby⟩ := Option.isSome_iff_exists.1 hf.approvedBy
    simp [hby, hf.approvedAt]
  unfold evidenceProblem readings
  rw [answerAll_ok_iff]
  simp only [mem_append, mem_cons, mem_map, mem_flatMap, not_mem_nil, or_false]
  constructor
  · intro hall x hx
    rcases hx with (rfl | rfl | ⟨slot, hslot, hx⟩) | rfl | rfl | rfl
    · exact hstatus.1 (hall _ (Or.inl (Or.inl (Or.inl rfl))))
    · have := hall _ (Or.inl (Or.inl (Or.inr (Or.inl rfl))))
      rw [refuseIf_ok_iff] at this
      exact happ.1 this
    · exact slotProblem_ok_iff.1 (hall _ (Or.inl (Or.inr ⟨slot, hslot, rfl⟩))) x hx
    · exact (rulesProblem_ok_iff.1 (hall _ (Or.inr (Or.inl rfl)))).1
    · exact (rulesProblem_ok_iff.1 (hall _ (Or.inr (Or.inl rfl)))).2
    · exact trainProblem_ok_iff.1 (hall _ (Or.inr (Or.inr rfl)))
  · intro hall a ha
    have hslots : ∀ slot ∈ r.contentClass.need, ∀ x ∈ slotReadings lim ev r slot, x.api :=
      fun slot hslot x hx => hall x (Or.inl (Or.inr (Or.inr ⟨slot, hslot, hx⟩)))
    rcases ha with ((rfl | rfl | ⟨slot, hslot, rfl⟩) | ⟨slot, hslot, rfl⟩) | rfl | rfl
    · exact hstatus.2 (hall _ (Or.inl (Or.inl rfl)))
    · rw [refuseIf_ok_iff]
      exact happ.2 (hall _ (Or.inl (Or.inr (Or.inl rfl))))
    · rw [refuseIf_ok_iff, ← Option.not_isSome, need_present (Or.inl (hslots slot hslot))]
      rfl
    · exact slotProblem_ok_iff.2 (hslots slot hslot)
    · exact rulesProblem_ok_iff.2 ⟨hall _ (Or.inr (Or.inl rfl)), hall _ (Or.inr (Or.inr (Or.inl rfl)))⟩
    · exact trainProblem_ok_iff.2 (hall _ (Or.inr (Or.inr (Or.inr rfl))))

variable {prev : Option Id}

theorem guardRow_ok_iff (h : MayActivate r) : guardRow r (activated r prev) = .ok () ↔
      (r.status = .retired → isRollback (r.retiredReason.getD "") = false) := by
  have hne : ¬ (activated r prev).status = r.status := by
    rcases h.status with hs | hs <;> simp [activated, hs]
  unfold guardRow
  rw [if_neg hne, raiseFirst_ok_iff, forall_mem_cons, forall_mem_cons, forall_mem_singleton,
    raiseFirst_ok_iff, forall_mem_cons, forall_mem_singleton]
  simp only [raiseIf_ok_iff, Tri.holds_some, Tri.holds_and]
  have hsame : (activated r prev).sameIdentity r = true ∧ (activated r prev).sameEvidence r = true := by
    simp [activated, Release.sameIdentity, Release.sameEvidence]
  have hlike : (likeRollback r.retiredReason).holds = isRollback (r.retiredReason.getD "") := by
    cases r.retiredReason with
    | none => rfl
    | some reason => exact Tri.holds_some _
  rw [hsame.1, hsame.2, hlike]
  rcases h.status with hs | hs
  · simp [hs, activated, guardTransitions]
  · simp [hs, activated, guardTransitions]

theorem guardChecks_ok_iff (lim : Limits) (h : MayActivate r) : guardChecks ev today r (activated r prev) = .ok () ↔
      ∀ x ∈ readings lim ev r (decide (r.status = .approved)) today, x.db := by
  have hact : (decide ((activated r prev).status = .active) &&
      decide ((activated r prev).status ≠ r.status)) = true := by
    rcases h.status with hs | hs <;> simp [activated, hs]
  -- the rules read the row's columns, not its status
  have hrules : ∀ changed first, guardRules ev (activated r prev) changed true first =
      guardRules ev r changed true first := fun _ _ => rfl
  have hslot : ∀ slot, guardSlot ev (activated r prev) slot = guardSlot ev r slot := by
    intro slot
    cases slot <;> rfl
  have htrain : ∀ first, guardTrain ev (activated r prev) first today = guardTrain ev r first today :=
    fun _ => rfl
  unfold guardChecks readings
  dsimp only
  rw [hact, Bool.true_and, if_pos rfl, hrules, htrain, raiseFirst_ok_iff]
  simp only [mem_append, mem_cons, mem_map, mem_flatMap, not_mem_nil, or_false]
  have hfit : guardRules ev r (decide ((activated r prev).ruleIds ≠ r.ruleIds)) true
      (decide (r.status = .approved)) = .ok () ↔ _ :=
    guardRules_ok_iff h.facts.rules_of_ids
  constructor
  · intro hall x hx
    rcases hx with (rfl | rfl | ⟨slot, hs, hx⟩) | rfl | rfl | rfl
    · exact (guardRow_ok_iff h).1 (hall _ (Or.inl rfl))
    · trivial
    · refine (guardSlot_ok_iff lim).1 ?_ x hx
      exact hall _ (Or.inr (Or.inr (Or.inl ⟨slot, hs, rfl⟩)))
    · trivial
    · exact hfit.1 (hall _ (Or.inr (Or.inl rfl)))
    · exact guardTrain_ok_iff.1 (hall _ (Or.inr (Or.inr (Or.inr rfl))))
  · intro hall g hg
    rcases hg with rfl | rfl | ⟨slot, hs, rfl⟩ | rfl
    · exact (guardRow_ok_iff h).2 (hall _ (Or.inl (Or.inl rfl)))
    · exact hfit.2 (hall _ (Or.inr (Or.inr (Or.inl rfl))))
    · rw [hslot slot, guardSlot_ok_iff lim]
      exact fun x hx => hall x (Or.inl (Or.inr (Or.inr ⟨slot, hs, hx⟩)))
    · exact guardTrain_ok_iff.2 (hall _ (Or.inr (Or.inr (Or.inr rfl))))

theorem written_tableChecks {now : Nat} (h : MayActivate r)
    (hneed : ∀ slot ∈ r.contentClass.need, (r.runId slot).isSome = true) :
    (guardWrites now today r (activated r prev)).tableChecks = true := by
  have hf := h.facts
  have hne : ¬ (activated r prev).status = r.status := by
    rcases h.status with hs | hs <;> simp [activated, hs]
  have hrow : guardWrites now today r (activated r prev) =
      { r with
        status := .active
        previousReleaseId := prev
        trainMonth := r.onTrain (r.status = .approved) today
        activatedAt := some now
        retiredAt := none
        retiredReason := none } := by
    unfold guardWrites
    rw [if_neg hne, if_pos (show (activated r prev).status = .active from rfl)]
    rfl
  rw [hrow]
  simp only [Release.tableChecks, Bool.and_eq_true]
  refine ⟨⟨⟨⟨⟨⟨hf.scope, hf.cls⟩, ?_⟩, ?_⟩, hf.emergency⟩, ?_⟩, ?_⟩
  · simp only [Release.evidenceCheck]
    cases hc : r.contentClass with
    | empty =>
      rw [hc] at hneed
      have h0 : r.r0RunId.isSome = true := hneed .r0 (by decide)
      have h1 : r.evalRunId.isSome = true := hneed .eval (by decide)
      simp [h0, h1]
    | lexiconOnly =>
      rw [hc] at hneed
      have h0 : r.r0RunId.isSome = true := hneed .r0 (by decide)
      simp [h0]
    | repairHintOnly =>
      rw [hc] at hneed
      have h1 : r.evalRunId.isSome = true := hneed .eval (by decide)
      have h2 : r.shadowRunId.isSome = true := hneed .shadow (by decide)
      simp [h1, h2]
    | rules =>
      rw [hc] at hneed
      have h1 : r.evalRunId.isSome = true := hneed .eval (by decide)
      have h2 : r.shadowRunId.isSome = true := hneed .shadow (by decide)
      simp [h1, h2]
  · simp [Release.approvalCheck, hf.approvedBy, hf.approvedAt]
  · have ht := hf.train
    simp only [Release.trainCheck, Bool.and_eq_true] at ht ⊢
    obtain ⟨hmonth, hpresent⟩ := ht
    unfold Release.onTrain
    by_cases hreg : r.trainKind = .regular
    · rcases h.status with hs | hs
      · cases hm : r.trainMonth with
        | none => simp [hreg, hs, Date.firstOfMonth]
        | some month =>
          rw [hm] at hmonth
          simpa [hreg, hs] using hmonth
      · rw [if_neg (by simp [hs])]
        refine ⟨hmonth, ?_⟩
        simpa [hreg, hs] using hpresent
    · rw [if_neg (fun hh => hreg hh.1)]
      exact ⟨hmonth, by simp [hreg]⟩
  · have hsize := hf.size
    simp only [Release.sizeCheck, Bool.and_eq_true] at hsize ⊢
    obtain ⟨⟨⟨⟨⟨h1, h2⟩, h3⟩, -⟩, h5⟩, h6⟩ := hsize
    exact ⟨⟨⟨⟨⟨h1, h2⟩, h3⟩, by simp⟩, h5⟩, h6⟩

theorem updateRow_ok_iff (lim : Limits) {now : Nat} (h : MayActivate r) :
    (∃ row, updateRow ev now today r (activated r prev) = .ok row) ↔
      ∀ x ∈ readings lim ev r (decide (r.status = .approved)) today, x.db := by
  rw [← guardChecks_ok_iff lim h]
  constructor
  · rintro ⟨row, hrow⟩
    exact (seq_ok_iff.1 hrow).1
  · intro hok
    have hdb := (guardChecks_ok_iff lim h).1 hok
    have hneed : ∀ slot ∈ r.contentClass.need, (r.runId slot).isSome = true := by
      intro slot hslot
      have hread : ∀ x ∈ slotReadings lim ev r slot, x.db := by
        intro x hx
        refine hdb x ?_
        unfold readings
        simp only [mem_append, mem_cons, mem_flatMap]
        exact Or.inl (Or.inr (Or.inr ⟨slot, hslot, hx⟩))
      exact need_present (Or.inr hread)
    refine ⟨guardWrites now today r (activated r prev), seq_ok_iff.2 ⟨hok, ?_⟩⟩
    rw [if_pos (written_tableChecks h hneed)]
    rfl

/-- The halves agree on a release unless it breaks rules of one half only. -/
theorem gate_agrees_iff (lim : Limits) (ev : Evidence) (r : Release) (now : Nat) (today : Date)
    (prev : Option Id) (h : MayActivate r) :
    (evidenceProblem lim ev r (decide (r.status = .approved)) today = .ok () ↔
      ∃ row, updateRow ev now today r (activated r prev) = .ok row) ↔
    ((∀ x ∈ readings lim ev r (decide (r.status = .approved)) today, x.api ∨ x.db) →
      ((∃ x ∈ readings lim ev r (decide (r.status = .approved)) today, x.ApiOnly) ↔
        ∃ x ∈ readings lim ev r (decide (r.status = .approved)) today, x.DbOnly)) := by
  rw [evidenceProblem_ok_iff h, updateRow_ok_iff lim h]
  exact readings_agree_iff _

/-- An approved release of A1 rules with its eval and shadow runs named. -/
def a1Rules : Release where
  releaseId := 1
  writer := .a1
  scope := .platform
  tenantId := none
  releaseNo := 1
  trainKind := .regular
  contentClass := .rules
  ruleIds := [some 7]
  status := .approved
  r0RunId := none
  evalRunId := some 11
  shadowRunId := some 12
  previousReleaseId := none
  trainMonth := none
  emergencyReason := none
  emergencyRef := none
  approvedBy := some "admin"
  approvedAt := some 5
  approvalRef := none
  activatedAt := none
  retiredAt := none
  retiredReason := none
  rejectedBy := none
  rejectedReason := none

/-- A passing run of the release. -/
def passing (kind : RunKind) (details : JObj) : EvalRun where
  pipeline := .writingMemory
  writer := some .a1
  runKind := kind
  verdict := some .pass
  finishedAt := some 4
  releaseId := some 1
  details := some (.obj details)

/-- Its runs and its rule, with these details of the eval run. -/
def a1Evidence (details : JObj) : Evidence where
  runs := ⟨[(11, passing .r2 details), (12, passing .shadow [])], by simp⟩
  rules := ⟨[(7, ⟨.writerInstruction, .platform, none, .a1, .approved⟩)], by simp⟩
  closedMonth := fun _ => none

theorem a1Rules_mayActivate : MayActivate a1Rules := ⟨by decide +kernel, Or.inl rfl⟩

theorem gate_agrees_a1Rules : MayActivate a1Rules ∧
    ((∀ x ∈ readings ⟨4300, 900⟩ (a1Evidence []) a1Rules true ⟨2026, 7, 15⟩, x.api ∨ x.db) →
      ((∃ x ∈ readings ⟨4300, 900⟩ (a1Evidence []) a1Rules true ⟨2026, 7, 15⟩, x.ApiOnly) ↔
        ∃ x ∈ readings ⟨4300, 900⟩ (a1Evidence []) a1Rules true ⟨2026, 7, 15⟩, x.DbOnly)) := by
  refine ⟨a1Rules_mayActivate, (gate_agrees_iff ⟨4300, 900⟩ (a1Evidence []) a1Rules 9 ⟨2026, 7, 15⟩ none
    a1Rules_mayActivate).1 ⟨fun _ => ?_, fun _ => by decide +kernel⟩⟩
  refine ⟨guardWrites 9 ⟨2026, 7, 15⟩ a1Rules (activated a1Rules none), ?_⟩
  decide +kernel

/-- `seeded_fault: false` is no fault to the API and one to the database. -/
theorem seeded_false_parts : MayActivate a1Rules ∧
    evidenceProblem ⟨4300, 900⟩ (a1Evidence [("seeded_fault", .bool false)]) a1Rules true ⟨2026, 7, 15⟩ = .ok () ∧
    ¬ ∃ row, updateRow (a1Evidence [("seeded_fault", .bool false)]) 9 ⟨2026, 7, 15⟩ a1Rules
      (activated a1Rules none) = .ok row := by
  have hraise : updateRow (a1Evidence [("seeded_fault", .bool false)]) 9 ⟨2026, 7, 15⟩ a1Rules
      (activated a1Rules none) = .error .evalLink := by decide +kernel
  refine ⟨a1Rules_mayActivate, by decide +kernel, ?_⟩
  rintro ⟨row, hrow⟩
  rw [hraise] at hrow
  cases hrow

end CisApp.Releases
