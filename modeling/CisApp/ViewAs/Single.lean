import CisApp.ViewAs.Logged

/-! One view-as session at a time.

A start ends the open sessions that its own snapshot shows and then inserts its session.  Between a start's
snapshot and its commit another start of the same member sees neither its session nor its end, so two such
starts leave two open sessions (`two_open`): nothing in the table forbids them.

When a member's start takes its snapshot only while no other start of theirs is past its own, a committed
state has at most one open session of the member (`SingleInv`): whatever is committed open and still seen
open is on the start's list of rows to visit. -/

namespace CisApp.ViewAs

open Lib List

def OpenOf (rows : Table SessionId Session) (a : StaffId) (k : SessionId) : Prop :=
  ∃ v, rows.get? k = some v ∧ v.staff = a ∧ v.isOpen = true

def AtMostOne (a : StaffId) (rows : Table SessionId Session) : Prop :=
  rows.count (fun _ v => v.staff = a && v.isOpen) ≤ 1

/-- The next statement is the `END_OTHERS_SQL` of the staff member. -/
def sweeps (a : StaffId) : List Stmt → Bool
  | .endOthers b _ :: _ => b = a
  | _ => false

/-- A start of the staff member takes its snapshot only while no other start of theirs has taken its own
and is still open. -/
def apart (a : StaffId) (s : System) : Act → Bool
  | .advance i =>
    !(s.txns.get? i).any (fun x => sweeps a x.todo) ||
      s.txns.rows.all fun e => e.1 = i || e.2.data.begun ≠ some a
  | _ => true

/-- A session is inserted once, after the member's others were ended. -/
def ready : Option StaffId → Bool → List Stmt → Bool
  | _, _, [] => true
  | begun, isOpened, .endOthers a _ :: rest => begun.isNone && ready (some a) isOpened rest
  | begun, isOpened, .insert n :: rest => begun = some n.staff && !isOpened && ready begun true rest
  | begun, isOpened, .close _ _ _ :: rest => ready begun isOpened rest
  | begun, isOpened, .visit _ _ _ :: rest => ready begun isOpened rest
  | begun, isOpened, .look _ _ _ _ :: rest => ready begun isOpened rest
  | begun, isOpened, .record _ :: rest => ready begun isOpened rest
  | begun, isOpened, .audit _ :: rest => ready begun isOpened rest

theorem ready_visits (rows : Table SessionId Session) (target : Target) (reason : EndReason) (now : Nat)
    (begun : Option StaffId) (isOpened : Bool) (rest : List Stmt) :
    ready begun isOpened (visits rows target reason now ++ rest) = ready begun isOpened rest := by
  unfold visits
  induction rows.matching fun k v => target.hits k v && v.isOpen with
  | nil => rfl
  | cons k ks ih => exact ih

theorem ready_audits (rows : List AuditRow) (begun : Option StaffId) (isOpened : Bool) (rest : List Stmt) :
    ready begun isOpened (rows.map Stmt.audit ++ rest) = ready begun isOpened rest := by
  induction rows with
  | nil => rfl
  | cons r rs ih => exact ih

theorem ready_program (a : Request) : ready none false (program a) = true := by
  cases a with
  | startViewAs n => simp [program, ready]
  | _ => rfl

variable {rows : Table SessionId Session} {x : Transaction}

variable {rest : List Stmt}

theorem Ran.ready {st : Stmt} {e : SessionEffect} (h : Ran rows x.data st e) (htodo : x.todo = st :: rest)
    (hr : ready x.data.begun x.data.opened.isSome x.todo = true) :
    ready (x.apply e rest).data.begun (x.apply e rest).data.opened.isSome (x.apply e rest).todo = true := by
  rw [htodo] at hr
  unfold Txn.apply
  cases h with
  | plain h =>
    cases h with
    | endOthers staff now =>
      rw [ready_visits]
      unfold ViewAs.ready at hr
      rw [Bool.and_eq_true] at hr
      exact hr.2
    | close target reason now =>
      rw [ready_visits]
      exact hr
    | look reason n _ => exact hr
    | record n =>
      rw [ready_audits]
      exact hr
    | audit r => exact hr
  | closed _ _ => exact hr
  | passed _ => exact hr
  | opened _ =>
    unfold ViewAs.ready at hr
    rw [Bool.and_eq_true] at hr
    exact hr.2

/-! ## What one statement does to the open sessions -/

variable {a : StaffId}

variable {k : SessionId}

theorem openOf_overlay {k' : SessionId} {v : Session} : OpenOf (overlay rows [(k, v)]) a k' ↔
      if k' = k then v.staff = a ∧ v.isOpen = true else OpenOf rows a k' := by
  unfold OpenOf overlay
  rw [foldl_cons, foldl_nil, Table.get?_upsert]
  split
  · constructor
    · rintro ⟨v', hv', h⟩
      cases hv'
      exact h
    · exact fun h => ⟨v, rfl, h⟩
  · exact Iff.rfl

theorem mem_visits (now : Nat) (h : OpenOf rows a k) : Stmt.visit k .ended now ∈ visits rows (.staff a) .ended now := by
  obtain ⟨v, hget, hstaff, hopen⟩ := h
  refine List.mem_map.2 ⟨k, ?_, rfl⟩
  rw [Table.mem_matching]
  exact ⟨v, hget, by simp [Target.hits, hstaff, hopen]⟩

/-- What one transaction may have done about the open sessions of the staff member `a`, over the
committed rows. -/
structure Sweep (a : StaffId) (rows : Table SessionId Session) (x : Transaction) : Prop where
  ready : ready x.data.begun x.data.opened.isSome x.todo = true
  other : x.data.begun ≠ some a → ∀ k, OpenOf (x.sees rows) a k → OpenOf rows a k
  sweep : x.data.begun = some a → ∀ k, OpenOf rows a k → OpenOf (x.sees rows) a k →
    ∃ reason now, Stmt.visit k reason now ∈ x.todo
  fresh : x.data.begun = some a → ∀ k, OpenOf (x.sees rows) a k → OpenOf rows a k ∨ x.data.opened = some k

theorem Sweep.plain {st : Stmt}
    {more : List Stmt} {m : Local} (h : Sweep a rows x) (htodo : x.todo = st :: rest)
    (hran : Plain (x.sees rows) x.data st more m) : Sweep a rows (x.apply { more := more, data := m } rest) := by
  have hready := Ran.ready (.plain hran) htodo h.ready
  have hsees : (x.apply { more := more, data := m } rest).sees rows = x.sees rows := sees_apply ..
  -- whatever was to be visited still is: the statement itself is no visit
  have hkeep : ∀ k reason now, Stmt.visit k reason now ∈ x.todo →
      Stmt.visit k reason now ∈ more ++ rest := by
    intro k reason now hin
    rw [htodo] at hin
    rcases List.mem_cons.1 hin with heq | hin
    · subst heq
      cases hran
    · exact mem_append_right _ hin
  have hsame : m.begun = x.data.begun → m.opened = x.data.opened →
      Sweep a rows (x.apply { more := more, data := m } rest) := by
    intro hbegun hopened
    refine ⟨hready, ?_, ?_, ?_⟩
    · show m.begun ≠ some a → _
      rw [hbegun, hsees]
      exact h.other
    · show m.begun = some a → _
      rw [hbegun, hsees]
      intro hb k hk hk'
      obtain ⟨reason, now, hin⟩ := h.sweep hb k hk hk'
      exact ⟨reason, now, hkeep k reason now hin⟩
    · show m.begun = some a → ∀ k, _ → _ ∨ m.opened = some k
      rw [hbegun, hopened, hsees]
      exact h.fresh
  cases hran with
  | endOthers staff now =>
    have hbegun : x.data.begun ≠ some a := by
      have hr := h.ready
      rw [htodo] at hr
      unfold ViewAs.ready at hr
      rw [Bool.and_eq_true, Option.isNone_iff_eq_none] at hr
      rw [hr.1]
      exact Option.some_ne_none a ∘ Eq.symm
    have hopen := h.other hbegun
    rw [← hsees] at hopen
    refine ⟨hready, fun _ => hopen, ?_, fun _ k hk => Or.inl (hopen k hk)⟩
    intro hb k _ hk
    cases Option.some.inj hb
    rw [hsees] at hk
    exact ⟨.ended, now, mem_append_left _ (mem_visits now hk)⟩
  | close target reason now => exact hsame rfl rfl
  | look reason n _ => exact hsame rfl rfl
  | record n => exact hsame rfl rfl
  | audit r => exact hsame rfl rfl

theorem Sweep.ran {st : Stmt} {e : SessionEffect} (h : Sweep a rows x) (htodo : x.todo = st :: rest)
    (hran : Ran (x.sees rows) x.data st e) : Sweep a rows (x.apply e rest) := by
  have hready := hran.ready htodo h.ready
  have hsees := sees_apply x e rest rows
  have hmem : ∀ k reason now, Stmt.visit k reason now ∈ x.todo → Stmt.visit k reason now ∈ rest ∨
      st = .visit k reason now := by
    intro k reason now hin
    rw [htodo] at hin
    rcases List.mem_cons.1 hin with heq | hin
    · exact Or.inr heq.symm
    · exact Or.inl hin
  cases hran with
  | plain hran => exact h.plain htodo hran
  | @closed k reason now v hget hopen =>
    have hiff : ∀ k', OpenOf (overlay (x.sees rows) [(k, v.close reason now)]) a k' ↔
        k' ≠ k ∧ OpenOf (x.sees rows) a k' := by
      intro k'
      rw [openOf_overlay]
      split
      · next heq => simp [heq, Session.close, Session.isOpen]
      · next hne => simp [hne]
    rw [← hsees] at hiff
    refine ⟨hready, ?_, ?_, ?_⟩
    · intro hb k' hk'
      exact h.other hb k' ((hiff k').1 hk').2
    · intro hb k' hk hk'
      obtain ⟨hne, hk'⟩ := (hiff k').1 hk'
      obtain ⟨reason', now', hin⟩ := h.sweep hb k' hk hk'
      rcases hmem k' reason' now' hin with hin | heq
      · exact ⟨reason', now', hin⟩
      · cases heq
        exact absurd rfl hne
    · intro hb k' hk'
      exact h.fresh hb k' ((hiff k').1 hk').2
  | @passed k reason now hended =>
    have hsame : (x.apply { takes := [(k, true)], data := x.data } rest).sees rows = x.sees rows := hsees
    refine ⟨hready, ?_, ?_, ?_⟩
    · rw [hsame]
      exact h.other
    · rw [hsame]
      intro hb k' hk hk'
      obtain ⟨reason', now', hin⟩ := h.sweep hb k' hk hk'
      rcases hmem k' reason' now' hin with hin | heq
      · exact ⟨reason', now', hin⟩
      · cases heq
        obtain ⟨v, hv, -, hv'⟩ := hk'
        rw [hended v hv] at hv'
        cases hv'
    · rw [hsame]
      exact h.fresh
  | @opened n hnone =>
    have hbegun : x.data.begun = some n.staff := by
      have hr := h.ready
      rw [htodo] at hr
      unfold ViewAs.ready at hr
      rw [Bool.and_eq_true, Bool.and_eq_true, decide_eq_true_eq] at hr
      exact hr.1.1
    have hclosed : x.data.opened = none := by
      have hr := h.ready
      rw [htodo] at hr
      unfold ViewAs.ready at hr
      rw [Bool.and_eq_true, Bool.and_eq_true] at hr
      simpa using hr.1.2
    have hcases : ∀ k, OpenOf (overlay (x.sees rows) [(n.session, n.row)]) a k →
        OpenOf (x.sees rows) a k ∨ n.staff = a ∧ k = n.session := by
      intro k hk
      rw [openOf_overlay] at hk
      split at hk
      · next heq => exact Or.inr ⟨hk.1, heq⟩
      · exact Or.inl hk
    rw [← hsees] at hcases
    refine ⟨hready, ?_, ?_, ?_⟩
    · intro hb k hk
      rcases hcases k hk with hk | ⟨hstaff, -⟩
      · exact h.other hb k hk
      · exact absurd (hstaff ▸ hbegun) hb
    · intro hb k hk hk'
      rcases hcases k hk' with hk' | ⟨-, rfl⟩
      · obtain ⟨reason, now, hin⟩ := h.sweep hb k hk hk'
        rcases hmem k reason now hin with hin | heq
        · exact ⟨reason, now, hin⟩
        · cases heq
      · -- its own session is not a committed one
        obtain ⟨v, hv, -⟩ := hk
        rw [Txn.sees, get?_overlay, hv, Option.or_eq_none_iff] at hnone
        cases hnone.2
    · intro hb k hk
      rcases hcases k hk with hk | ⟨-, rfl⟩
      · rcases h.fresh hb k hk with hk | heq
        · exact Or.inl hk
        · rw [hclosed] at heq
          cases heq
      · exact Or.inr rfl

/-! ## The invariant -/

structure SingleInv (a : StaffId) (s : System) : Prop where
  one : ∀ k k', OpenOf s.rows a k → OpenOf s.rows a k' → k = k'
  alone : ∀ i j x y, s.txns.get? i = some x → s.txns.get? j = some y → x.data.begun = some a →
    y.data.begun = some a → i = j
  sweep : ∀ i x, s.txns.get? i = some x → Sweep a s.rows x

theorem atMostOne_iff (a : StaffId) (rows : Table SessionId Session) :
    AtMostOne a rows ↔ ∀ k k', OpenOf rows a k → OpenOf rows a k' → k = k' := by
  have hmem : ∀ k, k ∈ rows.matching (fun _ v => v.staff = a && v.isOpen) ↔ OpenOf rows a k := by
    intro k
    rw [Table.mem_matching]
    simp [OpenOf]
  unfold AtMostOne
  rw [Table.count_eq_length]
  constructor
  · intro hle k k' hk hk'
    rw [← hmem] at hk hk'
    rcases hl : rows.matching (fun _ v => v.staff = a && v.isOpen) with _ | ⟨k₀, _ | ⟨k₁, l⟩⟩
    · rw [hl] at hk
      cases hk
    · rw [hl, mem_singleton] at hk hk'
      rw [hk, hk']
    · rw [hl] at hle
      simp at hle
  · intro hone
    have hnodup := rows.matching_nodup (fun _ v => v.staff = a && v.isOpen)
    rcases hl : rows.matching (fun _ v => v.staff = a && v.isOpen) with _ | ⟨k₀, _ | ⟨k₁, l⟩⟩
    · exact Nat.zero_le _
    · exact Nat.le_refl _
    · rw [hl] at hnodup
      have heq := hone k₀ k₁ ((hmem k₀).1 (by simp [hl])) ((hmem k₁).1 (by simp [hl]))
      simp [heq] at hnodup

theorem Sweep.frame {s : System} {act : Act} {i : Nat}
    (h : Sweep a s.rows x) (hlock : LockInv s) (hx : s.txns.get? i = some x) (hy : (step s act).txns.get? i = some x)
    (hold : x.data.begun = some a → ∀ k, OpenOf (step s act).rows a k → OpenOf s.rows a k) :
    Sweep a (step s act).rows x := by
  have hframe : ∀ k, OpenOf (x.sees (step s act).rows) a k →
      (OpenOf (x.sees s.rows) a k ∧ (OpenOf (step s act).rows a k ↔ OpenOf s.rows a k)) ∨
        (OpenOf (step s act).rows a k ∧ (OpenOf (x.sees s.rows) a k ↔ OpenOf s.rows a k)) := by
    intro k hk
    unfold OpenOf at hk ⊢
    rcases hlock.frame hx hy k with ⟨hrows, hsees⟩ | ⟨hsees, hbefore⟩
    · left
      rw [show (x.sees (step s act).rows).get? k = _ from hsees] at hk
      rw [show (step s act).rows.get? k = _ from hrows]
      exact ⟨hk, Iff.rfl⟩
    · right
      rw [show (x.sees (step s act).rows).get? k = _ from hsees] at hk
      rw [hbefore]
      exact ⟨hk, Iff.rfl⟩
  refine ⟨h.ready, ?_, ?_, ?_⟩
  · intro hb k hk
    rcases hframe k hk with ⟨hk, hiff⟩ | ⟨hk, -⟩
    · exact hiff.2 (h.other hb k hk)
    · exact hk
  · intro hb k hk hk'
    have hbefore := hold hb k hk
    rcases hframe k hk' with ⟨hsees, -⟩ | ⟨-, hiff⟩
    · exact h.sweep hb k hbefore hsees
    · exact h.sweep hb k hbefore (hiff.2 hbefore)
  · intro hb k hk
    rcases hframe k hk with ⟨hk, hiff⟩ | ⟨hk, -⟩
    · rcases h.fresh hb k hk with hk | heq
      · exact Or.inl (hiff.2 hk)
      · exact Or.inr heq
    · exact Or.inl hk

theorem SingleInv.step {s : System} (h : SingleInv a s) (hlock : LockInv s) {act : Act}
    (hapart : apart a s act = true) : SingleInv a (step s act) := by
  -- a start of the member that another transaction has begun commits nothing of theirs
  have hold : ∀ i x, s.txns.get? i = some x → (ViewAs.step s act).txns.get? i = some x →
      x.data.begun = some a → ∀ k, OpenOf (ViewAs.step s act).rows a k → OpenOf s.rows a k := by
    intro i x hx hy hb k hk
    rcases commit_cases service s act with ⟨hrows, -⟩ | ⟨j, z, -, hz, -, hrows, -, -, hend⟩
    · rwa [show (ViewAs.step s act).rows = _ from hrows] at hk
    · rw [show (ViewAs.step s act).rows = _ from hrows] at hk
      refine (h.sweep j z hz).other (fun hb' => ?_) k hk
      cases h.alone i j x z hx hz hb hb'
      rw [show (service.step s act).txns.get? i = some x from hy] at hend
      cases hend
  -- a transaction that begins a start of the member is the only one, and else it had begun before
  have hbegun : ∀ i y, (ViewAs.step s act).txns.get? i = some y → y.data.begun = some a →
      (∃ x, s.txns.get? i = some x ∧ x.data.begun = some a) ∨
        ∀ j z, j ≠ i → (ViewAs.step s act).txns.get? j = some z → z.data.begun ≠ some a := by
    intro i y hy hb
    rcases txns_cases service hy with hx | ⟨r, -, -, rfl⟩ | ⟨x, st, rest, e, rfl, hx, htodo, -, hexec, rfl⟩
    · exact Or.inl ⟨y, hx, hb⟩
    · cases hb
    · by_cases hbefore : x.data.begun = some a
      · exact Or.inl ⟨x, hx, hbefore⟩
      · right
        have hsweeps : sweeps a x.todo = true := by
          rw [htodo]
          cases exec_ran hexec with
          | plain hran =>
            cases hran with
            | endOthers staff now => exact decide_eq_true (Option.some.inj hb)
            | _ => exact absurd hb hbefore
          | closed _ _ => exact absurd hb hbefore
          | passed _ => exact absurd hb hbefore
          | opened _ => exact absurd hb hbefore
        intro j z hj hz
        have hz' : s.txns.get? j = some z := by
          rcases txns_cases service hz with hz | ⟨_, heq, -⟩ | ⟨_, _, _, _, heq, -⟩
          · exact hz
          · cases heq
          · exact absurd (Label.advance.inj heq).symm hj
        unfold apart at hapart
        dsimp only at hapart
        rw [hx, Option.any_some, hsweeps, Bool.not_true, Bool.false_or, all_eq_true] at hapart
        have hrow := hapart (j, z) ((Table.get?_eq_some_iff _ _ _).1 hz')
        simpa [hj] using hrow
  refine ⟨?_, ?_, ?_⟩
  · intro k k' hk hk'
    rcases commit_cases service s act with ⟨hrows, -⟩ | ⟨i, x, -, hx, hdone, hrows, -⟩
    · rw [show (ViewAs.step s act).rows = _ from hrows] at hk hk'
      exact h.one k k' hk hk'
    · rw [show (ViewAs.step s act).rows = _ from hrows] at hk hk'
      have hx' := h.sweep i x hx
      by_cases hb : x.data.begun = some a
      · -- nothing is left to visit, so only its own session is open
        have hown : ∀ k, OpenOf (x.sees s.rows) a k → x.data.opened = some k := by
          intro k hk
          rcases hx'.fresh hb k hk with hrow | heq
          · obtain ⟨reason, now, hin⟩ := hx'.sweep hb k hrow hk
            rw [hdone] at hin
            cases hin
          · exact heq
        have heq := (hown k hk).symm.trans (hown k' hk')
        exact Option.some.inj heq
      · exact h.one k k' (hx'.other hb k hk) (hx'.other hb k' hk')
  · intro i j x y hx hy hbx hby
    by_contra hij
    rcases hbegun i x hx hbx with ⟨x₀, hx₀, hb₀⟩ | hnone
    · rcases hbegun j y hy hby with ⟨y₀, hy₀, hb₁⟩ | hnone
      · exact hij (h.alone i j x₀ y₀ hx₀ hy₀ hb₀ hb₁)
      · exact hnone i x hij hx hbx
    · exact hnone j y (Ne.symm hij) hy hby
  · intro i y hy
    rcases txns_cases service hy with hx | ⟨r, -, -, rfl⟩ | ⟨x, st, rest, e, rfl, hx, htodo, -, hexec, rfl⟩
    · exact (h.sweep i y hx).frame hlock hx hy (hold i y hx hy)
    · refine ⟨ready_program r, fun _ k hk => hk, fun hb => ?_, fun hb => ?_⟩ <;> cases hb
    · have hrows : (ViewAs.step s (.advance i)).rows = s.rows := by
        rcases commit_cases service s (.advance i) with ⟨hrows, -⟩ | ⟨_, _, heq, -⟩
        · exact hrows
        · cases heq
      rw [hrows]
      exact (h.sweep i x hx).ran htodo (exec_ran hexec)

theorem singleInv_atRest (log : List AuditRow) (h : AtMostOne a rows) : SingleInv a (atRest rows log) := by
  refine ⟨(atMostOne_iff a rows).1 h, ?_, ?_⟩
  · intro i j x y hx
    cases hx
  · intro i x hx
    cases hx

/-! ## Every run -/

/-- One ended row for a session that has ended, none for one that is open. -/
def LoggedOnce (s : System) : Prop :=
  ∀ k, loggedOf s.shared k = if (s.rows.get? k).any (fun v => !v.isOpen) then 1 else 0

/-- The step that ends a session is the commit of a transaction that logged it once. -/
def EndsLogged (s : System) (act : Act) : Prop :=
  ∀ k v, (step s act).rows.get? k = some v → v.isOpen = false →
    (∀ v₀, s.rows.get? k = some v₀ → v₀.isOpen = true) →
    ∃ i x, act = .commit i ∧ s.txns.get? i = some x ∧ (step s act).shared = s.shared ++ x.data.logged ∧
      loggedOf x.data.logged k = 1

theorem endsOf_of_ended {v : Session} (hv : rows.get? k = some v) (hended : v.isOpen = false) : endsOf rows k = 1 := by
  simp [endsOf, Table.hit, hv, endedRow, hended]

theorem LogInv.endsLogged {s : System} (h : LogInv s) (act : Act) : EndsLogged s act := by
  intro k v hv hended hbefore
  have hzero := endsOf_eq_zero hbefore
  have hone := endsOf_of_ended hv hended
  rcases commit_cases service s act with ⟨hrows, -⟩ | ⟨i, x, rfl, hx, hdone, hrows, hlog, -⟩
  · rw [show (ViewAs.step s act).rows = _ from hrows] at hone
    omega
  · refine ⟨i, x, rfl, hx, hlog, ?_⟩
    rw [show (ViewAs.step s (.commit i)).rows = _ from hrows] at hone
    have := h.logged hx hdone k
    omega

/-- **View-as sessions.**  In every run each end is logged once, by the transaction that commits it; and a
staff member whose starts take their snapshots apart has at most one open session. -/
theorem sessions_ended_and_single (rows : Table SessionId Session) (log : List AuditRow)
    (hlog : LoggedOnce (atRest rows log)) (acts : List Act) :
    Always step LoggedOnce (atRest rows log) acts ∧ Along step EndsLogged (atRest rows log) acts ∧
      ∀ a, AtMostOne a rows → Along step (fun s act => apart a s act = true) (atRest rows log) acts →
        Always step (fun s => AtMostOne a s.rows) (atRest rows log) acts := by
  have hboth : Always step (fun s => LogInv s ∧ LockInv s) (atRest rows log) acts :=
    always_of_step (fun s act h => ⟨h.1.step h.2 act, h.2.step service_lawful act⟩) acts
      ⟨logInv_atRest hlog, lockInv_init rows log⟩
  refine ⟨hboth.mono fun s h => h.1.log, hboth.along fun s act h _ => h.1.endsLogged act, ?_⟩
  intro a hone hapart
  have hinv : Always step (fun s => SingleInv a s ∧ LockInv s) (atRest rows log) acts :=
    hapart.always (fun s act h happ => ⟨h.1.step h.2 happ, h.2.step service_lawful act⟩)
      ⟨singleInv_atRest log hone, lockInv_init rows log⟩
  exact hinv.mono fun s h => (atMostOne_iff a s.rows).2 h.1.one

def startOf (k : SessionId) (tenant : TenantId) : Request :=
  .startViewAs ⟨k, 7, tenant, "ticket", none, 30, 1000⟩

/-- One start after the other: the second ends the first's session. -/
def inTurn : List Act :=
  [.start 1 (startOf 10 1), .advance 1, .advance 1, .advance 1, .advance 1, .commit 1,
    .start 2 (startOf 20 2), .advance 2, .advance 2, .advance 2, .advance 2, .advance 2, .advance 2, .commit 2]

theorem sessions_inTurn : Along step (fun s act => apart 7 s act = true) (atRest Table.empty []) inTurn ∧
      AtMostOne 7 (run step (atRest Table.empty []) inTurn).rows ∧
      loggedOf (run step (atRest Table.empty []) inTurn).shared 10 = 1 := by
  have hrest : LoggedOnce (atRest Table.empty []) := fun _ => rfl
  have happ : Along step (fun s act => apart 7 s act = true) (atRest Table.empty []) inTurn := by
    decide +kernel
  obtain ⟨hlogged, -, hone⟩ := sessions_ended_and_single Table.empty [] hrest inTurn
  refine ⟨happ, (hone 7 (Nat.zero_le _) happ).run, ?_⟩
  rw [hlogged.run 10]
  decide +kernel

def atOnce : List Act :=
  [.start 1 (startOf 10 1), .start 2 (startOf 20 2), .advance 1, .advance 2, .advance 1, .advance 2,
    .advance 1, .advance 1, .commit 1, .advance 2, .advance 2, .commit 2]

/-- Two starts of one staff member at once leave two open sessions. -/
theorem two_open : ¬Always step (fun s => AtMostOne 7 s.rows) (atRest Table.empty []) atOnce := by
  intro h
  have hone := h.run
  unfold AtMostOne at hone
  revert hone
  decide +kernel

end CisApp.ViewAs
