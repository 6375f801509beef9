import CisApp.ViewAs.Sessions

/-! Every end of a view-as session is logged once.

For each session, the ended rows that an open transaction has written, has still to write, or owes for what
its UPDATE returned are one in number when the transaction sees an end that is not yet committed, and none
otherwise (`LogInv.tally`).  Its statements leave nothing owed (`audited`), so a commit moves the session and
its row together. -/

namespace CisApp.ViewAs

open Lib List

def endedRow (_ : SessionId) (v : Session) : Bool := !v.isOpen

def endsOf (rows : Table SessionId Session) (k : SessionId) : Nat := rows.hit endedRow k

def loggedOf (log : List AuditRow) (k : SessionId) : Nat := log.countP (AuditRow.ends k)

def Stmt.logs (k : SessionId) : Stmt → Bool
  | .audit r => r.ends k
  | _ => false

/-- The ended rows of a session in a transaction: written, about to be written, owed. -/
def tally (x : Transaction) (k : SessionId) : Nat :=
  loggedOf x.data.logged k + x.todo.countP (Stmt.logs k) + x.data.closed.countP fun c => c.session = k

/-- Nothing stays owed: every UPDATE is followed by its audit rows. -/
def audited : Bool → List Stmt → Bool
  | owed, [] => !owed
  | _, .endOthers _ _ :: rest => audited true rest
  | _, .close _ _ _ :: rest => audited true rest
  | _, .visit _ _ _ :: rest => audited true rest
  | owed, .insert _ :: rest => audited owed rest
  | owed, .look _ _ _ _ :: rest => audited owed rest
  | _, .record _ :: rest => audited false rest
  | owed, .audit _ :: rest => audited owed rest

theorem audited_mono {todo : List Stmt} (owed : Bool) (h : audited true todo = true) : audited owed todo = true := by
  induction todo with
  | nil => cases h
  | cons st rest ih =>
    cases st with
    | insert _ => exact ih h
    | look _ _ _ _ => exact ih h
    | audit _ => exact ih h
    | _ => exact h

variable {rest : List Stmt}

theorem audited_visits (h : audited true rest = true) (rows : Table SessionId Session)
    (target : Target) (reason : EndReason) (now : Nat) (owed : Bool) :
    audited owed (visits rows target reason now ++ rest) = true := by
  unfold visits
  induction rows.matching fun k v => target.hits k v && v.isOpen generalizing owed with
  | nil => exact audited_mono owed h
  | cons k ks ih => exact ih true

theorem audited_audits (rows : List AuditRow) (owed : Bool) (rest : List Stmt) :
    audited owed (rows.map Stmt.audit ++ rest) = audited owed rest := by
  induction rows with
  | nil => rfl
  | cons r rs ih => exact ih

theorem audited_program (a : Request) : audited false (program a) = true := by
  cases a <;> rfl

/-! ## Counting -/

theorem countP_visits (rows : Table SessionId Session) (target : Target) (reason : EndReason) (now : Nat)
    (k : SessionId) : (visits rows target reason now).countP (Stmt.logs k) = 0 := by
  rw [countP_eq_zero]
  intro st hst
  obtain ⟨k', -, rfl⟩ := mem_map.1 hst
  simp [Stmt.logs]

theorem countP_audits (rows : List AuditRow) (k : SessionId) :
    (rows.map Stmt.audit).countP (Stmt.logs k) = loggedOf rows k := by
  rw [countP_map]
  rfl

theorem loggedOf_append (log log' : List AuditRow) (k : SessionId) :
    loggedOf (log ++ log') k = loggedOf log k + loggedOf log' k := countP_append

theorem loggedOf_rows (n : Note) (closed : List Closed) (k : SessionId) :
    loggedOf (n.rows closed) k = closed.countP fun c => c.session = k := by
  unfold Note.rows
  rw [loggedOf_append]
  have hstarted : loggedOf (n.start.toList.map fun s => AuditRow.started s.tenant n.actor s.session s.minutes
      s.ticketRef s.row.expiresAt (closed.map Closed.session)) k = 0 := by
    unfold loggedOf
    rw [countP_eq_zero]
    intro r hr
    obtain ⟨s, -, rfl⟩ := mem_map.1 hr
    simp [AuditRow.ends]
  rw [hstarted, Nat.add_zero, loggedOf, countP_map]
  rfl

variable {rows : Table SessionId Session}

theorem endsOf_overlay_of_ne {k k' : SessionId} (v : Session)
    (h : k' ≠ k) : endsOf (overlay rows [(k, v)]) k' = endsOf rows k' := by
  unfold endsOf Table.hit overlay
  rw [foldl_cons, foldl_nil, Table.get?_upsert, if_neg h]

theorem endsOf_overlay_self (rows : Table SessionId Session) (k : SessionId) (v : Session) :
    endsOf (overlay rows [(k, v)]) k = if v.isOpen then 0 else 1 := by
  unfold endsOf Table.hit overlay
  cases hv : v.isOpen <;> simp [endedRow, hv]

theorem endsOf_eq_zero {k : SessionId} (h : ∀ v, rows.get? k = some v → v.isOpen = true) : endsOf rows k = 0 := by
  unfold endsOf Table.hit
  cases hv : rows.get? k with
  | none => rfl
  | some v => simp [endedRow, h v hv]

variable {x : Transaction}

theorem Ran.tally {st : Stmt}
    {e : SessionEffect} (h : Ran (x.sees rows) x.data st e) (htodo : x.todo = st :: rest) (k : SessionId) :
    tally (x.apply e rest) k + endsOf (x.sees rows) k = tally x k + endsOf ((x.apply e rest).sees rows) k := by
  have hsees := sees_apply x e rest rows
  cases h with
  | plain h =>
    have hsame : (x.apply { more := _, data := _ } rest).sees rows = x.sees rows := hsees
    rw [hsame, Nat.add_right_cancel_iff]
    unfold ViewAs.tally Txn.apply
    rw [htodo, countP_append, countP_cons]
    cases h with
    | endOthers staff now => simp [countP_visits, Stmt.logs]
    | close target reason now => simp [countP_visits, Stmt.logs]
    | look reason n _ => simp [Stmt.logs]
    | record n =>
      rw [countP_audits, loggedOf_rows]
      simp [Stmt.logs]
      omega
    | audit r =>
      have hone : loggedOf [r] k = if Stmt.logs k (.audit r) then 1 else 0 := countP_singleton ..
      rw [loggedOf_append, hone, countP_nil]
      dsimp only
      omega
  | @closed k' reason now v hget hopen =>
    rw [hsees]
    unfold ViewAs.tally Txn.apply
    rw [htodo, nil_append, countP_cons, countP_append, countP_singleton]
    by_cases hk : k = k'
    · subst hk
      have hbefore : endsOf (x.sees rows) k = 0 := by
        refine endsOf_eq_zero fun v' hv' => ?_
        rw [hget] at hv'
        cases hv'
        exact hopen
      rw [endsOf_overlay_self, hbefore]
      simp [Stmt.logs, Session.close, Session.isOpen]
      omega
    · have hne : ¬k' = k := fun heq => hk heq.symm
      rw [endsOf_overlay_of_ne _ hk]
      simp [Stmt.logs, hne]
  | passed _ =>
    rw [hsees]
    unfold ViewAs.tally Txn.apply
    rw [htodo, nil_append, countP_cons]
    simp [Stmt.logs, overlay]
  | @opened n hnone =>
    rw [hsees]
    unfold ViewAs.tally Txn.apply
    rw [htodo, nil_append, countP_cons]
    by_cases hk : k = n.session
    · subst hk
      have hbefore : endsOf (x.sees rows) n.session = 0 := by
        refine endsOf_eq_zero fun v hv => ?_
        rw [hnone] at hv
        cases hv
      rw [endsOf_overlay_self, hbefore]
      simp [Stmt.logs, Start.row, Session.isOpen]
    · rw [endsOf_overlay_of_ne _ hk]
      simp [Stmt.logs]

theorem Ran.audited {st : Stmt} {e : SessionEffect} (h : Ran rows x.data st e) (htodo : x.todo = st :: rest)
    (ha : audited (!x.data.closed.isEmpty) x.todo = true) :
    audited (!(x.apply e rest).data.closed.isEmpty) (x.apply e rest).todo = true := by
  rw [htodo] at ha
  unfold Txn.apply
  cases h with
  | plain h =>
    cases h with
    | endOthers staff now => exact audited_visits ha _ _ _ _ _
    | close target reason now => exact audited_visits ha _ _ _ _ _
    | look reason n _ =>
      -- nothing is owed to the statements after it: the ones it adds end with their own audit
      show ViewAs.audited false rest = true
      have hcase : ∀ owed, ViewAs.audited owed rest = true → ViewAs.audited false rest = true := by
        intro owed h
        cases owed with
        | false => exact h
        | true => exact audited_mono false h
      exact hcase _ ha
    | record n =>
      rw [audited_audits]
      exact ha
    | audit r => exact ha
  | closed _ _ =>
    rw [isEmpty_eq_false_iff.2 (append_ne_nil_of_right_ne_nil _ (cons_ne_nil _ _))]
    exact ha
  | passed _ => exact audited_mono _ ha
  | opened _ => exact ha

/-! ## The invariant -/

structure LogInv (s : System) : Prop where
  log : ∀ k, loggedOf s.shared k = endsOf s.rows k
  tally : ∀ i x, s.txns.get? i = some x → ∀ k, tally x k + endsOf s.rows k = endsOf (x.sees s.rows) k
  audited : ∀ i x, s.txns.get? i = some x → audited (!x.data.closed.isEmpty) x.todo = true

theorem logInv_atRest {log : List AuditRow} (h : ∀ k, loggedOf log k = endsOf rows k) : LogInv (atRest rows log) := by
  refine ⟨h, ?_, ?_⟩
  · intro i x hx
    cases hx
  · intro i x hx
    cases hx

theorem LogInv.logged {s : System} (h : LogInv s) {i : Nat} (hx : s.txns.get? i = some x)
    (hdone : x.todo = []) (k : SessionId) : loggedOf x.data.logged k + endsOf s.rows k = endsOf (x.sees s.rows) k := by
  have hpaid := h.audited i x hx
  rw [hdone] at hpaid
  have hnil : x.data.closed = [] := by
    cases hc : x.data.closed with
    | nil => rfl
    | cons c cs =>
      rw [hc] at hpaid
      cases hpaid
  have htally := h.tally i x hx k
  unfold ViewAs.tally at htally
  rwa [hdone, hnil, countP_nil, countP_nil, Nat.add_zero] at htally

theorem LogInv.step {s : System} (h : LogInv s) (hlock : LockInv s) (act : Act) : LogInv (step s act) := by
  refine ⟨?_, ?_, ?_⟩
  · intro k
    rcases commit_cases service s act with ⟨hrows, hlog, -⟩ | ⟨i, x, -, hx, hdone, hrows, hlog, -⟩
    · show loggedOf (service.step s act).shared k = endsOf (service.step s act).rows k
      rw [hrows, hlog]
      exact h.log k
    · show loggedOf (service.step s act).shared k = endsOf (service.step s act).rows k
      rw [hrows, hlog]
      show loggedOf (s.shared ++ x.data.logged) k = _
      have := h.logged hx hdone k
      have := h.log k
      rw [loggedOf_append]
      omega
  · intro i y hy k
    rcases txns_cases service hy with hx | ⟨a, -, -, rfl⟩ | ⟨x, st, rest, e, rfl, hx, htodo, -, hexec, rfl⟩
    · have htally := h.tally i y hx k
      rcases hlock.frame hx hy k with ⟨hrows, hsees⟩ | ⟨hsees, hbefore⟩
      · unfold endsOf Table.hit at htally ⊢
        rw [show (ViewAs.step s act).rows.get? k = s.rows.get? k from hrows,
          show (y.sees (ViewAs.step s act).rows).get? k = _ from hsees]
        exact htally
      · -- it has not touched the row, so it owes nothing for it
        have hzero : ViewAs.tally y k = 0 := by
          unfold endsOf Table.hit at htally
          rw [hbefore] at htally
          omega
        rw [hzero, Nat.zero_add]
        unfold endsOf Table.hit
        rw [show (y.sees (ViewAs.step s act).rows).get? k = _ from hsees]
        rfl
    · have hnone : (program a).countP (Stmt.logs k) = 0 := by
        cases a <;> rfl
      show 0 + (program a).countP (Stmt.logs k) + 0 + _ = _
      rw [hnone, Nat.zero_add]
      rfl
    · have hran := exec_ran hexec
      have hrows : (ViewAs.step s (.advance i)).rows = s.rows := by
        rcases commit_cases service s (.advance i) with ⟨hrows, -⟩ | ⟨_, _, heq, -⟩
        · exact hrows
        · cases heq
      rw [hrows]
      have := h.tally i x hx k
      have := hran.tally htodo k
      omega
  · intro i y hy
    rcases txns_cases service hy with hx | ⟨a, -, -, rfl⟩ | ⟨x, st, rest, e, rfl, hx, htodo, -, hexec, rfl⟩
    · exact h.audited i y hx
    · exact audited_program a
    · exact (exec_ran hexec).audited htodo (h.audited i x hx)

end CisApp.ViewAs
