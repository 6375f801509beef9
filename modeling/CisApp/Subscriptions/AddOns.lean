import CisApp.Subscriptions.Writers

/-! A live add-on has live content.

The guard sees what its own transaction sees, so on its own it keeps no more than a transaction's own view in order
(`Cells.Covered`, `Covered.exec`).  What makes the committed rows follow is the lock of the tenant row: whoever changes
which subscriptions are live holds it (`Holding`), so there is one such transaction at a time, and the trial-end tick, which
does not hold it while it ends trials, leaves everything as live as it was (`Ticking.same`).  The tick takes the tenant's
lock last, for the account, and is then one of the holders. -/

namespace CisApp.Subscriptions

open Lib List

/-! ## Live rows -/

def Cells.Covered (rows : Cells) (t : Nat) : Prop :=
  ∀ a, rows.liveAt t (.addOn a) = true → rows.liveAt t .content = true

theorem liveAt_congr {rows rows' : Cells} {t : Nat} {p : Product}
    (h : rows.get? (.sub t p) = rows'.get? (.sub t p)) : rows.liveAt t p = rows'.liveAt t p := by
  unfold Cells.liveAt
  rw [h]

theorem liveAt_upsert (rows : Cells) (k : Key) (c : Cell) (t : Nat) (p : Product) :
    Cells.liveAt (rows.upsert k c) t p = if .sub t p = k then c.live else rows.liveAt t p := by
  unfold Cells.liveAt
  rw [Table.get?_upsert]
  split
  · rfl
  · rfl

theorem liveAt_of_sub? {rows : Cells} {t : Nat} {p : Product} {s : Sub} (h : rows.sub? t p = some s) :
    rows.liveAt t p = s.status.live := by
  unfold Cells.sub? at h
  unfold Cells.liveAt
  split at h
  · next s' hs' =>
    cases h
    rw [hs']
    rfl
  · cases h

theorem Cells.Covered.congr {rows rows' : Cells} {t : Nat} (h : rows.Covered t)
    (heq : ∀ p, rows'.liveAt t p = rows.liveAt t p) : rows'.Covered t := by
  intro a ha
  rw [heq] at ha ⊢
  exact h a ha

theorem guard_content (rows : Cells) (t : Nat) (s : Sub) :
    rows.guard t .content s = (s.status.live || addOns.all fun a => !rows.liveAt t (.addOn a)) := rfl

theorem guard_addOn (rows : Cells) (t : Nat) (a : AddOn) (s : Sub) :
    rows.guard t (.addOn a) s = (!s.status.live || rows.liveAt t .content) := rfl

theorem Cells.Covered.put {rows : Cells} {t : Nat} {p : Product} {s : Sub} (h : rows.Covered t)
    (hguard : rows.guard t p s = true) : Cells.Covered (rows.upsert (.sub t p) (.sub s)) t := by
  intro a ha
  rw [liveAt_upsert] at ha ⊢
  cases p with
  | content =>
    rw [if_neg (by simp)] at ha
    rw [if_pos rfl]
    rw [guard_content, Bool.or_eq_true] at hguard
    rcases hguard with hlive | hnone
    · exact hlive
    · have hdead := List.all_eq_true.1 hnone a (by cases a <;> decide)
      rw [ha] at hdead
      cases hdead
  | addOn b =>
    rw [if_neg (by simp)]
    by_cases hab : a = b
    · subst hab
      rw [if_pos rfl] at ha
      rw [guard_addOn, show s.status.live = true from ha] at hguard
      exact hguard
    · rw [if_neg (by simpa using hab)] at ha
      exact h a ha

theorem Cells.Covered.account {rows : Cells} {t u : Nat} (h : rows.Covered t) (c : Cell) :
    Cells.Covered (rows.upsert (.tenant u) c) t := by
  refine h.congr fun p => ?_
  rw [liveAt_upsert, if_neg (by simp)]

/-! ## What a statement does -/

/-- The part of an `INSERT … ON CONFLICT` that comes after its guard. -/
def Op.late : Op → Bool
  | .addOnRow _ _ => true
  | _ => false

/-- An account, or one subscription: past the guard, or an add-on whose guard was before. -/
def Wrote (rows : Cells) (t : Nat) (op : Op) (e : SubEffect) : Prop :=
  e.writes = [] ∨ (∃ c, e.writes = [(.tenant t, c)] ∧ (.tenant t, true) ∈ e.takes) ∨
    ∃ p s, e.writes = [(.sub t p, .sub s)] ∧ (.sub t p, true) ∈ e.takes ∧
      (rows.guard t p s = true ∨ op.late = true ∧ p ≠ .content)

def Plain (t : Nat) (more : List Stmt) : Prop := ∀ st ∈ more, st.tenant = t ∧ st.op.late = false

structure Did (rows : Cells) (t : Nat) (op : Op) (e : SubEffect) : Prop where
  takes : ∀ h ∈ e.takes, h ∈ needs ⟨t, op⟩
  wrote : Wrote rows t op e
  more : Plain t e.more ∨
    ∃ w mode, e.more = [⟨t, .addOnRow w mode⟩] ∧ e.writes = [] ∧ rows.liveAt t .content = true

theorem plain_nil (t : Nat) : Plain t [] := fun _ h => absurd h not_mem_nil

theorem plain_one {t : Nat} {op : Op} (h : op.late = false) : Plain t [⟨t, op⟩] := by
  intro st hst
  rw [mem_singleton.1 hst]
  exact ⟨rfl, h⟩

theorem Plain.ite {t : Nat} {c : Prop} [Decidable c] {l : List Stmt} (h : Plain t l) : Plain t (if c then l else []) := by
  split
  · exact h
  · exact plain_nil t

theorem Plain.append {t : Nat} {l l' : List Stmt} (h : Plain t l) (h' : Plain t l') : Plain t (l ++ l') :=
  forall_mem_append.2 ⟨h, h'⟩

theorem plain_map {α : Type} {t : Nat} (l : List α) {f : α → Op} (h : ∀ a ∈ l, (f a).late = false) :
    Plain t (l.map fun a => ⟨t, f a⟩) := by
  intro st hst
  obtain ⟨a, ha, rfl⟩ := mem_map.1 hst
  exact ⟨rfl, h a ha⟩

section statements

variable {rows : Cells} {data : Local} {t : Nat} {op : Op} {e : SubEffect}

theorem Did.find {more : List Stmt} {data' : Local} (h : Plain t more) : Did rows t op { more, data := data' } :=
  ⟨fun _ h => absurd h not_mem_nil, Or.inl rfl, Or.inl h⟩

theorem Did.lock {k : Key} {more : List Stmt} {data' : Local} (hneeds : needs ⟨t, op⟩ = [(k, true)])
    (h : Plain t more) : Did rows t op { takes := [(k, true)], more, data := data' } :=
  ⟨fun _ h => by rw [hneeds]; exact h, Or.inl rfl, Or.inl h⟩

theorem did_put {p : Product} {s : Sub} (hneeds : needs ⟨t, op⟩ = [(.sub t p, true)])
    (h : put rows data t p s = .ok e) : Did rows t op e := by
  unfold put at h
  split at h
  · next hguard =>
    cases h
    exact ⟨fun _ h => by rw [hneeds]; exact h, Or.inr (Or.inr ⟨p, s, rfl, mem_cons_self, Or.inl hguard⟩),
      Or.inl (plain_nil t)⟩
  · cases h

theorem did_change {p : Product} {f : Sub → Option Sub} (hneeds : needs ⟨t, op⟩ = [(.sub t p, true)])
    (h : change rows data t p f = .ok e) : Did rows t op e := by
  unfold change at h
  split at h
  · cases h
    exact Did.find (plain_nil t)
  · split at h
    · cases h
      exact Did.lock hneeds (plain_nil t)
    · exact did_put hneeds h

theorem did_setAccount {set : TenantSet} (hneeds : needs ⟨t, op⟩ = [(.tenant t, true)])
    (h : setAccount rows data t set = .ok e) : Did rows t op e := by
  unfold setAccount at h
  split at h
  · cases h
    exact Did.find (plain_nil t)
  · cases h
    exact ⟨fun _ h => by rw [hneeds]; exact h, Or.inr (Or.inl ⟨_, rfl, mem_cons_self⟩), Or.inl (plain_one rfl).ite⟩

theorem proposed_live (w : Wanted) (mode : InsertMode) : (mode.proposed w).status.live = true := by
  cases mode with
  | upsert trialEndsAt => cases trialEndsAt <;> rfl
  | onlyNew now => rfl

theorem exec_did (h : exec rows data t op = .ok e) : Did rows t op e := by
  cases op with
  | insertTenant new tier plan =>
    dsimp only [exec] at h
    split at h
    · cases h
    · cases h
      exact ⟨fun _ h => h, Or.inr (Or.inl ⟨_, rfl, mem_cons_self⟩), Or.inl (plain_one rfl)⟩
  | updateTenant set => exact did_setAccount rfl h
  | bridge old new tierMoved plan =>
    dsimp only [exec] at h
    split at h
    · cases h
      exact Did.find (plain_one rfl)
    · cases h
      exact Did.find ((plain_one rfl).ite.append (plain_one rfl))
  | insertContent closed plan =>
    dsimp only [exec] at h
    split at h
    · cases h
    · exact did_put rfl h
  | update c among =>
    cases h
    exact Did.find (plain_map _ fun _ _ => rfl)
  | visit c p => exact did_change rfl h
  | attachTarget =>
    dsimp only [exec] at h
    split at h
    · cases h
    · split at h
      · cases h
      · cases h
        exact Did.lock rfl (plain_nil t)
  | insertAddOn w mode =>
    dsimp only [exec] at h
    split at h
    · next hguard =>
      cases h
      rw [guard_addOn, proposed_live] at hguard
      exact ⟨fun _ h => absurd h not_mem_nil, Or.inl rfl, Or.inr ⟨w, mode, rfl, rfl, hguard⟩⟩
    · cases h
  | addOnRow w mode =>
    dsimp only [exec] at h
    split at h
    · cases h
      exact ⟨fun _ h => h, Or.inr (Or.inr ⟨_, _, rfl, mem_cons_self, Or.inr ⟨rfl, by simp⟩⟩), Or.inl (plain_nil t)⟩
    · exact did_change rfl h
  | findEnded now today skips oneByOne =>
    cases h
    exact Did.find (plain_map _ fun _ _ => rfl)
  | lockEnded p now today oneByOne =>
    dsimp only [exec] at h
    split at h
    · cases h
      exact Did.lock rfl (plain_one rfl).ite
    · cases h
      exact Did.find (plain_nil t)
  | updateEnded today =>
    cases h
    exact Did.find (plain_map _ fun _ _ => rfl)
  | endTrial p today =>
    dsimp only [exec] at h
    exact did_change rfl h
  | findAccountTrial now plan =>
    cases h
    exact Did.find (plain_one rfl).ite
  | endAccountTrial now plan =>
    dsimp only [exec] at h
    split at h
    · cases h
      exact Did.find (plain_nil t)
    · exact did_setAccount rfl h
  | lockTenant =>
    dsimp only [exec] at h
    split at h
    · cases h
    · cases h
      exact Did.lock rfl (plain_nil t)
  | moveAccount view plan =>
    dsimp only [exec] at h
    split at h
    · cases h
      exact Did.find (plain_nil t)
    · cases h
      exact Did.find (plain_one rfl).ite

theorem lawful : subscriptions.Lawful := by
  constructor
  · intro _ rows data st e h
    exact (exec_did h).takes
  · intro _ rows data st e h w hw
    rcases (exec_did h).wrote with hnone | ⟨c, heq, hlock⟩ | ⟨p, s, heq, hlock, -⟩
    · rw [hnone] at hw
      cases hw
    · rw [heq, mem_singleton] at hw
      rw [hw]
      exact hlock
    · rw [heq, mem_singleton] at hw
      rw [hw]
      exact hlock

theorem Did.own (h : Did rows t op e) : ∀ w ∈ e.writes, w.1.tenantId = t := by
  intro w hw
  rcases h.wrote with hnone | ⟨c, heq, -⟩ | ⟨p, s, heq, -⟩
  · rw [hnone] at hw
    cases hw
  · rw [heq, mem_singleton] at hw
    rw [hw]
    rfl
  · rw [heq, mem_singleton] at hw
    rw [hw]
    rfl

theorem Did.covered (h : Did rows t op e) (hlate : op.late = true → rows.liveAt t .content = true)
    (hrows : rows.Covered t) : Cells.Covered (overlay rows e.writes) t := by
  rcases h.wrote with hnone | ⟨c, heq, -⟩ | ⟨p, s, heq, -, hguard⟩
  · rw [hnone]
    exact hrows
  · rw [heq]
    exact hrows.account c
  · rw [heq]
    refine hrows.put ?_
    rcases hguard with hguard | ⟨hop, hp⟩
    · exact hguard
    · -- the guard of the proposed row found live content
      cases p with
      | content => exact absurd rfl hp
      | addOn a =>
        rw [guard_addOn, hlate hop, Bool.or_true]

end statements

/-! ## Open transactions -/

/-- The statements of an `UPDATE` of the account, which may find no row. -/
def Op.updates : Op → Bool
  | .updateTenant _ => true
  | _ => false

/-- The statements that begin a transaction with the lock of the tenant row, or refuse it. -/
def Op.opens : Op → Bool
  | .insertTenant _ _ _ | .attachTarget | .lockTenant => true
  | _ => false

/-- The statements of the trial-end tick; it ends the trials that it has locked. -/
def Op.ticks (ended : List Product) : Op → Bool
  | .findEnded _ _ _ _ | .lockEnded _ _ _ _ | .updateEnded _ | .findAccountTrial _ _ | .endAccountTrial _ _ => true
  | .endTrial p _ => p ∈ ended
  | _ => false

/-- Nothing is written yet, and the lock of the tenant row comes first. -/
structure Waiting (t : Nat) (x : SubTxn) : Prop where
  own : x.own = []
  todo : Plain t x.todo
  first : (∀ st ∈ x.todo, st.op.updates = true) ∨ ∃ st rest, x.todo = st :: rest ∧ st.op.opens = true

/-- The transaction has the tenant row locked and sees rows in order. -/
structure Holding (rows : Cells) (t : Nat) (x : SubTxn) : Prop where
  lock : (.tenant t, true) ∈ x.held
  covered : Cells.Covered (x.sees rows) t
  todo : Plain t x.todo ∨ ∃ w mode rest, x.todo = ⟨t, .addOnRow w mode⟩ :: rest ∧ Plain t rest ∧
    Cells.liveAt (x.sees rows) t .content = true

/-- The tick without the tenant row: what it sees is as live as what is committed. -/
structure Ticking (rows : Cells) (t : Nat) (x : SubTxn) : Prop where
  todo : ∀ st ∈ x.todo, st.tenant = t ∧ st.op.ticks x.data.ended = true
  same : ∀ p, Cells.liveAt (x.sees rows) t p = rows.liveAt t p
  ended : ∀ p ∈ x.data.ended, (.sub t p, true) ∈ x.held ∧ Cells.liveAt (x.sees rows) t p = true

structure Fits (rows : Cells) (t : Nat) (x : SubTxn) : Prop where
  own : ∀ w ∈ x.own, w.1.tenantId = t
  phase : Waiting t x ∨ Holding rows t x ∨ Ticking rows t x

/-! ## A statement of an open transaction -/

section advance

variable {rows : Cells} {t : Nat} {x : SubTxn} {st : Stmt} {rest : List Stmt} {e : SubEffect} {data : Local}

theorem Did.holding (h : Did (x.sees rows) t st.op e) (hlock : (.tenant t, true) ∈ e.takes ++ x.held)
    (hlate : st.op.late = true → Cells.liveAt (x.sees rows) t .content = true)
    (hcovered : Cells.Covered (x.sees rows) t) (hrest : Plain t rest) : Holding rows t (x.apply e rest) := by
  refine ⟨hlock, ?_, ?_⟩
  · rw [sees_apply]
    exact h.covered hlate hcovered
  · rcases h.more with hplain | ⟨w, mode, hmore, hwrites, hlive⟩
    · exact Or.inl (hplain.append hrest)
    · refine Or.inr ⟨w, mode, rest, ?_, hrest, ?_⟩
      · show e.more ++ rest = _
        rw [hmore]
        rfl
      · rw [sees_apply, hwrites]
        exact hlive

theorem Holding.advance (h : Holding rows t x) (htodo : x.todo = st :: rest)
    (hexec : exec (x.sees rows) x.data st.tenant st.op = .ok e) : Holding rows t (x.apply e rest) := by
  have hst : st.tenant = t ∧ (st.op.late = true → Cells.liveAt (x.sees rows) t .content = true) ∧ Plain t rest := by
    rcases h.todo with hplain | ⟨w, mode, rest', heq, hrest, hlive⟩
    · rw [htodo] at hplain
      obtain ⟨htenant, hop⟩ := hplain st mem_cons_self
      refine ⟨htenant, fun hlate => ?_, fun st' hst' => hplain st' (mem_cons_of_mem _ hst')⟩
      rw [hop] at hlate
      cases hlate
    · rw [htodo] at heq
      obtain ⟨rfl, rfl⟩ := List.cons.inj heq
      exact ⟨rfl, fun _ => hlive, hrest⟩
  obtain ⟨rfl, hlate, hrest⟩ := hst
  exact (exec_did hexec).holding (mem_append_right _ h.lock) hlate h.covered hrest

theorem setAccount_lock {rows : Cells} {set : TenantSet} (h : setAccount rows data t set = .ok e) :
    e = { data } ∨ (.tenant t, true) ∈ e.takes := by
  unfold setAccount at h
  split at h
  · cases h
    exact Or.inl rfl
  · cases h
    exact Or.inr mem_cons_self

theorem opens_lock {rows : Cells} {op : Op} (hop : op.opens = true) (h : exec rows data t op = .ok e) :
    (.tenant t, true) ∈ e.takes := by
  cases op with
  | insertTenant new tier plan =>
    dsimp only [exec] at h
    split at h
    · cases h
    · cases h
      exact mem_cons_self
  | attachTarget =>
    dsimp only [exec] at h
    split at h
    · cases h
    · split at h
      · cases h
      · cases h
        exact mem_cons_self
  | lockTenant =>
    dsimp only [exec] at h
    split at h
    · cases h
    · cases h
      exact mem_cons_self
  | _ => cases hop

theorem Waiting.advance (h : Waiting t x) (hrows : rows.Covered t) (htodo : x.todo = st :: rest)
    (hexec : exec (x.sees rows) x.data st.tenant st.op = .ok e) :
    Waiting t (x.apply e rest) ∨ Holding rows t (x.apply e rest) := by
  have hsees : x.sees rows = rows := by
    unfold Txn.sees
    rw [h.own]
    rfl
  have hplain := h.todo
  rw [htodo] at hplain
  obtain ⟨rfl, hlate⟩ := hplain st mem_cons_self
  have hrest : Plain st.tenant rest := fun st' hst' => hplain st' (mem_cons_of_mem _ hst')
  have hholds : (.tenant st.tenant, true) ∈ e.takes → Holding rows st.tenant (x.apply e rest) := fun hlock =>
    (exec_did hexec).holding (mem_append_left _ hlock) (fun hop => absurd (hop.symm.trans hlate) (by decide))
      (by rw [hsees]; exact hrows) hrest
  rcases h.first with hupdates | ⟨st', rest', heq, hopens⟩
  · rw [htodo] at hupdates
    have hop := hupdates st mem_cons_self
    obtain ⟨set, hset⟩ : ∃ set, st.op = .updateTenant set := by
      revert hop
      cases st.op with
      | updateTenant set => exact fun _ => ⟨set, rfl⟩
      | _ => exact fun hop => absurd hop (by simp [Op.updates])
    rw [hset] at hexec
    rcases setAccount_lock hexec with rfl | hlock
    · -- no such tenant: the next update may find it
      refine Or.inl ⟨?_, hrest, Or.inl fun st' hst' => hupdates st' (mem_cons_of_mem _ hst')⟩
      show x.own ++ [] = []
      rw [h.own]
      rfl
    · exact Or.inr (hholds hlock)
  · rw [htodo] at heq
    obtain ⟨rfl, rfl⟩ := List.cons.inj heq
    exact Or.inr (hholds (opens_lock hopens hexec))

theorem ticks_mono {ended ended' : List Product} {op : Op} (hsub : ended ⊆ ended') (h : op.ticks ended = true) :
    op.ticks ended' = true := by
  cases op with
  | endTrial p today =>
    unfold Op.ticks at h ⊢
    rw [decide_eq_true_eq] at h ⊢
    exact hsub h
  | _ => exact h

theorem Ticking.apply (h : Ticking rows t x) (hrest : ∀ st ∈ rest, st ∈ x.todo)
    (hmore : ∀ st ∈ e.more, st.tenant = t ∧ st.op.ticks e.data.ended = true) (hsub : x.data.ended ⊆ e.data.ended)
    (hsame : ∀ p, Cells.liveAt (overlay (x.sees rows) e.writes) t p = Cells.liveAt (x.sees rows) t p)
    (hnew : ∀ p ∈ e.data.ended, p ∈ x.data.ended ∨
      (.sub t p, true) ∈ e.takes ∧ Cells.liveAt (x.sees rows) t p = true) : Ticking rows t (x.apply e rest) := by
  refine ⟨fun st hst => ?_, fun p => ?_, fun p hp => ?_⟩
  · rcases mem_append.1 hst with hst | hst
    · exact hmore st hst
    · obtain ⟨htenant, hop⟩ := h.todo st (hrest st hst)
      exact ⟨htenant, ticks_mono hsub hop⟩
  · rw [sees_apply, hsame, h.same]
  · rw [sees_apply, hsame]
    rcases hnew p hp with hold | ⟨hlock, hlive⟩
    · obtain ⟨hlock, hlive⟩ := h.ended p hold
      exact ⟨mem_append_right _ hlock, hlive⟩
    · exact ⟨mem_append_left _ hlock, hlive⟩

theorem Ticking.find (h : Ticking rows t x) (hrest : ∀ st ∈ rest, st ∈ x.todo) {more : List Stmt}
    (hmore : ∀ st ∈ more, st.tenant = t ∧ st.op.ticks x.data.ended = true) :
    Ticking rows t (x.apply { more, data := x.data } rest) :=
  h.apply hrest hmore (fun _ hp => hp) (fun _ => rfl) fun _ hp => Or.inl hp

theorem live_of_trialOver {rows : Cells} {p : Product} {now : Nat} (h : (rows.sub? t p).any (·.trialOver now) = true) :
    rows.liveAt t p = true := by
  obtain ⟨s, hs, hover⟩ := (Option.any_eq_true _ _).1 h
  rw [liveAt_of_sub? hs]
  unfold Sub.trialOver at hover
  rw [Bool.and_eq_true, decide_eq_true_eq] at hover
  rw [hover.1]
  rfl

theorem live_endTrial (s : Sub) (today : Nat) : (s.endTrial today).status.live = true := by
  unfold Sub.endTrial
  split
  · rfl
  · rfl

theorem endTrial_same {rows : Cells} {p : Product} {today : Nat} (hlive : rows.liveAt t p = true)
    (h : change rows data t p (fun s => some (s.endTrial today)) = .ok e) :
    e.more = [] ∧ e.data = data ∧ ∀ q, Cells.liveAt (overlay rows e.writes) t q = rows.liveAt t q := by
  unfold change at h
  split at h
  · cases h
    exact ⟨rfl, rfl, fun _ => rfl⟩
  · next s hs =>
    dsimp only at h
    unfold put at h
    split at h
    · cases h
      refine ⟨rfl, rfl, fun q => ?_⟩
      show Cells.liveAt (rows.upsert (.sub t p) (.sub (s.endTrial today))) t q = _
      rw [liveAt_upsert]
      by_cases hq : q = p
      · subst hq
        rw [if_pos rfl, hlive]
        exact live_endTrial s today
      · rw [if_neg (by simpa using hq)]
    · cases h

theorem Ticking.advance (h : Ticking rows t x) (hrows : rows.Covered t) (htodo : x.todo = st :: rest)
    (hexec : exec (x.sees rows) x.data st.tenant st.op = .ok e) :
    Ticking rows t (x.apply e rest) ∨ Holding rows t (x.apply e rest) := by
  have hrest : ∀ st' ∈ rest, st' ∈ x.todo := fun st' hst' => htodo ▸ mem_cons_of_mem _ hst'
  obtain ⟨rfl, hticks⟩ := h.todo st (htodo ▸ mem_cons_self)
  have hdid := exec_did hexec
  obtain ⟨t, op⟩ := st
  cases op with
  | findEnded now today skips oneByOne =>
    cases hexec
    refine Or.inl (h.find hrest fun st' hst' => ?_)
    obtain ⟨p, -, rfl⟩ := mem_map.1 hst'
    exact ⟨rfl, rfl⟩
  | lockEnded p now today oneByOne =>
    left
    dsimp only [exec] at hexec
    split at hexec
    · next hover =>
      cases hexec
      refine h.apply hrest (fun st' hst' => ?_) (fun q hq => mem_cons_of_mem _ hq) (fun _ => rfl) fun q hq => ?_
      · rw [mem_ite_nil_right, mem_singleton] at hst'
        obtain ⟨-, rfl⟩ := hst'
        exact ⟨rfl, decide_eq_true mem_cons_self⟩
      · rcases mem_cons.1 hq with rfl | hq
        · exact Or.inr ⟨mem_cons_self, live_of_trialOver hover⟩
        · exact Or.inl hq
    · cases hexec
      exact h.find hrest fun _ hst' => absurd hst' not_mem_nil
  | updateEnded today =>
    cases hexec
    refine Or.inl (h.find hrest fun st' hst' => ?_)
    obtain ⟨p, hp, rfl⟩ := mem_map.1 hst'
    exact ⟨rfl, decide_eq_true hp⟩
  | endTrial p today =>
    left
    obtain ⟨hmore, hdata, hsame⟩ := endTrial_same (h.ended p (of_decide_eq_true hticks)).2 hexec
    refine h.apply hrest (fun st' hst' => ?_) (fun q hq => ?_) hsame fun q hq => Or.inl ?_
    · rw [hmore] at hst'
      cases hst'
    · rw [hdata]
      exact hq
    · rw [hdata] at hq
      exact hq
  | findAccountTrial now plan =>
    cases hexec
    refine Or.inl (h.find hrest fun st' hst' => ?_)
    rw [mem_ite_nil_right, mem_singleton] at hst'
    obtain ⟨-, rfl⟩ := hst'
    exact ⟨rfl, rfl⟩
  | endAccountTrial now plan =>
    have hplain : Plain t rest := by
      intro st' hst'
      obtain ⟨htenant, hop⟩ := h.todo st' (hrest st' hst')
      refine ⟨htenant, ?_⟩
      revert hop
      cases st'.op <;> simp [Op.ticks, Op.late]
    have hlocks : e = { data := x.data } ∨ (.tenant t, true) ∈ e.takes := by
      dsimp only [exec] at hexec
      split at hexec
      · cases hexec
        exact Or.inl rfl
      · exact setAccount_lock hexec
    rcases hlocks with rfl | hlock
    · exact Or.inl (h.find hrest fun _ hst' => absurd hst' not_mem_nil)
    · exact Or.inr (hdid.holding (mem_append_left _ hlock) (fun hop => absurd hop Bool.false_ne_true)
        (hrows.congr h.same) hplain)
  | _ => cases hticks

theorem Fits.advance (h : Fits rows t x) (hrows : rows.Covered t) (htodo : x.todo = st :: rest)
    (hexec : exec (x.sees rows) x.data st.tenant st.op = .ok e) : Fits rows t (x.apply e rest) := by
  have hown : st.tenant = t → ∀ w ∈ (x.apply e rest).own, w.1.tenantId = t := by
    rintro rfl w hw
    rcases mem_append.1 hw with hw | hw
    · exact h.own w hw
    · exact (exec_did hexec).own w hw
  have hst : st ∈ x.todo := htodo ▸ mem_cons_self
  rcases h.phase with hwait | hhold | htick
  · refine ⟨hown (hwait.todo st hst).1, ?_⟩
    rcases hwait.advance hrows htodo hexec with hwait | hhold
    · exact Or.inl hwait
    · exact Or.inr (Or.inl hhold)
  · refine ⟨hown ?_, Or.inr (Or.inl (hhold.advance htodo hexec))⟩
    rcases hhold.todo with hplain | ⟨w, mode, rest', heq, -⟩
    · exact (hplain st hst).1
    · rw [htodo] at heq
      obtain ⟨rfl, -⟩ := List.cons.inj heq
      rfl
  · refine ⟨hown (htick.todo st hst).1, ?_⟩
    rcases htick.advance hrows htodo hexec with htick | hhold
    · exact Or.inr (Or.inr htick)
    · exact Or.inr (Or.inl hhold)

end advance

theorem late_ops (r : Request) : ∀ op ∈ r.ops, op.late = false := by
  intro op hop
  cases r <;> simp only [Request.ops, cons_append, mem_cons, mem_append, mem_map] at hop <;>
    grind [Op.late]

theorem fits_first (rows : Cells) (r : Request) (start : Nat) : Fits rows r.tenant (subscriptions.first r start) := by
  refine ⟨fun w hw => absurd hw not_mem_nil, ?_⟩
  have hplain : Plain r.tenant (subscriptions.first r start).todo := plain_map _ (late_ops r)
  cases r with
  | endTrials t now today skips oneByOne plan =>
    refine Or.inr (Or.inr ⟨fun st hst => ?_, fun _ => rfl, fun p hp => absurd hp not_mem_nil⟩)
    refine ⟨(hplain st hst).1, ?_⟩
    obtain ⟨op, hop, rfl⟩ := mem_map.1 hst
    cases oneByOne <;> simp only [Request.ops, mem_cons, mem_append] at hop <;> grind [Op.ticks]
  | updates t sets =>
    refine Or.inl ⟨rfl, hplain, Or.inl fun st hst => ?_⟩
    obtain ⟨op, hop, rfl⟩ := mem_map.1 hst
    obtain ⟨set, -, rfl⟩ := mem_map.1 hop
    rfl
  | _ => exact Or.inl ⟨rfl, hplain, Or.inr ⟨_, _, rfl, rfl⟩⟩

/-! ## Every interleaving -/

structure Inv (s : SubSys) : Prop where
  locks : LockInv s
  covered : ∀ t, Cells.Covered s.rows t
  txns : ∀ i x, s.txns.get? i = some x → ∃ t, Fits s.rows t x

section steps

variable {s : SubSys} {l : Label Request}

theorem liveAt_sees {rows : Cells} {t u : Nat} {x : SubTxn} (hown : ∀ w ∈ x.own, w.1.tenantId = u) (htu : t ≠ u)
    (p : Product) : Cells.liveAt (x.sees rows) t p = rows.liveAt t p := by
  refine liveAt_congr ?_
  rw [Txn.sees, get?_overlay, lookup_reverse_eq_none, Option.none_or]
  intro c hc
  exact htu (hown _ hc)

theorem Fits.commit {rows : Cells} {t u : Nat} {x : SubTxn} (h : Fits rows u x) :
    (∀ p, Cells.liveAt (x.sees rows) t p = rows.liveAt t p) ∨ t = u ∧ Holding rows t x := by
  by_cases htu : t = u
  · subst htu
    rcases h.phase with hwait | hhold | htick
    · left
      intro p
      rw [Txn.sees, hwait.own]
      rfl
    · exact Or.inr ⟨rfl, hhold⟩
    · exact Or.inl htick.same
  · exact Or.inl (liveAt_sees h.own htu)

theorem Fits.frame (hs : Inv s) {i : Nat} {x : SubTxn} {t : Nat} (hx : s.txns.get? i = some x)
    (hx' : (subscriptions.step s l).txns.get? i = some x) (h : Fits s.rows t x) :
    Fits (subscriptions.step s l).rows t x := by
  refine ⟨h.own, ?_⟩
  rcases h.phase with hwait | hhold | htick
  · exact Or.inl hwait
  · -- nobody else holds the tenant row, so nothing gets more or less live
    have hrows : ∀ p, Cells.liveAt (subscriptions.step s l).rows t p = Cells.liveAt s.rows t p := by
      rcases commit_cases subscriptions s l with ⟨hrows, -⟩ | ⟨j, y, -, hy, -, hrows, -, -, hend⟩
      · intro p
        rw [hrows]
      · obtain ⟨u, hfits⟩ := hs.txns j y hy
        rw [hrows]
        rcases hfits.commit (t := t) with hsame | ⟨-, hother⟩
        · exact hsame
        · exfalso
          have hij : i ≠ j := by
            rintro rfl
            rw [hx'] at hend
            cases hend
          have := hs.locks.apart i j x y hij hx hy _ hhold.lock _ hother.lock
          simp [clash] at this
    have hsees : ∀ p, Cells.liveAt (x.sees (subscriptions.step s l).rows) t p = Cells.liveAt (x.sees s.rows) t p := by
      intro p
      rcases hs.locks.frame hx hx' (.sub t p) with ⟨-, heq⟩ | ⟨hnew, hold⟩
      · exact liveAt_congr heq
      · calc Cells.liveAt (x.sees (subscriptions.step s l).rows) t p
            = Cells.liveAt (subscriptions.step s l).rows t p := liveAt_congr hnew
          _ = Cells.liveAt s.rows t p := hrows p
          _ = Cells.liveAt (x.sees s.rows) t p := (liveAt_congr hold).symm
    refine Or.inr (Or.inl ⟨hhold.lock, hhold.covered.congr hsees, ?_⟩)
    rw [hsees]
    exact hhold.todo
  · refine Or.inr (Or.inr ⟨htick.todo, fun p => ?_, fun p hp => ?_⟩)
    · rcases hs.locks.frame hx hx' (.sub t p) with ⟨hrow, heq⟩ | ⟨hnew, -⟩
      · calc Cells.liveAt (x.sees (subscriptions.step s l).rows) t p
            = Cells.liveAt (x.sees s.rows) t p := liveAt_congr heq
          _ = Cells.liveAt s.rows t p := htick.same p
          _ = Cells.liveAt (subscriptions.step s l).rows t p := (liveAt_congr hrow).symm
      · exact liveAt_congr hnew
    · obtain ⟨hlock, hlive⟩ := htick.ended p hp
      refine ⟨hlock, ?_⟩
      rw [← hlive]
      refine liveAt_congr ?_
      rcases hs.locks.frame hx hx' (.sub t p) with ⟨-, heq⟩ | ⟨hnew, hold⟩
      · exact heq
      · rw [hnew, hold]
        exact hs.locks.get?_rows hx hx' hlock

theorem Inv.step (hs : Inv s) (l : Label Request) : Inv (subscriptions.step s l) := by
  refine ⟨hs.locks.step lawful l, fun t => ?_, fun i x hx => ?_⟩
  · rcases commit_cases subscriptions s l with ⟨hrows, -⟩ | ⟨j, y, -, hy, -, hrows, -⟩
    · rw [hrows]
      exact hs.covered t
    · obtain ⟨u, hfits⟩ := hs.txns j y hy
      rw [hrows]
      rcases hfits.commit (t := t) with hsame | ⟨-, hhold⟩
      · exact (hs.covered t).congr hsame
      · exact hhold.covered
  · rcases txns_cases subscriptions hx with hold | ⟨r, -, -, rfl⟩ | ⟨x₀, st, rest, e, rfl, hx₀, htodo, -, hexec, rfl⟩
    · obtain ⟨t, hfits⟩ := hs.txns i x hold
      exact ⟨t, hfits.frame hs hold hx⟩
    · exact ⟨r.tenant, fits_first _ r _⟩
    · obtain ⟨t, hfits⟩ := hs.txns i x₀ hx₀
      refine ⟨t, ?_⟩
      rcases commit_cases subscriptions s (.advance i) with ⟨hrows, -⟩ | ⟨j, y, hl, -⟩
      · rw [hrows]
        exact hfits.advance (hs.covered t) htodo hexec
      · cases hl

end steps

def quiet (rows : Cells) : SubSys := ⟨rows, (), Table.empty, 1, 0⟩

theorem inv_quiet {rows : Cells} (h : ∀ t, rows.Covered t) : Inv (quiet rows) := by
  refine ⟨lockInv_init rows (), h, fun i x hx => ?_⟩
  cases hx

/-- However the writers of a tenant's account and subscriptions overlap, every committed live add-on stands next to live
content. -/
theorem addOns_covered (rows : Cells) (hrows : ∀ t, rows.Covered t) (acts : List (Label Request)) :
    Always subscriptions.step
      (fun s => ∀ t a, Cells.liveAt s.rows t (.addOn a) = true → Cells.liveAt s.rows t .content = true) (quiet rows) acts := by
  have hinv : Always subscriptions.step Inv (quiet rows) acts :=
    always_of_step (fun s l hs => hs.step l) acts (inv_quiet hrows)
  exact hinv.mono fun s hs => hs.covered

/-- A tenant on its content plan, with the CRM on a trial that ended at 5. -/
def onTrial : Cells :=
  ⟨[(.tenant 1, .account ⟨.active, none⟩ "starter"),
    (.sub 1 .content, .sub ⟨⟨"content.starter", .active, none, none⟩, none⟩),
    (.sub 1 (.addOn .crm), .sub ⟨⟨"crm.team", .trialing, some 5, some 3⟩, none⟩)], by decide⟩

theorem onTrial_covered (t : Nat) : onTrial.Covered t := by
  intro a ha
  by_cases ht : t = 1
  · subst ht
    rfl
  · exfalso
    have hnone : onTrial.get? (.sub t (.addOn a)) = none := by
      refine (Table.get?_eq_none_iff _ _).2 fun hc => ?_
      simp [onTrial, ht] at hc
    unfold Cells.liveAt at ha
    rw [hnone] at ha
    cases ha

/-- The tick has the trial locked when the tenant is offboarded, which waits for it; an attach waits for the tenant. -/
def offboardedMeanwhile : List (Label Request) :=
  ([.start 0 (.endTrials 1 8 8 [] false "content.starter"),
    .start 1 (.updates 1 [⟨⟨some .offboarding, none, some false, some .other⟩, none, "content.starter"⟩]),
    .start 2 (.attach 1 false [⟨.tripplanner, "tripplanner.base", none⟩] 8),
    .advance 0, .advance 0, .advance 1, .advance 2, .advance 1, .advance 1, .advance 1] : List (Label Request)) ++
    List.replicate 3 (Label.advance 0) ++ [Label.commit 0] ++ List.replicate 5 (Label.advance 1) ++
    [Label.commit 1, Label.advance 2, Label.commit 2]

theorem offboarded_covered : (∀ t, onTrial.Covered t) ∧ Always subscriptions.step
        (fun s => ∀ t a, Cells.liveAt s.rows t (.addOn a) = true → Cells.liveAt s.rows t .content = true)
        (quiet onTrial) offboardedMeanwhile :=
  ⟨onTrial_covered, addOns_covered onTrial onTrial_covered offboardedMeanwhile⟩

/-- In the end everything is canceled and the attach was refused. -/
example :
    let rows : Cells := (run subscriptions.step (quiet onTrial) offboardedMeanwhile).rows
    rows.liveAt 1 .content = false ∧ rows.liveAt 1 (.addOn .crm) = false ∧ rows.sub? 1 (.addOn .tripplanner) = none := by
  decide

end CisApp.Subscriptions
