import CisApp.Lib.Sorted
import CisApp.Lib.Transaction
import CisApp.Staff.Directory

/-! The guards of the staff directory under concurrent writers.

Every write locks all owner rows first (`SQL_LOCK_OWNERS`), then reads its actor and then locks its target.  The owner
flag never changes, so a write whose actor has passed holds the actor's own row until it commits, and the writes of
other owners wait.

Ids stand for uuids.  The grants of an account are part of its row here: the statements on them follow the lock of the
row.  `SELECT .. FOR UPDATE` of several rows is its snapshot and then one statement for each row, which waits for the
row and looks at it again. -/

namespace CisApp.Staff

open Lib List

abbrev StaffId := Nat

inductive Change where
  | roles (given : Roles)
  | active (b : Bool)
deriving Repr, DecidableEq

def Change.apply : Change → StaffRow → StaffRow
  | .roles given, row => given.apply row
  | .active b, row => { row with isActive := b }

/-- The change demotes or disables, and so goes through `_guard_last_owner`. -/
def Change.harms : Change → StaffRow → Bool
  | .roles given, row => given.demotes row
  | .active b, _ => !b

inductive Request where
  | create (actor : StaffId) (req : CreateRequest) (newId : StaffId) (username : String)
  | changeRoles (actor target : StaffId) (req : RolesRequest)
  | disable (actor target : StaffId)
  | enable (actor target : StaffId)
  | signOut (actor target : StaffId)
deriving Repr, DecidableEq

def Request.actor : Request → StaffId
  | .create actor _ _ _ => actor
  | .changeRoles actor _ _ => actor
  | .disable actor _ => actor
  | .enable actor _ => actor
  | .signOut actor _ => actor

inductive Stmt where
  | raise (e : Refusal)
  /-- The snapshot of `SQL_LOCK_OWNERS`. -/
  | lockOwners
  | lockOwner (id : StaffId)
  /-- `SQL_ACTOR`. -/
  | readActor
  /-- `SQL_TARGET`. -/
  | loadTarget (id : StaffId)
  | check (id : StaffId) (change : Change)
  /-- `SQL_OTHER_ACTIVE_OWNERS`. -/
  | countOwners (id : StaffId)
  | set (id : StaffId) (change : Change)
  /-- The snapshot of `SQL_TARGET_BY_EMAIL`. -/
  | findByEmail (req : CreateRequest) (newId : StaffId) (username : String)
  | lockFound (id : StaffId) (req : CreateRequest)
  | insert (id : StaffId) (row : StaffRow)
deriving Repr, DecidableEq

/-- The actor, and the target as `_load_target` has read it. -/
structure Local where
  actor : StaffId
  target : Option StaffRow
deriving Repr, DecidableEq

abbrev StaffEffect := Effect StaffId StaffRow Stmt Local
abbrev Transaction := Txn StaffId StaffRow Stmt Local
abbrev System := Sys StaffId StaffRow Stmt Local Unit

/-- `SQL_LOCK_OWNERS` and the actor, then the target. -/
def onTarget (id : StaffId) (change : Change) : List Stmt :=
  [.lockOwners, .readActor, .loadTarget id, .check id change, .set id change]

variable (env : Env)

def program : Request → List Stmt
  | .create _ req newId username =>
    match req.check env with
    | .error e => [.raise e]
    | .ok () => [.lockOwners, .readActor, .findByEmail req newId username]
  | .changeRoles _ target req =>
    match req.check with
    | .error e => [.raise e]
    | .ok roles => onTarget target (.roles roles)
  | .disable _ target => onTarget target (.active false)
  | .enable _ target => onTarget target (.active true)
  | .signOut _ target => onTarget target (.active true)

def needs : Stmt → List (StaffId × Bool)
  | .lockOwner id => [(id, true)]
  | .loadTarget id => [(id, true)]
  | .set id _ => [(id, true)]
  | .lockFound id _ => [(id, true)]
  | .insert id _ => [(id, true)]
  | _ => []

def Change.check (change : Change) (isSelf : Bool) (row : StaffRow) : Except Refusal Unit :=
  match change with
  | .roles given => given.check env isSelf row
  | .active true => if allowedHere env row.email then .ok () else .error .e2eNotAllowedHere
  | .active false => if isSelf then .error .selfDisable else .ok ()

/-- One statement; `pgLower` is PostgreSQL's `lower`. -/
def exec (pgLower : String → String) (rows : Table StaffId StaffRow) (data : Local) :
    Stmt → Except Refusal StaffEffect
  | .raise e => .error e
  | .lockOwners => .ok { more := (sortBy id (rows.matching fun _ v => v.isOwner)).map .lockOwner, data }
  | .lockOwner k => .ok { takes := [(k, true)], data }
  | .readActor =>
    if (rows.get? data.actor).any (·.activeOwner) then .ok { data } else .error .notOwner
  | .loadTarget k =>
    match rows.get? k with
    | none => .error .notFound
    | some v =>
      if v.breakglass env then .error .breakglass
      else .ok { takes := [(k, true)], data := { data with target := some v } }
  | .check k change =>
    match data.target with
    | none => .error .notFound
    | some v =>
      match change.check env (k = data.actor) v with
      | .error e => .error e
      | .ok () => .ok { more := if change.harms v && v.activeOwner then [.countOwners k] else [], data }
  | .countOwners k =>
    if rows.count (fun k' v => v.activeOwner && k' ≠ k) = 0 then .error .lastOwner else .ok { data }
  | .set k change =>
    match rows.get? k with
    | none => .ok { data }
    | some v => .ok { takes := [(k, true)], writes := [(k, change.apply v)], data }
  | .findByEmail req newId username =>
    match rows.matching fun _ v => v.email.any fun e => pgLower e = req.email with
    | k :: _ => .ok { more := [.lockFound k req], data }
    | [] => .ok { more := [.insert newId (req.row username)], data }
  | .lockFound k req =>
    match rows.get? k with
    | none => .error .notFound
    | some v =>
      match req.checkExisting env v with
      | .error e => .error e
      | .ok () => .ok { takes := [(k, true)], data }
  | .insert k row =>
    if (rows.get? k).isSome || rows.count (fun _ v => v.username = row.username || v.email = row.email) ≠ 0 then
      .error .conflict
    else .ok { takes := [(k, true)], writes := [(k, row)], data }

/-- The staff directory; an insert waits for an uncommitted row with its username or its address. -/
def directory (pgLower : String → String) : Service StaffId StaffRow Stmt Local Unit Request Refusal where
  program := program env
  data a := ⟨a.actor, none⟩
  needs := needs
  waits _ st w :=
    match st with
    | .insert _ row => w.2.username = row.username || w.2.email = row.email
    | _ => false
  exec _ rows data st := exec env pgLower rows data st
  commit d _ _ := d

def quiet (rows : Table StaffId StaffRow) : System := ⟨rows, (), Table.empty, 1, 0⟩

/-! ## The guards -/

def ActiveOwner (rows : Table StaffId StaffRow) (k : StaffId) : Prop :=
  ∃ v, rows.get? k = some v ∧ v.activeOwner = true

def HasOwner (rows : Table StaffId StaffRow) : Prop := ∃ k, ActiveOwner rows k

/-- What a commit may do: its actor is an active owner in the state it is applied to, and neither demotes nor disables
itself, and break-glass rows stay as they are. -/
structure Guarded (pgLower : String → String) (s : System) (l : Label Request) : Prop where
  byOwner : ∀ k, ((directory env pgLower).step s l).rows.get? k ≠ s.rows.get? k →
    ∃ i x, l = .commit i ∧ s.txns.get? i = some x ∧ ActiveOwner s.rows x.data.actor
  notSelf : ∀ i x v v', l = .commit i → s.txns.get? i = some x → s.rows.get? x.data.actor = some v →
    ((directory env pgLower).step s l).rows.get? x.data.actor = some v' →
    (v.role = .admin → v'.role = .admin) ∧ (v.isActive = true → v'.isActive = true)
  breakglass : ∀ k v, s.rows.get? k = some v → v.breakglass env = true →
    ((directory env pgLower).step s l).rows.get? k = some v

/-! ## Where a write is -/

/-- A written row: a new one without the owner flag, or one that keeps its flag, is not a break-glass row and is not
the actor's to its harm. -/
def Fine (rows : Table StaffId StaffRow) (actor k : StaffId) (v : StaffRow) : Prop :=
  (rows.get? k = none ∧ v.isOwner = false) ∨
    ∃ v₀, rows.get? k = some v₀ ∧ v.isOwner = v₀.isOwner ∧ v₀.breakglass env = false ∧
      (k = actor → (v₀.role = .admin → v.role = .admin) ∧ (v₀.isActive = true → v.isActive = true))

/-- The target is locked and as it was read. -/
structure Loaded (rows : Table StaffId StaffRow) (x : Transaction) (t : StaffId) (v : StaffRow) : Prop where
  read : x.data.target = some v
  held : (t, true) ∈ x.held
  row : rows.get? t = some v
  plain : v.breakglass env = false

/-- What is left to do once the actor has passed. -/
inductive Rest (rows : Table StaffId StaffRow) (x : Transaction) : List Stmt → Prop
  | done : Rest rows x []
  | load (t : StaffId) (c : Change) (hown : x.own = []) : Rest rows x [.loadTarget t, .check t c, .set t c]
  | check (t : StaffId) (c : Change) (v : StaffRow) (hown : x.own = []) (hv : Loaded env rows x t v) :
      Rest rows x [.check t c, .set t c]
  | count (t : StaffId) (c : Change) (v : StaffRow) (hown : x.own = []) (hv : Loaded env rows x t v)
      (hself : t = x.data.actor → c.harms v = false) : Rest rows x [.countOwners t, .set t c]
  | set (t : StaffId) (c : Change) (v : StaffRow) (hown : x.own = []) (hv : Loaded env rows x t v)
      (hself : t = x.data.actor → c.harms v = false) : Rest rows x [.set t c]
  | find (req : CreateRequest) (k : StaffId) (u : String) (hown : x.own = []) : Rest rows x [.findByEmail req k u]
  | found (k : StaffId) (req : CreateRequest) (hown : x.own = []) : Rest rows x [.lockFound k req]
  | insert (k : StaffId) (row : StaffRow) (hown : x.own = []) (hrow : row.isOwner = false) :
      Rest rows x [.insert k row]

/-- What follows the check of the actor. -/
inductive Tail : List Stmt → Prop
  | target (t : StaffId) (c : Change) : Tail [.loadTarget t, .check t c, .set t c]
  | create (req : CreateRequest) (k : StaffId) (u : String) : Tail [.findByEmail req k u]

/-- How far a write has come, when `O` are the owners. -/
inductive Phase (O : StaffId → Prop) (rows : Table StaffId StaffRow) (x : Transaction) : Prop
  | refused (e : Refusal) (hown : x.own = []) (htodo : x.todo = [.raise e])
  | fresh (rest : List Stmt) (hown : x.own = []) (htodo : x.todo = .lockOwners :: .readActor :: rest)
      (hrest : Tail rest)
  | locking (ids : List StaffId) (rest : List Stmt) (hown : x.own = [])
      (htodo : x.todo = ids.map .lockOwner ++ .readActor :: rest) (hrest : Tail rest)
      (hids : ∀ k, O k → k ∈ ids ∨ (k, true) ∈ x.held)
  | acting (hheld : (x.data.actor, true) ∈ x.held) (hactor : ActiveOwner rows x.data.actor)
      (hown : ∀ w ∈ x.own, Fine env rows x.data.actor w.1 w.2) (htodo : Rest env rows x x.todo)

section Steps

variable {env} {pgLower : String → String} {O : StaffId → Prop}
  {rows rows' : Table StaffId StaffRow} {x : Transaction}

theorem sees_of_own_nil (hown : x.own = []) : x.sees rows = rows := by
  unfold Txn.sees
  rw [hown]
  rfl

theorem todo_first (a : Request) (start : Nat) : ((directory env pgLower).first a start).todo = program env a := rfl

theorem phase_first (a : Request) (start : Nat) : Phase env O rows ((directory env pgLower).first a start) := by
  cases a with
  | create actor req newId username =>
    cases h : req.check env with
    | error e =>
      refine .refused e rfl ?_
      rw [todo_first]
      simp only [program, h]
    | ok u =>
      refine .fresh _ rfl ?_ (Tail.create req newId username)
      rw [todo_first]
      simp only [program, h]
  | changeRoles actor target req =>
    cases h : req.check with
    | error e =>
      refine .refused e rfl ?_
      rw [todo_first]
      simp only [program, h]
    | ok roles =>
      refine .fresh _ rfl ?_ (Tail.target target (.roles roles))
      rw [todo_first]
      simp only [program, h]
      rfl
  | disable actor target => exact .fresh _ rfl rfl (Tail.target target (.active false))
  | enable actor target => exact .fresh _ rfl rfl (Tail.target target (.active true))
  | signOut actor target => exact .fresh _ rfl rfl (Tail.target target (.active true))

theorem fine_apply {k actor : StaffId} {c : Change} {v : StaffRow} (hrow : rows.get? k = some v)
    (hplain : v.breakglass env = false) (hself : k = actor → c.harms v = false) : Fine env rows actor k (c.apply v) := by
  refine Or.inr ⟨v, hrow, ?_, hplain, fun hk => ?_⟩
  · cases c <;> rfl
  · have hsafe := hself hk
    cases c with
    | active b =>
      have hb : b = true := by simpa [Change.harms] using hsafe
      exact ⟨fun h => h, fun _ => hb⟩
    | roles given =>
      refine ⟨fun hadmin => ?_, fun h => h⟩
      show given.role.getD v.role = .admin
      cases hr : given.role with
      | none => exact hadmin
      | some r =>
        have hsafe' : r ≠ v.role → r = .admin := by simpa [Change.harms, Roles.demotes, hr] using hsafe
        show r = .admin
        by_cases hne : r = v.role
        · exact hne.trans hadmin
        · exact hsafe' hne

theorem check_harmless {c : Change} {isSelf : Bool} {v : StaffRow} (h : c.check env isSelf v = .ok ())
    (hself : isSelf = true) : c.harms v = false := by
  subst hself
  cases c with
  | active b =>
    cases b with
    | true => rfl
    | false => cases h
  | roles given =>
    simp only [Change.check, Roles.check] at h
    split at h
    · cases h
    · split at h
      · cases h
      · split at h
        · cases h
        · next hdemote => simpa [Change.harms] using hdemote

theorem Loaded.frame {t : StaffId} {v : StaffRow} (h : Loaded env rows x t v)
    (hframe : ∀ k, (k, true) ∈ x.held → rows'.get? k = rows.get? k) : Loaded env rows' x t v :=
  ⟨h.read, h.held, (hframe t h.held).trans h.row, h.plain⟩

theorem Rest.frame {l : List Stmt} (h : Rest env rows x l)
    (hframe : ∀ k, (k, true) ∈ x.held → rows'.get? k = rows.get? k) : Rest env rows' x l := by
  cases h with
  | done => exact .done
  | load t c hown => exact .load t c hown
  | check t c v hown hv => exact .check t c v hown (hv.frame hframe)
  | count t c v hown hv hself => exact .count t c v hown (hv.frame hframe) hself
  | set t c v hown hv hself => exact .set t c v hown (hv.frame hframe) hself
  | find req k u hown => exact .find req k u hown
  | found k req hown => exact .found k req hown
  | insert k row hown hrow => exact .insert k row hown hrow

theorem Phase.frame (h : Phase env O rows x) (hheld : ∀ w ∈ x.own, (w.1, true) ∈ x.held)
    (hframe : ∀ k, (k, true) ∈ x.held → rows'.get? k = rows.get? k) : Phase env O rows' x := by
  cases h with
  | refused e hown htodo => exact .refused e hown htodo
  | fresh rest hown htodo hrest => exact .fresh rest hown htodo hrest
  | locking ids rest hown htodo hrest hids => exact .locking ids rest hown htodo hrest hids
  | acting hactor howner hown htodo =>
    refine .acting hactor ?_ (fun w hw => ?_) (htodo.frame hframe)
    · obtain ⟨v, hv, hact⟩ := howner
      exact ⟨v, (hframe _ hactor).trans hv, hact⟩
    · have hsame := hframe w.1 (hheld w hw)
      unfold Fine
      rw [hsame]
      exact hown w hw

theorem Tail.rest {l : List Stmt} (h : Tail l) (hown : x.own = []) : Rest env rows x l := by
  cases h with
  | target t c => exact .load t c hown
  | create req k u => exact .find req k u hown

variable {e : StaffEffect}

theorem own_apply_nil {rest : List Stmt} (hnil : x.own = []) (hwrites : e.writes = []) : (x.apply e rest).own = [] := by
  show x.own ++ e.writes = []
  rw [hnil, hwrites]
  rfl

theorem not_mem_own {rest : List Stmt} (hnil : x.own = []) (hwrites : e.writes = [])
    {P : StaffId × StaffRow → Prop} : ∀ w ∈ (x.apply e rest).own, P w := by
  intro w hw
  rw [own_apply_nil hnil hwrites] at hw
  cases hw

theorem Rest.exec {st : Stmt} {rest : List Stmt} (h : Rest env rows x (st :: rest))
    (hown : ∀ w ∈ x.own, Fine env rows x.data.actor w.1 w.2)
    (hexec : exec env pgLower (x.sees rows) x.data st = .ok e) : (x.apply e rest).data.actor = x.data.actor ∧
      (∀ w ∈ (x.apply e rest).own, Fine env rows x.data.actor w.1 w.2) ∧
      Rest env rows (x.apply e rest) (x.apply e rest).todo := by
  cases h with
  | load t c hnil =>
    rw [sees_of_own_nil hnil, Staff.exec] at hexec
    split at hexec
    · cases hexec
    · next v hv =>
      split at hexec
      · cases hexec
      · next hplain =>
        cases hexec
        refine ⟨rfl, not_mem_own hnil rfl, ?_⟩
        exact .check t c v (own_apply_nil hnil rfl) ⟨rfl, mem_cons_self, hv, Bool.eq_false_iff.2 hplain⟩
  | check t c v hnil hv =>
    rw [Staff.exec, hv.read] at hexec
    dsimp only at hexec
    split at hexec
    · cases hexec
    · next hcheck =>
      cases hexec
      have hself : t = x.data.actor → c.harms v = false := fun ht => check_harmless hcheck (decide_eq_true ht)
      refine ⟨rfl, not_mem_own hnil rfl, ?_⟩
      show Rest env rows _ ((if c.harms v && v.activeOwner then [Stmt.countOwners t] else []) ++ [.set t c])
      by_cases hcount : (c.harms v && v.activeOwner) = true
      · rw [if_pos hcount]
        exact .count t c v (own_apply_nil hnil rfl) ⟨hv.read, hv.held, hv.row, hv.plain⟩ hself
      · rw [if_neg hcount]
        exact .set t c v (own_apply_nil hnil rfl) ⟨hv.read, hv.held, hv.row, hv.plain⟩ hself
  | count t c v hnil hv hself =>
    rw [Staff.exec] at hexec
    split at hexec
    · cases hexec
    · cases hexec
      refine ⟨rfl, not_mem_own hnil rfl, ?_⟩
      exact .set t c v (own_apply_nil hnil rfl) ⟨hv.read, hv.held, hv.row, hv.plain⟩ hself
  | set t c v hnil hv hself =>
    rw [sees_of_own_nil hnil, Staff.exec, hv.row] at hexec
    cases hexec
    refine ⟨rfl, fun w hw => ?_, .done⟩
    have hw' : w ∈ x.own ++ [(t, c.apply v)] := hw
    rw [hnil, nil_append, mem_singleton] at hw'
    subst hw'
    exact fine_apply hv.row hv.plain hself
  | find req k u hnil =>
    rw [Staff.exec] at hexec
    split at hexec
    · next k' _ _ =>
      cases hexec
      exact ⟨rfl, not_mem_own hnil rfl, .found k' req (own_apply_nil hnil rfl)⟩
    · cases hexec
      exact ⟨rfl, not_mem_own hnil rfl, .insert k (req.row u) (own_apply_nil hnil rfl) rfl⟩
  | found k req hnil =>
    rw [Staff.exec] at hexec
    split at hexec
    · cases hexec
    · split at hexec
      · cases hexec
      · cases hexec
        exact ⟨rfl, not_mem_own hnil rfl, .done⟩
  | insert k row hnil hrow =>
    rw [sees_of_own_nil hnil, Staff.exec] at hexec
    split at hexec
    · cases hexec
    · next hfree =>
      cases hexec
      refine ⟨rfl, fun w hw => ?_, .done⟩
      have hw' : w ∈ x.own ++ [(k, row)] := hw
      rw [hnil, nil_append, mem_singleton] at hw'
      subst hw'
      rw [Bool.or_eq_true, not_or] at hfree
      exact Or.inl ⟨by simpa using hfree.1, hrow⟩

theorem Phase.exec {st : Stmt} {rest : List Stmt} (h : Phase env O rows x)
    (hO : ∀ k v, rows.get? k = some v → v.isOwner = true → O k)
    (hO' : ∀ k, O k → ∃ v, rows.get? k = some v ∧ v.isOwner = true) (htodo : x.todo = st :: rest)
    (hexec : exec env pgLower (x.sees rows) x.data st = .ok e) : Phase env O rows (x.apply e rest) := by
  cases h with
  | refused e' hown htodo' =>
    rw [htodo'] at htodo
    cases htodo
    cases hexec
  | fresh rest' hown htodo' hrest =>
    rw [htodo'] at htodo
    cases htodo
    rw [sees_of_own_nil hown] at hexec
    cases hexec
    refine .locking (sortBy id (rows.matching fun _ v => v.isOwner)) rest' (own_apply_nil hown rfl) rfl hrest ?_
    intro k hk
    refine Or.inl ((sortBy_perm _ _).mem_iff.2 ?_)
    rw [Table.mem_matching]
    exact hO' k hk
  | locking ids rest' hown htodo' hrest hids =>
    rw [htodo'] at htodo
    cases ids with
    | cons k ids =>
      cases htodo
      cases hexec
      refine .locking ids rest' (own_apply_nil hown rfl) rfl hrest fun k' hk' => ?_
      rcases hids k' hk' with hin | hheld
      · rcases mem_cons.1 hin with rfl | hin
        · exact Or.inr mem_cons_self
        · exact Or.inl hin
      · exact Or.inr (mem_cons_of_mem _ hheld)
    | nil =>
      cases htodo
      rw [sees_of_own_nil hown, Staff.exec] at hexec
      split at hexec
      · next hactor =>
        cases hexec
        obtain ⟨v, hv, hact⟩ := (Option.any_eq_true _ _).1 hactor
        have howner : v.isOwner = true := (Bool.and_eq_true_iff.1 (Bool.and_eq_true_iff.1 hact).1).1
        refine .acting ?_ ⟨v, hv, hact⟩ (not_mem_own hown rfl) (hrest.rest (own_apply_nil hown rfl))
        exact (hids _ (hO _ v hv howner)).resolve_left not_mem_nil
      · cases hexec
  | acting hheld hactor hown hrest =>
    rw [htodo] at hrest
    obtain ⟨hsame, hfine, hrest'⟩ := hrest.exec hown hexec
    refine .acting ?_ (hsame ▸ hactor) (hsame ▸ hfine) hrest'
    rw [hsame]
    exact mem_append_right _ hheld

theorem exec_locks {data : Local} {st : Stmt} (h : exec env pgLower rows data st = .ok e) :
    (e.takes = [] ∧ e.writes = []) ∨ (e.takes = needs st ∧ ∀ w ∈ e.writes, (w.1, true) ∈ e.takes) := by
  have hread : e.takes = needs st → e.writes = [] →
      (e.takes = [] ∧ e.writes = []) ∨ (e.takes = needs st ∧ ∀ w ∈ e.writes, (w.1, true) ∈ e.takes) := by
    intro htakes hwrites
    rw [hwrites]
    exact Or.inr ⟨htakes, fun w hw => absurd hw not_mem_nil⟩
  cases st with
  | raise _ => cases h
  | lockOwners =>
    cases h
    exact Or.inl ⟨rfl, rfl⟩
  | lockOwner id =>
    cases h
    exact hread rfl rfl
  | readActor =>
    rw [Staff.exec] at h
    split at h <;> cases h
    exact Or.inl ⟨rfl, rfl⟩
  | loadTarget id =>
    rw [Staff.exec] at h
    split at h
    · cases h
    · split at h <;> cases h
      exact hread rfl rfl
  | check id c =>
    rw [Staff.exec] at h
    split at h
    · cases h
    · split at h <;> cases h
      exact Or.inl ⟨rfl, rfl⟩
  | countOwners id =>
    rw [Staff.exec] at h
    split at h <;> cases h
    exact Or.inl ⟨rfl, rfl⟩
  | set id c =>
    rw [Staff.exec] at h
    split at h <;> cases h
    · exact Or.inl ⟨rfl, rfl⟩
    · refine Or.inr ⟨rfl, fun w hw => ?_⟩
      obtain rfl := mem_singleton.1 hw
      exact mem_cons_self
  | findByEmail req id u =>
    rw [Staff.exec] at h
    split at h <;> cases h <;> exact Or.inl ⟨rfl, rfl⟩
  | lockFound id req =>
    rw [Staff.exec] at h
    split at h
    · cases h
    · split at h <;> cases h
      exact hread rfl rfl
  | insert id row =>
    rw [Staff.exec] at h
    split at h <;> cases h
    refine Or.inr ⟨rfl, fun w hw => ?_⟩
    obtain rfl := mem_singleton.1 hw
    exact mem_cons_self

theorem directory_lawful : (directory env pgLower).Lawful := by
  constructor
  · intro d rows data st e h k hk
    rcases exec_locks h with ⟨htakes, -⟩ | ⟨htakes, -⟩
    · rw [htakes] at hk
      cases hk
    · rw [htakes] at hk
      exact hk
  · intro d rows data st e h w hw
    rcases exec_locks h with ⟨-, hwrites⟩ | ⟨-, hwrites⟩
    · rw [hwrites] at hw
      cases hw
    · exact hwrites w hw

/-! ## Runs -/

/-- The owners stay the same, the locks are apart and every write is in one of its phases. -/
structure Inv (env : Env) (O : StaffId → Prop) (s : System) : Prop where
  locks : LockInv s
  owners : ∀ k, O k ↔ ∃ v, s.rows.get? k = some v ∧ v.isOwner = true
  phases : ∀ i x, s.txns.get? i = some x → Phase env O s.rows x
  hasOwner : HasOwner s.rows

theorem inv_quiet (hrows : HasOwner rows) :
    Inv env (fun k => ∃ v, rows.get? k = some v ∧ v.isOwner = true) (quiet rows) where
  locks := lockInv_init rows ()
  owners _ := Iff.rfl
  phases i x hx := by cases hx
  hasOwner := hrows

theorem Phase.committed (h : Phase env O rows x) (htodo : x.todo = []) :
    ActiveOwner rows x.data.actor ∧ ∀ w ∈ x.own, Fine env rows x.data.actor w.1 w.2 := by
  cases h with
  | refused e hown htodo' =>
    rw [htodo] at htodo'
    cases htodo'
  | fresh rest hown htodo' hrest =>
    rw [htodo] at htodo'
    cases htodo'
  | locking ids rest hown htodo' hrest hids =>
    rw [htodo] at htodo'
    exact absurd htodo'.symm (by simp)
  | acting hheld hactor hown hrest => exact ⟨hactor, hown⟩

theorem sees_cases (x : Transaction) (rows : Table StaffId StaffRow) (k : StaffId) :
    (x.sees rows).get? k = rows.get? k ∨ ∃ v, (k, v) ∈ x.own ∧ (x.sees rows).get? k = some v := by
  unfold Txn.sees
  rw [get?_overlay]
  cases h : x.own.reverse.lookup k with
  | none => exact Or.inl (Option.none_or)
  | some v => exact Or.inr ⟨v, mem_of_lookup_reverse h, Option.some_or⟩

theorem committed_row {actor : StaffId} (hown : ∀ w ∈ x.own, Fine env rows actor w.1 w.2) (k : StaffId) :
    match rows.get? k with
    | none => ∀ v, (x.sees rows).get? k = some v → v.isOwner = false
    | some v₀ => ∃ v, (x.sees rows).get? k = some v ∧ v.isOwner = v₀.isOwner ∧
        (v₀.breakglass env = true → v = v₀) ∧
        (k = actor → (v₀.role = .admin → v.role = .admin) ∧ (v₀.isActive = true → v.isActive = true)) := by
  rcases sees_cases x rows k with hsame | ⟨v, hmem, hnew⟩
  · rw [hsame]
    cases hk : rows.get? k with
    | none => exact nofun
    | some v₀ => exact ⟨v₀, rfl, rfl, fun _ => rfl, fun _ => ⟨fun h => h, fun h => h⟩⟩
  · rw [hnew]
    rcases hown _ hmem with ⟨hnone, hflag⟩ | ⟨v₀, hsome, hflag, hplain, hself⟩
    · rw [hnone]
      intro v' hv'
      cases hv'
      exact hflag
    · rw [hsome]
      refine ⟨v, rfl, hflag, fun hb => ?_, hself⟩
      rw [hplain] at hb
      cases hb

variable {s : System}

variable (pgLower) in
theorem Inv.rows_cases (hs : Inv env O s) (l : Label Request) : ((directory env pgLower).step s l).rows = s.rows ∨
      ∃ i x, l = .commit i ∧ s.txns.get? i = some x ∧ ((directory env pgLower).step s l).rows = x.sees s.rows ∧
        ActiveOwner s.rows x.data.actor ∧ ∀ w ∈ x.own, Fine env s.rows x.data.actor w.1 w.2 := by
  rcases commit_cases (directory env pgLower) s l with ⟨hrows, -⟩ | ⟨i, x, hl, hx, htodo, hrows, -⟩
  · exact Or.inl hrows
  · obtain ⟨hactor, hown⟩ := (hs.phases i x hx).committed htodo
    exact Or.inr ⟨i, x, hl, hx, hrows, hactor, hown⟩

theorem Inv.step (hs : Inv env O s) (l : Label Request) : Inv env O ((directory env pgLower).step s l) := by
  have howners : (∀ k v, s.rows.get? k = some v → v.isOwner = true → O k) ∧
      ∀ k, O k → ∃ v, s.rows.get? k = some v ∧ v.isOwner = true :=
    ⟨fun k v hv ho => (hs.owners k).2 ⟨v, hv, ho⟩, fun k => (hs.owners k).1⟩
  refine ⟨hs.locks.step directory_lawful l, fun k => ?_, fun i x hx => ?_, ?_⟩
  · rw [hs.owners k]
    rcases hs.rows_cases pgLower l with hrows | ⟨i, x, -, -, hrows, -, hown⟩
    · rw [hrows]
    · rw [hrows]
      have hrow := committed_row hown k
      cases hk : s.rows.get? k with
      | none =>
        rw [hk] at hrow
        constructor
        · rintro ⟨v, hv, -⟩
          cases hv
        · rintro ⟨v, hv, ho⟩
          rw [hrow v hv] at ho
          cases ho
      | some v₀ =>
        rw [hk] at hrow
        obtain ⟨v, hv, hflag, -, -⟩ := hrow
        rw [hv]
        constructor
        · rintro ⟨v', hv', ho⟩
          cases hv'
          exact ⟨v, rfl, hflag.trans ho⟩
        · rintro ⟨v', hv', ho⟩
          cases hv'
          exact ⟨v₀, rfl, hflag.symm.trans ho⟩
  · rcases txns_cases (directory env pgLower) hx with
      hold | ⟨a, -, -, rfl⟩ | ⟨x₀, st, rest, e, hl, hx₀, htodo, -, hexec, rfl⟩
    · refine (hs.phases i x hold).frame (fun w hw => hs.locks.own i x hold w hw) fun k hk => ?_
      exact hs.locks.get?_rows hold hx hk
    · exact phase_first a _
    · have hrows : ((directory env pgLower).step s l).rows = s.rows := by
        rcases commit_cases (directory env pgLower) s l with ⟨hrows, -⟩ | ⟨j, y, hl', -⟩
        · exact hrows
        · rw [hl] at hl'
          cases hl'
      rw [hrows]
      exact (hs.phases i x₀ hx₀).exec howners.1 howners.2 htodo hexec
  · rcases hs.rows_cases pgLower l with hrows | ⟨i, x, -, -, hrows, ⟨v₀, hv₀, hact⟩, hown⟩
    · rw [hrows]
      exact hs.hasOwner
    · -- the actor is still there
      have hrow := committed_row hown x.data.actor
      rw [hv₀] at hrow
      obtain ⟨v, hv, hflag, -, hself⟩ := hrow
      obtain ⟨hfront, hadmin⟩ := Bool.and_eq_true_iff.1 hact
      obtain ⟨howner, hactive⟩ := Bool.and_eq_true_iff.1 hfront
      refine ⟨x.data.actor, v, hrows ▸ hv, ?_⟩
      unfold StaffRow.activeOwner
      rw [hflag, howner, (hself rfl).2 hactive, (hself rfl).1 (of_decide_eq_true hadmin)]
      rfl

theorem Inv.guarded (hs : Inv env O s) (l : Label Request) : Guarded env pgLower s l := by
  rcases hs.rows_cases pgLower l with hrows | ⟨i, x, hl, hx, hrows, hactor, hown⟩
  · refine ⟨fun k hk => absurd (by rw [hrows]) hk, fun i x v v' _ _ hv hv' => ?_, fun k v hv _ => by rw [hrows, hv]⟩
    rw [hrows, hv] at hv'
    cases hv'
    exact ⟨fun h => h, fun h => h⟩
  · refine ⟨fun k _ => ⟨i, x, hl, hx, hactor⟩, fun i' x' v v' hl' hx' hv hv' => ?_, fun k v hv hb => ?_⟩
    · cases hl.symm.trans hl'
      cases hx.symm.trans hx'
      rw [hrows] at hv'
      have hrow := committed_row hown x.data.actor
      rw [hv] at hrow
      obtain ⟨v'', hv'', -, -, hself⟩ := hrow
      cases hv'.symm.trans hv''
      exact hself rfl
    · have hrow := committed_row hown k
      rw [hv] at hrow
      obtain ⟨v', hv', -, hkeep, -⟩ := hrow
      rw [hrows, hv', hkeep hb]

end Steps

/-- However the writes of staff members overlap, the platform keeps an active owner and every commit is guarded. -/
theorem owners_guarded (pgLower : String → String) (rows : Table StaffId StaffRow) (hrows : HasOwner rows)
    (acts : List (Label Request)) : Always (directory env pgLower).step (fun s => HasOwner s.rows) (quiet rows) acts ∧
      Along (directory env pgLower).step (Guarded env pgLower) (quiet rows) acts := by
  have hinv : Always (directory env pgLower).step
      (Inv env fun k => ∃ v, rows.get? k = some v ∧ v.isOwner = true) (quiet rows) acts :=
    always_of_step (fun s l hs => hs.step l) acts (inv_quiet hrows)
  exact ⟨hinv.mono fun s hs => hs.hasOwner, hinv.along fun s l hs _ => hs.guarded l⟩

def twoOwners : Table StaffId StaffRow :=
  ⟨[(1, ⟨"kim", some "kim@adventure.asia", .admin, true, true, none, []⟩),
    (2, ⟨"lee", some "lee@adventure.asia", .admin, true, true, none, []⟩)], by decide⟩

/-- They disable each other: both have taken their snapshot of the owners when the first one commits. -/
def eachOther : List (Label Request) :=
  ([.start 0 (.disable 1 2), .start 1 (.disable 2 1), .advance 0, .advance 1, .advance 0, .advance 1, .advance 0] :
      List (Label Request)) ++
    List.replicate 5 (Label.advance 0) ++ [Label.commit 0] ++ List.replicate 6 (Label.advance 1) ++ [Label.commit 1]

theorem owners_disable_each_other : HasOwner twoOwners ∧
      Always (directory ⟨id, none⟩ id).step (fun s => HasOwner s.rows) (quiet twoOwners) eachOther ∧
      Along (directory ⟨id, none⟩ id).step (Guarded ⟨id, none⟩ id) (quiet twoOwners) eachOther := by
  have h : HasOwner twoOwners := ⟨1, _, rfl, rfl⟩
  exact ⟨h, owners_guarded ⟨id, none⟩ id twoOwners h eachOther⟩

/-- The first one gets through and the second one is refused. -/
example :
    (run (directory ⟨id, none⟩ id).step (quiet twoOwners) eachOther).rows.count (fun _ v => v.activeOwner) = 1 := by
  decide

end CisApp.Staff
