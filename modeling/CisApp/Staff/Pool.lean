import CisApp.Lib.Outcome
import CisApp.Staff.Directory

/-! The WORKFORCE pool beside the directory: a write commits its row first and then makes its Cognito calls, up to
the first that fails or that the deadline skips (`_run_steps`).

A write takes its calls from the row before and after.  `change_roles` removes the group of the old role only, and a
sync of an inactive row only disables the user.  So a group that an earlier write did not get to remove stays, and
these writes still answer ok (`stale_admin_group`).  A create and a sync of an active row remove every other group.

One account with an email; the writes come one after another. -/

namespace CisApp.Staff

open Lib List

/-! ## The pool -/

inductive Group where
  /-- `cis-<role>`. -/
  | cis (role : Role)
  | cisReviewer
  /-- `booking-<role>`. -/
  | booking (role : BookingRole)
  | crm (role : CrmRole)
  | other (name : String)
deriving Repr, DecidableEq

def Group.isCis : Group → Bool
  | .cis _ => true
  | .cisReviewer => true
  | _ => false

def Group.isBooking : Group → Bool
  | .booking _ => true
  | _ => false

def Group.isCrm : Group → Bool
  | .crm _ => true
  | _ => false

/-- `CIS_GROUPS + BOOKING_GROUPS + CRM_GROUPS`. -/
def staffGroups : List Group :=
  cisRoles.map .cis ++ [.cisReviewer] ++ bookingRoles.map .booking ++ crmRoles.map .crm

structure PoolUser where
  enabled : Bool
  groups : Finset Group
deriving DecidableEq

inductive Call where
  | createUser
  | addToGroup (g : Group)
  | removeFromGroup (g : Group)
  | disable
  | enable
  | globalSignOut
deriving Repr, DecidableEq

/-- What a call that Cognito carries out does to the user, `none` where it raises; `has` are the groups of the
pool.  A sign-out that is refused counts among the calls that fail. -/
def Call.run (has : Group → Bool) : Call → Option PoolUser → Option (Option PoolUser)
  | .createUser, user => some (some (user.getD ⟨true, ∅⟩))
  | .addToGroup _, none => none
  | .addToGroup g, some u => if has g then some (some { u with groups := insert g u.groups }) else none
  | .removeFromGroup g, user => some (user.map fun u => { u with groups := u.groups.erase g })
  | .disable, user => some (user.map fun u => { u with enabled := false })
  | .enable, none => none
  | .enable, some u => some (some { u with enabled := true })
  | .globalSignOut, user => some user

/-- What goes wrong with a call: it has no effect, it has one and its answer is lost, or the deadline has passed. -/
inductive Fault where
  | failed
  | lost
  | late
deriving Repr, DecidableEq

inductive Status where
  | ok
  | savedCognitoPending
deriving Repr, DecidableEq

/-- `_run_steps`; `faults` says what goes wrong at each position. -/
def runSteps (has : Group → Bool) (faults : Nat → Option Fault) :
    Nat → List Call → Option PoolUser → Option PoolUser × Status
  | _, [], user => (user, .ok)
  | i, call :: rest, user =>
    match faults i, call.run has user with
    | none, some user' => runSteps has faults (i + 1) rest user'
    | some .lost, some user' => (user', .savedCognitoPending)
    | _, _ => (user, .savedCognitoPending)

/-! ## The calls of a write -/

def wantedGroups (row : StaffRow) : List Group :=
  .cis row.role :: (row.booking.toList.map .booking ++ (requireCrmRoles row.crm).map .crm)

/-- `_remove_other_groups_steps`. -/
def removeOtherGroups (wanted : List Group) : List Call :=
  (staffGroups.filter fun g => g ∉ wanted).map .removeFromGroup

def createCalls (row : StaffRow) (existed : Bool) : List Call :=
  .createUser :: (wantedGroups row).map .addToGroup ++
    if existed then .enable :: removeOtherGroups (wantedGroups row) else []

def disableCalls : List Call := [.disable, .globalSignOut]

def syncCalls (row : StaffRow) : List Call :=
  if row.isActive then
    .createUser :: .enable :: ((wantedGroups row).map .addToGroup ++ removeOtherGroups (wantedGroups row))
  else disableCalls

def cisCalls (roles : Roles) (old : StaffRow) : List Call :=
  match roles.role with
  | none => []
  | some r =>
    .addToGroup (.cis r) :: if old.role ≠ r && old.role ∈ cisRoles then [.removeFromGroup (.cis old.role)] else []

def bookingCalls (roles : Roles) (old : StaffRow) : List Call :=
  match roles.booking with
  | none => []
  | some b =>
    (b.toList.map fun b => .addToGroup (.booking b)) ++
      ((old.booking.toList.filter fun o => b ≠ some o).map fun o => .removeFromGroup (.booking o))

def crmCalls (roles : Roles) (old : StaffRow) : List Call :=
  if roles.preset || roles.crm.isSome then
    ((roles.newCrm old).map fun c => .addToGroup (.crm c)) ++
      (((requireCrmRoles old.crm).filter fun c => c ∉ roles.newCrm old).map fun c => .removeFromGroup (.crm c))
  else []

def rolesCalls (roles : Roles) (old : StaffRow) : List Call :=
  cisCalls roles old ++ bookingCalls roles old ++ crmCalls roles old

/-! ## Histories -/

inductive Operation where
  | create (req : CreateRequest) (username : String)
  | changeRoles (req : RolesRequest)
  | disable
  | enable
  | signOut
  | sync
deriving Repr, DecidableEq

/-- A write: what its transaction reads of other rows (the actor is an active owner, the actor is the target, there is
another active owner), and what goes wrong with its calls. -/
structure Write where
  operation : Operation
  actorOk : Bool
  isSelf : Bool
  others : Bool
  faults : Nat → Option Fault

/-- The directory row and the pool's user of the account. -/
structure Account where
  row : Option StaffRow
  user : Option PoolUser

variable (env : Env)

def loadTarget (row : Option StaffRow) : Except Refusal StaffRow :=
  match row with
  | none => .error .notFound
  | some row => if row.breakglass env then .error .breakglass else .ok row

/-- The transaction: the row afterwards and the calls to make. -/
def Write.transact (w : Write) (s : Account) : Except Refusal (StaffRow × List Call) := do
  match w.operation with
  | .create req username =>
    req.check env
    if !w.actorOk then .error .notOwner
    match s.row with
    | some row =>
      req.checkExisting env row
      .ok (row, createCalls (req.row username) s.user.isSome)
    | none => .ok (req.row username, createCalls (req.row username) s.user.isSome)
  | .changeRoles req =>
    let roles ← req.check
    if !w.actorOk then .error .notOwner
    let row ← loadTarget env s.row
    roles.check env w.isSelf row
    if roles.demotes row && row.activeOwner && !w.others then .error .lastOwner
    .ok (roles.apply row, rolesCalls roles row)
  | .disable =>
    if !w.actorOk then .error .notOwner
    let row ← loadTarget env s.row
    if w.isSelf then .error .selfDisable
    if row.activeOwner && !w.others then .error .lastOwner
    .ok ({ row with isActive := false }, disableCalls)
  | .enable =>
    if !w.actorOk then .error .notOwner
    let row ← loadTarget env s.row
    if !allowedHere env row.email then .error .e2eNotAllowedHere
    .ok ({ row with isActive := true }, [.enable])
  | .signOut =>
    if !w.actorOk then .error .notOwner
    let row ← loadTarget env s.row
    if !allowedHere env row.email then .error .e2eNotAllowedHere
    .ok ({ row with isActive := true }, [.enable, .globalSignOut])
  | .sync =>
    if !w.actorOk then .error .notOwner
    let row ← loadTarget env s.row
    if row.isActive && !inE2eScope env row.email row.role row.booking (requireCrmRoles row.crm) then
      .error .e2eTestScope
    if row.isActive && !allowedHere env row.email then .error .e2eNotAllowedHere
    .ok (row, syncCalls row)

variable (has : Group → Bool)

/-- A write and its answer, `none` for a refusal. -/
def write (s : Account) (w : Write) : Account × Option Status :=
  match w.transact env s with
  | .error _ => (s, none)
  | .ok (row, calls) =>
    let (user, status) := runSteps has w.faults 0 calls s.user
    (⟨some row, user⟩, some status)

def step (s : Account) (w : Write) : Account := (write env has s w).1

/-! ## Stale access -/

/-- The user's groups of one application are those that the row gives. -/
def Matches (app : Group → Bool) (s : Account) : Prop :=
  ∃ row u, s.row = some row ∧ s.user = some u ∧
    u.groups.filter (fun g => app g) = (wantedGroups row).toFinset.filter fun g => app g

/-- A user, where there is one, is enabled and in the groups as its row says. -/
def Synced (s : Account) : Prop :=
  ∀ row u, s.row = some row → s.user = some u →
    u.enabled = row.isActive ∧ Matches Group.isCis s ∧ Matches Group.isBooking s ∧ Matches Group.isCrm s

/-- What an ok answer promises about the account afterwards; `active` is the row before. -/
def Promise (operation : Operation) (active : Bool) (s : Account) : Prop :=
  match operation with
  | .create _ _ => Matches Group.isCis s ∧ Matches Group.isBooking s
  | .changeRoles req =>
    match req.check with
    | .error _ => True
    | .ok roles =>
      (roles.role.isSome → Matches Group.isCis s) ∧
        (roles.role.isSome → roles.booking.isSome → Matches Group.isBooking s)
  | .sync => (active → Matches Group.isCis s ∧ Matches Group.isBooking s) ∧ Synced s
  | _ => True

def NoStaleAccess (s : Account) (w : Write) : Prop :=
  (write env has s w).2 = some .ok → Promise w.operation (s.row.any (·.isActive)) (step env has s w)

/-- The user's groups of one application are among `gs`. -/
def Within (app : Group → Bool) (gs : List Group) (s : Account) : Prop :=
  ∀ u, s.user = some u → ∀ g ∈ u.groups, app g = true → g ∈ gs

/-- Before roles are changed, the user is in no group but those of the old and the new role; before an inactive row is
synced, the user is in the groups that it gives. -/
def NoLeftovers (s : Account) (w : Write) : Prop :=
  match w.operation, s.row with
  | .changeRoles req, some row =>
    match req.check with
    | .error _ => True
    | .ok roles =>
      (∀ r, roles.role = some r →
        Within Group.isCis (.cis r :: if row.role ∈ cisRoles then [.cis row.role] else []) s) ∧
      (roles.role.isSome → ∀ b, roles.booking = some b →
        Within Group.isBooking ((b.toList ++ row.booking.toList).map .booking) s)
  | .sync, some row =>
    row.isActive = false → s.user.isSome →
      Matches Group.isCis s ∧ Matches Group.isBooking s ∧ Matches Group.isCrm s
  | _, _ => True

/-! ## Calls -/

section Calls

variable {has}

def inGroup (user : Option PoolUser) (g : Group) : Bool := user.any fun u => g ∈ u.groups

def Call.member (g : Group) (b : Bool) : Call → Bool
  | .addToGroup g' => b || g = g'
  | .removeFromGroup g' => b && g ≠ g'
  | _ => b

def runAll (has : Group → Bool) (calls : List Call) (user : Option PoolUser) : Option (Option PoolUser) :=
  calls.foldlM (fun user call => call.run has user) user

variable {call : Call} {calls : List Call} {user user' : Option PoolUser}

theorem runAll_cons (h : runAll has (call :: calls) user = some user') :
    ∃ mid, call.run has user = some mid ∧ runAll has calls mid = some user' := by
  exact Option.bind_eq_some_iff.1 h

theorem runAll_of_ok {faults : Nat → Option Fault} {i : Nat}
    (h : runSteps has faults i calls user = (user', .ok)) : runAll has calls user = some user' := by
  induction calls generalizing i user with
  | nil =>
    cases h
    rfl
  | cons call rest ih =>
    rw [runSteps] at h
    split at h
    · next mid _ hrun =>
      show (call.run has user).bind _ = some user'
      rw [hrun]
      exact ih h
    · cases h
    · cases h

theorem Call.inGroup_run (h : call.run has user = some user')
    (g : Group) : inGroup user' g = call.member g (inGroup user g) := by
  cases user with
  | none =>
    cases call with
    | addToGroup g' => cases h
    | enable => cases h
    | createUser =>
      cases h
      simp [inGroup, Call.member]
    | removeFromGroup g' =>
      cases h
      rfl
    | disable =>
      cases h
      rfl
    | globalSignOut =>
      cases h
      rfl
  | some u =>
    cases call with
    | addToGroup g' =>
      rw [Call.run] at h
      split at h
      · cases h
        simp [inGroup, Call.member, Bool.or_comm]
      · cases h
    | removeFromGroup g' =>
      cases h
      simp [inGroup, Call.member, Bool.and_comm]
    | createUser =>
      cases h
      rfl
    | enable =>
      cases h
      rfl
    | disable =>
      cases h
      rfl
    | globalSignOut =>
      cases h
      rfl

theorem inGroup_runAll (h : runAll has calls user = some user')
    (g : Group) : inGroup user' g = calls.foldl (fun b call => call.member g b) (inGroup user g) := by
  induction calls generalizing user with
  | nil =>
    cases h
    rfl
  | cons call calls ih =>
    obtain ⟨mid, hrun, hrest⟩ := runAll_cons h
    rw [ih hrest, Call.inGroup_run hrun]
    rfl

theorem member_adds (g : Group) (gs : List Group) (b : Bool) :
    (gs.map Call.addToGroup).foldl (fun b call => call.member g b) b = (b || g ∈ gs) := by
  induction gs generalizing b with
  | nil => simp
  | cons g' gs ih =>
    rw [map_cons, foldl_cons, ih]
    simp [Call.member, Bool.or_assoc]

theorem member_removes (g : Group) (gs : List Group) (b : Bool) :
    (gs.map Call.removeFromGroup).foldl (fun b call => call.member g b) b = (b && g ∉ gs) := by
  induction gs generalizing b with
  | nil => simp
  | cons g' gs ih =>
    rw [map_cons, foldl_cons, ih]
    simp [Call.member, Bool.and_assoc]

theorem member_others {g : Group}
    (h : ∀ call ∈ calls, ∀ g', call = .addToGroup g' ∨ call = .removeFromGroup g' → g ≠ g') (b : Bool) :
    calls.foldl (fun b call => call.member g b) b = b := by
  induction calls with
  | nil => rfl
  | cons call calls ih =>
    have hcall : call.member g b = b := by
      cases call with
      | addToGroup g' => simp [Call.member, h _ mem_cons_self g' (Or.inl rfl)]
      | removeFromGroup g' => simp [Call.member, h _ mem_cons_self g' (Or.inr rfl)]
      | _ => rfl
    rw [foldl_cons, hcall]
    exact ih fun call' hcall' => h call' (mem_cons_of_mem _ hcall')

theorem Call.isSome_run (h : call.run has user = some user')
    (huser : user.isSome ∨ call = .createUser ∨ ∃ g, call = .addToGroup g) : user'.isSome := by
  cases user with
  | none =>
    rcases huser with huser | rfl | ⟨g, rfl⟩
    · cases huser
    · cases h
      rfl
    · cases h
  | some u =>
    cases call with
    | addToGroup g =>
      rw [Call.run] at h
      split at h
      · cases h
        rfl
      · cases h
    | _ =>
      cases h
      rfl

theorem isSome_runAll (h : runAll has calls user = some user') (huser : user.isSome) : user'.isSome := by
  induction calls generalizing user with
  | nil =>
    cases h
    exact huser
  | cons call calls ih =>
    obtain ⟨mid, hrun, hrest⟩ := runAll_cons h
    exact ih hrest (Call.isSome_run hrun (Or.inl huser))

theorem enabled_runAll (hcalls : ∀ call ∈ calls, call ≠ .enable ∧ call ≠ .disable)
    {u : PoolUser} (h : runAll has calls (some u) = some user') : ∃ u', user' = some u' ∧ u'.enabled = u.enabled := by
  induction calls generalizing u with
  | nil =>
    cases h
    exact ⟨u, rfl, rfl⟩
  | cons call calls ih =>
    obtain ⟨mid, hrun, hrest⟩ := runAll_cons h
    have hmid : ∃ v, mid = some v ∧ v.enabled = u.enabled := by
      cases call with
      | addToGroup g =>
        rw [Call.run] at hrun
        split at hrun
        · cases hrun
          exact ⟨_, rfl, rfl⟩
        · cases hrun
      | enable => exact absurd rfl (hcalls _ mem_cons_self).1
      | disable => exact absurd rfl (hcalls _ mem_cons_self).2
      | _ =>
        cases hrun
        exact ⟨_, rfl, rfl⟩
    obtain ⟨v, rfl, hv⟩ := hmid
    obtain ⟨u', hu', he⟩ := ih (fun call' hcall' => hcalls call' (mem_cons_of_mem _ hcall')) hrest
    exact ⟨u', hu', he.trans hv⟩

def InPool (has : Group → Bool) (user : Option PoolUser) : Prop := ∀ g, inGroup user g = true → has g = true

theorem Call.inPool_run (h : call.run has user = some user') (huser : InPool has user) : InPool has user' := by
  intro g hg
  rw [Call.inGroup_run h] at hg
  cases call with
  | addToGroup g' =>
    cases user with
    | none => cases h
    | some u =>
      rw [Call.run] at h
      split at h
      · next hhas =>
        rcases Bool.or_eq_true_iff.1 hg with hg | hg
        · exact huser g hg
        · exact of_decide_eq_true hg ▸ hhas
      · cases h
  | removeFromGroup g' => exact huser g (Bool.and_eq_true_iff.1 hg).1
  | _ => exact huser g hg

theorem inPool_runSteps {faults : Nat → Option Fault} {i : Nat}
    (huser : InPool has user) : InPool has (runSteps has faults i calls user).1 := by
  induction calls generalizing i user with
  | nil => exact huser
  | cons call rest ih =>
    rw [runSteps]
    split
    · next mid _ hrun => exact ih (Call.inPool_run hrun huser)
    · next mid _ hrun => exact Call.inPool_run hrun huser
    · exact huser

end Calls

/-! ## Groups of a row -/

theorem mem_wantedGroups {row : StaffRow} {g : Group} :
    g ∈ wantedGroups row ↔ g = .cis row.role ∨ (∃ b, row.booking = some b ∧ g = .booking b) ∨
      ∃ c ∈ requireCrmRoles row.crm, g = .crm c := by
  unfold wantedGroups
  rw [mem_cons, mem_append, mem_map, mem_map]
  simp only [Option.mem_toList, eq_comm]

theorem matches_iff {app : Group → Bool} {s : Account} {row : StaffRow} {u : PoolUser} (hrow : s.row = some row)
    (huser : s.user = some u) :
    Matches app s ↔ ∀ g, app g = true → (inGroup s.user g = true ↔ g ∈ wantedGroups row) := by
  unfold Matches
  rw [hrow, huser]
  constructor
  · rintro ⟨row', u', hrow', hu', heq⟩ g hg
    cases hrow'
    cases hu'
    have hmem := Finset.ext_iff.1 heq g
    simpa [hg, inGroup] using hmem
  · intro h
    refine ⟨row, u, rfl, rfl, Finset.ext fun g => ?_⟩
    by_cases hg : app g = true
    · simpa [hg, inGroup] using h g hg
    · simp [hg]

theorem mem_staffGroups {g : Group} (h : g.isCis = true ∨ g.isBooking = true ∨ g.isCrm = true) :
    g ∈ staffGroups ∨ g = .cis .viewer := by
  cases g with
  | cis r => cases r <;> decide
  | cisReviewer => decide
  | booking b => cases b <;> decide
  | crm c => cases c <;> decide
  | other name => simp [Group.isCis, Group.isBooking, Group.isCrm] at h

theorem member_wanted {wanted : List Group} {g : Group} {b : Bool}
    (h : g ∈ staffGroups ∨ (b = false ∧ g ∉ staffGroups)) :
    (removeOtherGroups wanted).foldl (fun b call => call.member g b)
      ((wanted.map Call.addToGroup).foldl (fun b call => call.member g b) b) = decide (g ∈ wanted) := by
  unfold removeOtherGroups
  rw [member_adds, member_removes]
  rcases h with h | ⟨rfl, h⟩
  · by_cases hg : g ∈ wanted <;> simp [hg, h]
  · by_cases hg : g ∈ wanted <;> simp [hg, h]

/-! ## Writes -/

section Writes

variable {env has}

theorem loadTarget_ok {row : Option StaffRow} {r : StaffRow} (h : loadTarget env row = .ok r) :
    row = some r ∧ r.breakglass env = false := by
  unfold loadTarget at h
  split at h
  · cases h
  · split at h
    · cases h
    · next hb =>
      cases h
      exact ⟨rfl, Bool.eq_false_iff.2 hb⟩

variable {s : Account} {w : Write}

theorem write_ok (h : (write env has s w).2 = some .ok) :
    ∃ row calls, w.transact env s = .ok (row, calls) ∧ (step env has s w).row = some row ∧
      runAll has calls s.user = some (step env has s w).user := by
  unfold step
  unfold write at h ⊢
  cases htx : w.transact env s with
  | error e =>
    rw [htx] at h
    cases h
  | ok r =>
    rw [htx] at h
    refine ⟨r.1, r.2, rfl, rfl, ?_⟩
    have hok : (runSteps has w.faults 0 r.2 s.user).2 = .ok := Option.some.inj h
    exact runAll_of_ok (Prod.ext rfl hok)

theorem requireCrmRoles_idem (l : List CrmRole) : requireCrmRoles (requireCrmRoles l) = requireCrmRoles l := by
  unfold requireCrmRoles
  refine filter_congr fun c hc => ?_
  simp [mem_filter, hc]

variable {row : StaffRow}

theorem checkExisting_ok {req : CreateRequest} (h : req.checkExisting env row = .ok ()) :
    row.role = req.role ∧ row.booking = req.booking ∧ requireCrmRoles row.crm = requireCrmRoles req.crm := by
  unfold CreateRequest.checkExisting at h
  split at h
  · cases h
  · split at h
    · cases h
    · next hsame =>
      simp only [ne_eq, Bool.or_eq_true, decide_eq_true_eq, not_or, not_not] at hsame
      exact ⟨hsame.1.1.2, hsame.1.2, hsame.2⟩

variable {calls : List Call}

theorem transact_create {req : CreateRequest} {username : String}
    (hop : w.operation = .create req username) (h : w.transact env s = .ok (row, calls)) :
    wantedGroups row = wantedGroups (req.row username) ∧ calls = createCalls (req.row username) s.user.isSome := by
  simp only [Write.transact, hop] at h
  obtain ⟨-, h⟩ := seq_eq_ok_iff.1 h
  obtain ⟨-, h⟩ := refuse_eq_ok_iff.1 h
  split at h
  · next old _ =>
    obtain ⟨hsame, h⟩ := seq_eq_ok_iff.1 h
    cases h
    refine ⟨?_, rfl⟩
    obtain ⟨hrole, hbooking, hcrm⟩ := checkExisting_ok hsame
    simp only [wantedGroups, CreateRequest.row, hrole, hbooking, hcrm, requireCrmRoles_idem]
  · cases h
    exact ⟨rfl, rfl⟩

theorem transact_roles {req : RolesRequest}
    (hop : w.operation = .changeRoles req) (h : w.transact env s = .ok (row, calls)) :
    ∃ roles old, req.check = .ok roles ∧ s.row = some old ∧ row = roles.apply old ∧ calls = rolesCalls roles old := by
  simp only [Write.transact, hop] at h
  obtain ⟨roles, hroles, h⟩ := bind_eq_ok_iff.1 h
  obtain ⟨-, h⟩ := refuse_eq_ok_iff.1 h
  obtain ⟨old, hold, h⟩ := bind_eq_ok_iff.1 h
  obtain ⟨-, h⟩ := seq_eq_ok_iff.1 h
  obtain ⟨-, h⟩ := refuse_eq_ok_iff.1 h
  cases h
  exact ⟨roles, old, hroles, (loadTarget_ok hold).1, rfl, rfl⟩

theorem transact_sync (hop : w.operation = .sync) (h : w.transact env s = .ok (row, calls)) :
    s.row = some row ∧ calls = syncCalls row := by
  simp only [Write.transact, hop] at h
  obtain ⟨-, h⟩ := refuse_eq_ok_iff.1 h
  obtain ⟨old, hold, h⟩ := bind_eq_ok_iff.1 h
  obtain ⟨-, h⟩ := refuse_eq_ok_iff.1 h
  obtain ⟨-, h⟩ := refuse_eq_ok_iff.1 h
  cases h
  exact ⟨(loadTarget_ok hold).1, rfl⟩

variable {app : Group → Bool}

theorem matches_of_member (hrow : s.row = some row)
    (huser : s.user.isSome) (h : ∀ g, app g = true → inGroup s.user g = decide (g ∈ wantedGroups row)) :
    Matches app s := by
  obtain ⟨u, hu⟩ := Option.isSome_iff_exists.1 huser
  refine (matches_iff hrow hu).2 fun g hg => ?_
  rw [h g hg, decide_eq_true_iff]

variable {user : Option PoolUser} {g : Group}

theorem known_group (hviewer : has (.cis .viewer) = false) (huser : InPool has user)
    (hg : g.isCis = true ∨ g.isBooking = true ∨ g.isCrm = true) :
    g ∈ staffGroups ∨ (inGroup user g = false ∧ g ∉ staffGroups) := by
  rcases mem_staffGroups hg with h | rfl
  · exact Or.inl h
  · refine Or.inr ⟨Bool.eq_false_iff.2 fun hin => ?_, by decide⟩
    have hhas := huser _ hin
    rw [hviewer] at hhas
    cases hhas

variable {user' : Option PoolUser}

theorem create_member (hviewer : has (.cis .viewer) = false)
    (huser : InPool has user) (h : runAll has (createCalls row user.isSome) user = some user') :
    user'.isSome ∧ ∀ g, g.isCis = true ∨ g.isBooking = true ∨ g.isCrm = true →
      inGroup user' g = decide (g ∈ wantedGroups row) := by
  constructor
  · obtain ⟨mid, hrun, hrest⟩ := runAll_cons h
    exact isSome_runAll hrest (Call.isSome_run hrun (Or.inr (Or.inl rfl)))
  · intro g hg
    have hfold := inGroup_runAll h g
    unfold createCalls at hfold
    rw [foldl_append, foldl_cons] at hfold
    rw [hfold]
    cases huser' : user.isSome with
    | true =>
      exact member_wanted (known_group hviewer huser hg)
    | false =>
      have hnone : user = none := by simpa using huser'
      subst hnone
      rw [if_neg (by decide), foldl_nil, member_adds]
      rfl

theorem sync_member (hviewer : has (.cis .viewer) = false) (hrow : row.isActive = true)
    (huser : InPool has user) (h : runAll has (syncCalls row) user = some user') :
    (∃ u, user' = some u ∧ u.enabled = true) ∧ ∀ g, g.isCis = true ∨ g.isBooking = true ∨ g.isCrm = true →
      inGroup user' g = decide (g ∈ wantedGroups row) := by
  unfold syncCalls at h
  rw [if_pos hrow] at h
  constructor
  · obtain ⟨mid, hcreate, h⟩ := runAll_cons h
    obtain ⟨mid', henable, h⟩ := runAll_cons h
    cases hcreate
    cases henable
    refine enabled_runAll (fun call hcall => ?_) h
    rcases List.mem_append.1 hcall with hcall | hcall
    · obtain ⟨g, -, rfl⟩ := List.mem_map.1 hcall
      exact ⟨Call.noConfusion, Call.noConfusion⟩
    · obtain ⟨g, -, rfl⟩ := List.mem_map.1 hcall
      exact ⟨Call.noConfusion, Call.noConfusion⟩
  · intro g hg
    rw [inGroup_runAll h g, foldl_cons, foldl_cons, foldl_append]
    exact member_wanted (known_group hviewer huser hg)

theorem disable_member (h : runAll has disableCalls user = some user') :
    (∀ u, user' = some u → u.enabled = false) ∧ user'.isSome = user.isSome ∧ ∀ g, inGroup user' g = inGroup user g := by
  obtain ⟨mid, hdisable, hrest⟩ := runAll_cons h
  obtain ⟨mid', hout, hend⟩ := runAll_cons hrest
  cases hdisable
  cases hout
  cases hend
  cases user with
  | none => exact ⟨fun u hu => (by cases hu), rfl, fun g => rfl⟩
  | some v =>
    refine ⟨fun u hu => ?_, rfl, fun g => rfl⟩
    cases hu
    rfl

def About (app : Group → Bool) (calls : List Call) : Prop :=
  ∀ call ∈ calls, ∃ g, app g = true ∧ (call = .addToGroup g ∨ call = .removeFromGroup g)

theorem member_about (h : About app calls)
    (hg : app g = false) (b : Bool) : calls.foldl (fun b call => call.member g b) b = b := by
  refine member_others (fun call hcall g' hg' heq => ?_) b
  obtain ⟨g'', happ, hcall'⟩ := h call hcall
  have hsame : g'' = g' := by
    rcases hg' with rfl | rfl <;> rcases hcall' with heq | heq <;> cases heq <;> rfl
  rw [← heq] at hsame
  rw [hsame, hg] at happ
  cases happ

theorem about_cisCalls (roles : Roles) (old : StaffRow) : About Group.isCis (cisCalls roles old) := by
  intro call hcall
  unfold cisCalls at hcall
  split at hcall
  · cases hcall
  · next r _ =>
    rcases List.mem_cons.1 hcall with rfl | hcall
    · exact ⟨_, rfl, Or.inl rfl⟩
    · split at hcall
      · obtain rfl := List.mem_singleton.1 hcall
        exact ⟨_, rfl, Or.inr rfl⟩
      · cases hcall

theorem about_bookingCalls (roles : Roles) (old : StaffRow) : About Group.isBooking (bookingCalls roles old) := by
  intro call hcall
  unfold bookingCalls at hcall
  split at hcall
  · cases hcall
  · rcases List.mem_append.1 hcall with hcall | hcall
    · obtain ⟨b, -, rfl⟩ := List.mem_map.1 hcall
      exact ⟨_, rfl, Or.inl rfl⟩
    · obtain ⟨b, -, rfl⟩ := List.mem_map.1 hcall
      exact ⟨_, rfl, Or.inr rfl⟩

theorem about_crmCalls (roles : Roles) (old : StaffRow) : About Group.isCrm (crmCalls roles old) := by
  intro call hcall
  unfold crmCalls at hcall
  split at hcall
  · rcases List.mem_append.1 hcall with hcall | hcall
    · obtain ⟨b, -, rfl⟩ := List.mem_map.1 hcall
      exact ⟨_, rfl, Or.inl rfl⟩
    · obtain ⟨b, -, rfl⟩ := List.mem_map.1 hcall
      exact ⟨_, rfl, Or.inr rfl⟩
  · cases hcall

theorem isCis_iff (hg : g.isCis = true) : g.isBooking = false ∧ g.isCrm = false := by
  cases g with
  | cis r => exact ⟨rfl, rfl⟩
  | cisReviewer => exact ⟨rfl, rfl⟩
  | booking b => cases hg
  | crm c => cases hg
  | other name => cases hg

theorem isBooking_iff (hg : g.isBooking = true) : g.isCis = false ∧ g.isCrm = false := by
  cases g with
  | booking b => exact ⟨rfl, rfl⟩
  | _ => cases hg

theorem mem_wanted_cis (hg : g.isCis = true) : g ∈ wantedGroups row ↔ g = .cis row.role := by
  rw [mem_wantedGroups]
  constructor
  · rintro (h | ⟨b, -, rfl⟩ | ⟨c, -, rfl⟩)
    · exact h
    · cases hg
    · cases hg
  · exact Or.inl

theorem booking_mem_wanted {c : BookingRole} : .booking c ∈ wantedGroups row ↔ row.booking = some c := by
  rw [mem_wantedGroups]
  constructor
  · rintro (h | ⟨b, hb, heq⟩ | ⟨c', -, heq⟩)
    · cases h
    · cases heq
      exact hb
    · cases heq
  · exact fun h => Or.inr (Or.inl ⟨c, h, rfl⟩)

theorem roles_member_cis {roles : Roles} {old : StaffRow} {r : Role} (hr : roles.role = some r)
    (h : runAll has (rolesCalls roles old) user = some user') (hbefore : ∀ g, g.isCis = true → inGroup user g = true →
      g ∈ Group.cis r :: if old.role ∈ cisRoles then [Group.cis old.role] else [])
    (hg : g.isCis = true) : inGroup user' g = decide (g ∈ wantedGroups (roles.apply old)) := by
  have hfold := inGroup_runAll h g
  unfold rolesCalls at hfold
  rw [foldl_append, foldl_append, member_about (about_crmCalls roles old) (isCis_iff hg).2,
    member_about (about_bookingCalls roles old) (isCis_iff hg).1] at hfold
  have hrole : (roles.apply old).role = r := by
    unfold Roles.apply
    rw [hr]
    rfl
  have hwanted : decide (g ∈ wantedGroups (roles.apply old)) = decide (g = .cis r) :=
    decide_eq_decide.2 (hrole ▸ mem_wanted_cis hg)
  rw [hfold, hwanted]
  have hbefore := hbefore g hg
  have hcalls : cisCalls roles old = [Group.cis r].map Call.addToGroup ++
      (if old.role ≠ r && old.role ∈ cisRoles then [Group.cis old.role] else []).map Call.removeFromGroup := by
    simp only [cisCalls, hr]
    split <;> rfl
  rw [hcalls, foldl_append, member_adds, member_removes]
  by_cases hnew : g = .cis r
  · subst hnew
    split
    · next hold =>
      have hne : r ≠ old.role := fun heq => (by simp [heq] at hold)
      simp [hne]
    · simp
  · by_cases hin : inGroup user g = true
    · -- the user was in the old role's group, which is removed
      rcases List.mem_cons.1 (hbefore hin) with heq | hold
      · exact absurd heq hnew
      · split at hold
        · next hknown =>
          obtain rfl := List.mem_singleton.1 hold
          have hne : old.role ≠ r := fun heq => hnew (heq ▸ rfl)
          simp [hknown, hne]
        · cases hold
    · have hout : inGroup user g = false := Bool.eq_false_iff.2 hin
      simp [hout, hnew]

theorem roles_member_booking {roles : Roles} {old : StaffRow} {b : Option BookingRole} (hb : roles.booking = some b)
    (h : runAll has (rolesCalls roles old) user = some user')
    (hbefore : ∀ g, g.isBooking = true → inGroup user g = true →
      g ∈ (b.toList ++ old.booking.toList).map Group.booking) (hg : g.isBooking = true) :
    inGroup user' g = decide (g ∈ wantedGroups (roles.apply old)) := by
  have hfold := inGroup_runAll h g
  unfold rolesCalls at hfold
  rw [foldl_append, foldl_append, member_about (about_crmCalls roles old) (isBooking_iff hg).2,
    member_about (about_cisCalls roles old) (isBooking_iff hg).1] at hfold
  have hbooking : (roles.apply old).booking = b := by
    unfold Roles.apply
    rw [hb]
    rfl
  obtain ⟨c, rfl⟩ : ∃ c, g = .booking c := by
    cases g with
    | booking c => exact ⟨c, rfl⟩
    | _ => cases hg
  have hwanted : decide (.booking c ∈ wantedGroups (roles.apply old)) = decide (b = some c) :=
    decide_eq_decide.2 (hbooking ▸ booking_mem_wanted)
  rw [hfold, hwanted]
  have hbefore := hbefore _ hg
  have hadds : (b.toList.map fun b => Call.addToGroup (.booking b)) =
      (b.toList.map Group.booking).map Call.addToGroup := by
    rw [map_map]
    rfl
  have hremoves : ((old.booking.toList.filter fun o => b ≠ some o).map
      fun o => Call.removeFromGroup (.booking o)) =
      ((old.booking.toList.filter fun o => b ≠ some o).map Group.booking).map Call.removeFromGroup := by
    rw [map_map]
    rfl
  simp only [bookingCalls, hb]
  rw [hadds, hremoves, foldl_append, member_adds, member_removes]
  by_cases hnew : b = some c
  · subst hnew
    simp
  · by_cases hin : inGroup user (.booking c) = true
    · have hold : old.booking = some c := by
        obtain ⟨c', hc', heq⟩ := List.mem_map.1 (hbefore hin)
        cases heq
        rcases List.mem_append.1 hc' with hc' | hc'
        · exact absurd (Option.mem_toList.1 hc') hnew
        · exact Option.mem_toList.1 hc'
      simp [hold, hnew]
    · have hout : inGroup user (.booking c) = false := Bool.eq_false_iff.2 hin
      simp [hout, hnew]

theorem inPool_step (hs : InPool has s.user) (w : Write) : InPool has (step env has s w).user := by
  unfold step write
  cases w.transact env s with
  | error e => exact hs
  | ok r => exact inPool_runSteps hs

theorem inGroup_within {gs : List Group} (h : Within app gs s)
    (hg : app g = true) (hin : inGroup s.user g = true) : g ∈ gs := by
  obtain ⟨u, hu, hmem⟩ := (Option.any_eq_true _ _).1 hin
  exact h u hu g (of_decide_eq_true hmem) hg

theorem Matches.congr {s' : Account} (h : Matches app s) (hrow : s'.row = s.row)
    (huser : s'.user.isSome) (hsame : ∀ g, inGroup s'.user g = inGroup s.user g) : Matches app s' := by
  have hm := h
  obtain ⟨row, u, hr, hu, -⟩ := h
  refine matches_of_member (hrow.trans hr) huser fun g hg => ?_
  rw [hsame, ← Bool.coe_iff_coe, decide_eq_true_iff]
  exact (matches_iff hr hu).1 hm g hg

theorem noStaleAccess_step (hviewer : has (.cis .viewer) = false) (hs : InPool has s.user)
    (hw : NoLeftovers s w) : NoStaleAccess env has s w := by
  intro hok
  obtain ⟨row, calls, htx, hrow, hrun⟩ := write_ok hok
  cases hop : w.operation with
  | create req username =>
    obtain ⟨hwanted, rfl⟩ := transact_create hop htx
    obtain ⟨huser, hmember⟩ := create_member hviewer hs hrun
    rw [← hwanted] at hmember
    exact ⟨matches_of_member hrow huser fun g hg => hmember g (Or.inl hg),
      matches_of_member hrow huser fun g hg => hmember g (Or.inr (Or.inl hg))⟩
  | changeRoles req =>
    obtain ⟨roles, old, hcheck, hold, rfl, rfl⟩ := transact_roles hop htx
    simp only [NoLeftovers, hop, hold, hcheck] at hw
    simp only [Promise, hcheck]
    have huser : roles.role.isSome → (step env has s w).user.isSome := by
      intro hsome
      obtain ⟨r, hr⟩ := Option.isSome_iff_exists.1 hsome
      unfold rolesCalls at hrun
      simp only [cisCalls, hr, cons_append] at hrun
      obtain ⟨mid, hadd, hrest⟩ := runAll_cons hrun
      exact isSome_runAll hrest (Call.isSome_run hadd (Or.inr (Or.inr ⟨_, rfl⟩)))
    constructor
    · intro hsome
      obtain ⟨r, hr⟩ := Option.isSome_iff_exists.1 hsome
      exact matches_of_member hrow (huser hsome) fun g hg =>
        roles_member_cis hr hrun (fun g' hg' hin => inGroup_within (hw.1 r hr) hg' hin) hg
    · intro hsome hbooking
      obtain ⟨b, hb⟩ := Option.isSome_iff_exists.1 hbooking
      exact matches_of_member hrow (huser hsome) fun g hg =>
        roles_member_booking hb hrun (fun g' hg' hin => inGroup_within (hw.2 hsome b hb) hg' hin) hg
  | sync =>
    obtain ⟨hold, rfl⟩ := transact_sync hop htx
    by_cases hactive : row.isActive = true
    · obtain ⟨⟨u, hu, henabled⟩, hmember⟩ := sync_member hviewer hactive hs hrun
      have huser : (step env has s w).user.isSome := hu ▸ rfl
      have hcis := matches_of_member hrow huser fun g hg => hmember g (Or.inl hg)
      have hbooking := matches_of_member hrow huser fun g hg => hmember g (Or.inr (Or.inl hg))
      have hcrm := matches_of_member hrow huser fun g hg => hmember g (Or.inr (Or.inr hg))
      refine ⟨fun _ => ⟨hcis, hbooking⟩, fun row' u' hrow' hu' => ⟨?_, hcis, hbooking, hcrm⟩⟩
      cases hrow.symm.trans hrow'
      cases hu.symm.trans hu'
      rw [henabled, hactive]
    · have hinactive : row.isActive = false := Bool.eq_false_iff.2 hactive
      unfold syncCalls at hrun
      rw [if_neg hactive] at hrun
      obtain ⟨hdisabled, hsome, hsame⟩ := disable_member hrun
      simp only [NoLeftovers, hop, hold] at hw
      refine ⟨fun h => ?_, fun row' u' hrow' hu' => ?_⟩
      · rw [hold, Option.any_some, hinactive] at h
        cases h
      · cases hrow.symm.trans hrow'
        have huser : (step env has s w).user.isSome := hu' ▸ rfl
        obtain ⟨hcis, hbooking, hcrm⟩ := hw hinactive (hsome ▸ huser)
        have hrow'' := hrow.trans hold.symm
        exact ⟨(hdisabled u' hu').trans hinactive.symm, hcis.congr hrow'' huser hsame,
          hbooking.congr hrow'' huser hsame, hcrm.congr hrow'' huser hsame⟩
  | disable => trivial
  | enable => trivial
  | signOut => trivial

end Writes

/-- In a history whose role changes and syncs of an inactive row meet no leftover groups, an ok answer leaves no
stale access. -/
theorem ok_leaves_no_stale_access (hviewer : has (.cis .viewer) = false) (s : Account) (hs : InPool has s.user)
    (writes : List Write) (h : Along (step env has) NoLeftovers s writes) :
    Along (step env has) (NoStaleAccess env has) s writes := by
  have hinv : Always (step env has) (fun s => InPool has s.user) s writes :=
    Along.always (G := NoLeftovers) (fun s w hs _ => inPool_step hs w) hs h
  exact Along.imp_of_always (fun s w hs hw => noStaleAccess_step hviewer hs hw) hinv h

def plainEnv : Env := ⟨id, none⟩

/-- The pool without `cis-viewer`. -/
def poolGroups (g : Group) : Bool := g ≠ .cis .viewer

def someAdmin : Account :=
  ⟨some ⟨"kim", some "kim@adventure.asia", .admin, true, false, none, []⟩, some ⟨true, {Group.cis .admin}⟩⟩

/-- An owner makes the account a content account; `fault` is what goes wrong with the second call. -/
def toContent (fault : Option Fault) : Write where
  operation := .changeRoles ⟨some .content, none, none, none⟩
  actorOk := true
  isSelf := false
  others := true
  faults i := if i = 1 then fault else none

theorem role_change_leaves_one_group : Along (step plainEnv poolGroups) NoLeftovers someAdmin [toContent none] ∧
      Along (step plainEnv poolGroups) (NoStaleAccess plainEnv poolGroups) someAdmin [toContent none] := by
  have hstart : InPool poolGroups someAdmin.user := by
    intro g hg
    have hadmin : g = .cis .admin := by simpa [inGroup, someAdmin] using hg
    subst hadmin
    decide
  have h : Along (step plainEnv poolGroups) NoLeftovers someAdmin [toContent none] := by
    refine ⟨⟨fun r hr u hu g hg _ => ?_, fun _ b hb => (by cases hb)⟩, trivial⟩
    cases hu
    cases hr
    obtain rfl := Finset.mem_singleton.1 hg
    decide
  exact ⟨h, ok_leaves_no_stale_access plainEnv poolGroups (by decide) someAdmin hstart _ h⟩

/-- The call that removes `cis-admin` fails, and the same request again answers ok and does not make it. -/
theorem stale_admin_group :
    ¬ ∀ writes : List Write, Along (step plainEnv poolGroups) (NoStaleAccess plainEnv poolGroups) someAdmin writes := by
  intro h
  have hrun := h [toContent (some .failed), toContent none]
  have hmatch : Matches Group.isCis (run (step plainEnv poolGroups) someAdmin
      [toContent (some .failed), toContent none]) := (hrun.2.1 (by decide)).1 rfl
  have hstale : inGroup (run (step plainEnv poolGroups) someAdmin
      [toContent (some .failed), toContent none]).user (.cis .admin) = true := by decide
  have hm := hmatch
  obtain ⟨row, u, hrow, hu, -⟩ := hm
  have hcontent : row.role = .content := by
    have hrole : (run (step plainEnv poolGroups) someAdmin
      [toContent (some .failed), toContent none]).row.map (·.role) = some .content := by decide
    rw [hrow] at hrole
    exact Option.some.inj hrole
  have hwanted := ((matches_iff hrow hu).1 hmatch (.cis .admin) rfl).1 hstale
  rw [mem_wanted_cis rfl, hcontent] at hwanted
  cases hwanted

end CisApp.Staff
