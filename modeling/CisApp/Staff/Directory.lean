import CisApp.Lib.Run
import CisApp.Lib.Text

/-! The staff directory writer (`api/services/staff_directory.py`): accounts, requests and what is refused.

A row here is one of `shared.admin_users` with the account's Booking grant (`shared.staff_app_grant`) and CRM roles
(`shared.staff_crm_grant`).  `shared.staff_crm_grant` exists. -/

namespace CisApp.Staff

open Lib

/-- `shared.admin_role`. -/
inductive Role where
  | admin
  | contentLead
  | content
  | tenantQa
  | customerSuccess
  | support
  | finance
  | aiOps
  | viewer
deriving Repr, DecidableEq

inductive BookingRole where
  | admin
  | sales
  | contracting
  | contentCreator
  | finance
deriving Repr, DecidableEq

inductive CrmRole where
  | platformAdmin
  | ops
  | support
deriving Repr, DecidableEq

/-- `CIS_ROLES`: the roles that the directory gives. -/
def cisRoles : List Role :=
  [.admin, .contentLead, .content, .tenantQa, .customerSuccess, .support, .finance, .aiOps]

def bookingRoles : List BookingRole := [.admin, .sales, .contracting, .contentCreator, .finance]

def crmRoles : List CrmRole := [.platformAdmin, .ops, .support]

structure StaffRow where
  username : String
  email : Option String
  role : Role
  isActive : Bool
  isOwner : Bool
  booking : Option BookingRole
  crm : List CrmRole
deriving Repr, DecidableEq

/-- The code of a `StaffDirectoryError`. -/
inductive Refusal where
  | notOwner
  | notFound
  | breakglass
  | cisRole
  | preset
  | presetConflict
  | empty
  | e2eTestScope
  | e2eNotAllowedHere
  | selfDemote
  | selfDisable
  | lastOwner
  | alreadyExists
  | conflict
deriving Repr, DecidableEq

/-- `str.lower` and the API's `ENVIRONMENT`. -/
structure Env where
  lower : Text → Text
  environment : Option String

variable (env : Env)

/-! ## Checks -/

def normaliseEmail (email : Option String) : String := String.ofList (env.lower (strip (email.getD "").toList))

structure E2eAccount where
  email : String
  role : Role
  devOnly : Bool

/-- `_E2E_TEST_STAFF_ROLES` and `_DEV_ONLY_E2E_EMAILS`. -/
def e2eAccounts : List E2eAccount :=
  [⟨"e2e@e2e-mail.lumiguides.it.com", .content, false⟩,
   ⟨"e2e-cis-admin@e2e-mail.lumiguides.it.com", .admin, true⟩,
   ⟨"e2e-cis-cs@e2e-mail.lumiguides.it.com", .customerSuccess, true⟩]

def e2eAccount? (email : Option String) : Option E2eAccount :=
  e2eAccounts.find? fun a => a.email = normaliseEmail env email

/-- `require_e2e_test_scope` passes. -/
def inE2eScope (email : Option String) (role : Role) (booking : Option BookingRole) (crm : List CrmRole) : Bool :=
  match e2eAccount? env email with
  | none => true
  | some a => role = a.role && booking.isNone && crm.isEmpty

/-- `require_dev_only_e2e_environment` passes. -/
def allowedHere (email : Option String) : Bool :=
  match e2eAccount? env email with
  | none => true
  | some a => !a.devOnly || env.environment = some "dev"

def breakglassUsernames : List String := ["admin"]

def breakglassEmails : List String := ["admin@adventure.asia", "breakglass@adventure.asia"]

def isBreakglass (username : String) (email : Option String) : Bool :=
  String.ofList (env.lower (strip username.toList)) ∈ breakglassUsernames ||
    normaliseEmail env email ∈ breakglassEmails

def StaffRow.breakglass (row : StaffRow) : Bool := isBreakglass env row.username row.email

/-- `require_crm_roles`: each once, in the order of `CRM_ROLES`. -/
def requireCrmRoles (roles : List CrmRole) : List CrmRole := crmRoles.filter fun r => r ∈ roles

/-! ## Requests -/

/-- The body of a roles request: what it leaves out is `none`. -/
structure RolesRequest where
  role : Option Role
  booking : Option (Option BookingRole)
  crm : Option (List CrmRole)
  preset : Option String
deriving Repr, DecidableEq

/-- The checked request of `change_roles`. -/
structure Roles where
  role : Option Role
  booking : Option (Option BookingRole)
  crm : Option (List CrmRole)
  preset : Bool
deriving Repr, DecidableEq

def presetPlatformOwner : String := "platform_owner"

/-- `change_roles` before its transaction. -/
def RolesRequest.check (req : RolesRequest) : Except Refusal Roles :=
  match req.preset with
  | some preset =>
    if preset ≠ presetPlatformOwner then .error .preset
    else if req.role.isSome || req.booking.isSome || req.crm.isSome then .error .presetConflict
    else .ok ⟨some .admin, some (some .admin), none, true⟩
  | none =>
    if req.role.isNone && req.booking.isNone && req.crm.isNone then .error .empty
    else if req.role.any (· ∉ cisRoles) then .error .cisRole
    else .ok ⟨req.role, req.booking, req.crm.map requireCrmRoles, false⟩

def Roles.newCrm (roles : Roles) (row : StaffRow) : List CrmRole :=
  if roles.preset then requireCrmRoles (.platformAdmin :: row.crm) else roles.crm.getD row.crm

def Roles.apply (roles : Roles) (row : StaffRow) : StaffRow :=
  { row with
    role := roles.role.getD row.role
    booking := roles.booking.getD row.booking
    crm := roles.newCrm row }

/-- The CIS role changes to one that is not `admin`. -/
def Roles.demotes (roles : Roles) (row : StaffRow) : Bool :=
  roles.role.any fun r => r ≠ row.role && r ≠ .admin

/-- What `_guard_last_owner` looks at first: the target is an active owner. -/
def StaffRow.activeOwner (row : StaffRow) : Bool := row.isOwner && row.isActive && row.role = .admin

structure CreateRequest where
  email : String
  role : Role
  booking : Option BookingRole
  crm : List CrmRole
deriving Repr, DecidableEq

/-- The row that a create inserts, and that an existing one is compared with. -/
def CreateRequest.row (req : CreateRequest) (username : String) : StaffRow :=
  ⟨username, some req.email, req.role, true, false, req.booking, requireCrmRoles req.crm⟩

/-- `create_staff` before its transaction; `email` has gone through `require_staff_email`. -/
def CreateRequest.check (req : CreateRequest) : Except Refusal Unit :=
  if req.role ∉ cisRoles then .error .cisRole
  else if !inE2eScope env (some req.email) req.role req.booking (requireCrmRoles req.crm) then .error .e2eTestScope
  else if !allowedHere env (some req.email) then .error .e2eNotAllowedHere
  else if req.email ∈ breakglassEmails then .error .breakglass
  else .ok ()

/-- A create of an address that has a row: a retry, or refused. -/
def CreateRequest.checkExisting (req : CreateRequest) (row : StaffRow) : Except Refusal Unit :=
  if row.breakglass env then .error .breakglass
  else if !row.isActive || row.role ≠ req.role || row.booking ≠ req.booking ||
      requireCrmRoles row.crm ≠ requireCrmRoles req.crm then
    .error .alreadyExists
  else .ok ()

/-- The checks of `change_roles` on its target, up to the guard of the last owner. -/
def Roles.check (roles : Roles) (isSelf : Bool) (row : StaffRow) : Except Refusal Unit :=
  if !inE2eScope env row.email (roles.apply row).role (roles.apply row).booking (roles.apply row).crm then
    .error .e2eTestScope
  else if !allowedHere env row.email then .error .e2eNotAllowedHere
  else if roles.demotes row && isSelf then .error .selfDemote
  else .ok ()

end CisApp.Staff
