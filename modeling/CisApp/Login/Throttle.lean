import CisApp.Lib.Run
import CisApp.Lib.Table

/-! The login throttle in front of the password check (`login_throttle.py`).

A login request runs `check`, compares the password and then calls `record_failure` or
`record_success`.  Each of the three is a pipeline of Redis commands without a transaction: a command
is atomic, and between two commands of one request any other request can run.  So a request is where it
stands in its own pipelines (`Pc`), and one step of the system is one command of one request.

Times are milliseconds of one clock.  The client's socket timeouts give a check two seconds to get its
replies; a check that waits longer is not answered by Redis at all and is not a step here. -/

namespace CisApp.Login

def ipFailLimit : Nat := 20
def ipWindowS : Nat := 300
def ipAttemptLimit : Nat := 100
def failTtlS : Nat := 900
def failThreshold : Nat := 5
def waitBaseS : Nat := 30
def waitMaxS : Nat := 900
def globalFailThreshold : Nat := 50
def globalWaitS : Nat := 300

/-- Two tries of a connect and a read timeout of half a second each. -/
def answerMs : Nat := 2000

/-! ## Redis -/

inductive Key where
  | loginfailIp (scope ip : String)
  | loginrl (scope ip : String) (window : Nat)
  | loginfail (user ip : String)
  | loginwait (user ip : String)
  | loginfailG (user : String)
  | loginwaitG (user : String)
deriving Repr, DecidableEq

structure Entry where
  value : Nat
  expires : Option Nat
  life : Nat
deriving Repr, DecidableEq

structure Redis where
  entries : Table Key Entry
  lives : Nat

def Redis.find (d : Redis) (now : Nat) (k : Key) : Option Entry :=
  (d.entries.get? k).filter fun e => e.expires.all (now < ·)

def Redis.put (d : Redis) (k : Key) (e : Entry) : Redis := { d with entries := d.entries.upsert k e }

/-- A key that was not there. -/
def Redis.create (d : Redis) (k : Key) (value : Nat) (expires : Option Nat) : Redis :=
  { entries := d.entries.upsert k ⟨value, expires, d.lives⟩, lives := d.lives + 1 }

inductive Cmd where
  | get (k : Key)
  | ttl (k : Key)
  | incr (k : Key)
  | expire (k : Key) (seconds : Nat)
  /-- `SET k 0 EX seconds NX` -/
  | setNx (k : Key) (seconds : Nat)
  /-- `SET k 1 EX seconds` -/
  | set (k : Key) (seconds : Nat)
  | del (ks : List Key)
deriving Repr, DecidableEq

/-- The seconds a key has left, rounded; -1 without a TTL and -2 without the key. -/
def Redis.ttl (d : Redis) (now : Nat) (k : Key) : Int :=
  match d.find now k with
  | none => -2
  | some e =>
    match e.expires with
    | none => -1
    | some t => ((t - now + 500) / 1000 : Nat)

/-- One command, with its reply (`none` for nil). -/
def Redis.exec (d : Redis) (now : Nat) : Cmd → Redis × Option Int
  | .get k => (d, (d.find now k).map fun e => (e.value : Int))
  | .ttl k => (d, some (d.ttl now k))
  | .incr k =>
    match d.find now k with
    | some e => (d.put k { e with value := e.value + 1 }, some ((e.value + 1 : Nat) : Int))
    | none => (d.create k 1 none, some 1)
  | .expire k seconds =>
    match d.find now k with
    | some e => (d.put k { e with expires := some (now + seconds * 1000) }, some 1)
    | none => (d, some 0)
  | .setNx k seconds =>
    match d.find now k with
    | some _ => (d, none)
    | none => (d.create k 0 (some (now + seconds * 1000)), some 1)
  | .set k seconds => (d.create k 1 (some (now + seconds * 1000)), some 1)
  | .del ks => ({ d with entries := d.entries.delete fun k _ => k ∈ ks }, some ks.length)

/-! ## A request -/

inductive Reason where
  | ipFail
  | ipRate
  | user
  | userGlobal
deriving Repr, DecidableEq

/-- Where a request stands; a pipeline is the replies it has so far. -/
inductive Pc where
  | checking (replies : List (Option Int))
  | verifying
  | recording (replies : List (Option Int))
  | waiting (cmds : List Cmd)
  | clearing
  | failed
  | signedIn
  | throttled (reason : Reason) (retryAfter : Int)
deriving Repr, DecidableEq

structure Req where
  scope : String
  ip : String
  /-- `username_key(username)`, when a username is given. -/
  user : Option String
  startedAt : Nat
  pc : Pc
  /-- The life of the `loginfail_ip` key its failure was counted in. -/
  failedIn : Option Nat := none
deriving Repr, DecidableEq

namespace Req

/-- `int(now // LOGIN_IP_WINDOW_S)` -/
def window (r : Req) : Nat := r.startedAt / (ipWindowS * 1000)

def failIpKey (r : Req) : Key := .loginfailIp r.scope r.ip
def rateKey (r : Req) : Key := .loginrl r.scope r.ip r.window

/-- The pipeline of `check`. -/
def checkCmds (r : Req) : List Cmd :=
  [.get r.failIpKey, .ttl r.failIpKey, .incr r.rateKey, .expire r.rateKey (ipWindowS * 2)] ++
    match r.user with
    | some h => [.ttl (.loginwait h r.ip), .ttl (.loginwaitG h)]
    | none => []

/-- The first pipeline of `record_failure`. -/
def failCmds (r : Req) : List Cmd :=
  [.setNx r.failIpKey failTtlS, .incr r.failIpKey] ++
    match r.user with
    | some h =>
      [.setNx (.loginfail h r.ip) failTtlS, .incr (.loginfail h r.ip),
        .setNx (.loginfailG h) failTtlS, .incr (.loginfailG h)]
    | none => []

end Req

def backoffSeconds (failures : Nat) : Nat := min (waitBaseS * 2 ^ (failures - failThreshold)) waitMaxS

def asInt (replies : List (Option Int)) (i : Nat) : Option Int := replies[i]?.join

namespace Req

/-- The second pipeline of `record_failure`. -/
def waitCmds (r : Req) (replies : List (Option Int)) : List Cmd :=
  match r.user with
  | none => []
  | some h =>
    (match asInt replies 3 with
      | some n => if (failThreshold : Int) ≤ n then [.set (.loginwait h r.ip) (backoffSeconds n.toNat)] else []
      | none => []) ++
    match asInt replies 5 with
    | some n => if (globalFailThreshold : Int) ≤ n then [.set (.loginwaitG h) globalWaitS] else []
    | none => []

/-- The limit that `check` finds reached, with its wait. -/
def refusal (r : Req) (replies : List (Option Int)) : Option (Reason × Int) :=
  if (asInt replies 0).any ((ipFailLimit : Int) ≤ ·) then
    let ttl := (asInt replies 1).getD 0
    some (.ipFail, if 0 < ttl then ttl else failTtlS)
  else if (asInt replies 2).any ((ipAttemptLimit : Int) < ·) then
    some (.ipRate, (((r.window + 1) * ipWindowS * 1000 - r.startedAt) / 1000 + 1 : Nat))
  else if r.user.isSome && (asInt replies 4).any (0 < ·) then some (.user, (asInt replies 4).getD 0)
  else if r.user.isSome && (asInt replies 5).any (0 < ·) then some (.userGlobal, (asInt replies 5).getD 0)
  else none

/-- The next Redis command of the request, and where it stands after the reply. -/
def next (r : Req) (now : Nat) : Option (Cmd × (Option Int → Pc)) :=
  match r.pc with
  | .checking replies =>
    if now < r.startedAt + answerMs then
      r.checkCmds[replies.length]?.map fun c => (c, fun x => .checking (replies ++ [x]))
    else none
  | .recording replies => r.failCmds[replies.length]?.map fun c => (c, fun x => .recording (replies ++ [x]))
  | .waiting (c :: cmds) => some (c, fun _ => .waiting cmds)
  | .clearing => r.user.map fun h => (.del [.loginfail h r.ip, .loginwait h r.ip], fun _ => .signedIn)
  | _ => none

/-- A pipeline has all its replies. -/
def answered (r : Req) : Pc :=
  match r.pc with
  | .checking replies =>
    if replies.length = r.checkCmds.length then
      match r.refusal replies with
      | some (reason, wait) => .throttled reason (max 1 wait)
      | none => .verifying
    else r.pc
  | .recording replies =>
    if replies.length = r.failCmds.length then .waiting (r.waitCmds replies) else r.pc
  | .waiting [] => .failed
  | _ => r.pc

/-- The password compare is done. -/
def compared (r : Req) (ok : Bool) : Pc :=
  match r.pc with
  | .verifying => if ok then (if r.user.isSome then .clearing else .signedIn) else .recording []
  | _ => r.pc

end Req

/-! ## The system -/

structure State where
  now : Nat
  redis : Redis
  reqs : Table Nat Req

def State.init : State := ⟨0, ⟨Table.empty, 0⟩, Table.empty⟩

inductive Act where
  | tick (ms : Nat)
  | arrive (id : Nat) (scope ip : String) (user : Option String)
  | redis (id : Nat)
  | answer (id : Nat)
  | verify (id : Nat) (ok : Bool)
deriving Repr, DecidableEq

/-- The life a failure is counted in. -/
def countedIn (d : Redis) (r : Req) : Cmd → Option Nat
  | .incr k => if k = r.failIpKey then (d.entries.get? k).map Entry.life else r.failedIn
  | _ => r.failedIn

/-- A command of the request with this id. -/
def State.redisStep (s : State) (id : Nat) (r : Req) : State :=
  match r.next s.now with
  | none => s
  | some (c, after) =>
    let (d, x) := s.redis.exec s.now c
    { s with redis := d, reqs := s.reqs.upsert id { r with pc := after x, failedIn := countedIn d r c } }

def State.step (s : State) : Act → State
  | .tick ms => { s with now := s.now + ms }
  | .arrive id scope ip user =>
    if (s.reqs.get? id).isSome then s
    else { s with reqs := s.reqs.upsert id { scope, ip, user, startedAt := s.now, pc := .checking [] } }
  | .redis id =>
    match s.reqs.get? id with
    | none => s
    | some r => s.redisStep id r
  | .answer id =>
    match s.reqs.get? id with
    | none => s
    | some r => { s with reqs := s.reqs.upsert id { r with pc := r.answered } }
  | .verify id ok =>
    match s.reqs.get? id with
    | none => s
    | some r => { s with reqs := s.reqs.upsert id { r with pc := r.compared ok } }

/-! ## What is bounded -/

/-- The request got past `check`. -/
def Req.past (r : Req) : Bool :=
  match r.pc with
  | .checking _ => false
  | .throttled _ _ => false
  | _ => true

/-- The requests of a window that got past `check`. -/
def State.passed (s : State) (scope ip : String) (window : Nat) : Nat :=
  s.reqs.count fun _ r => r.scope = scope && r.ip = ip && r.window = window && r.past

/-- The failed logins counted in one life of the IP's `loginfail_ip` key. -/
def State.failures (s : State) (scope ip : String) (life : Nat) : Nat :=
  s.reqs.count fun _ r => r.scope = scope && r.ip = ip && r.failedIn == some life

/-- The login has read a failure count below the limit and has not been counted or let in. -/
def Req.inFlight (r : Req) : Bool :=
  match r.pc with
  | .checking (x :: _) => !x.any ((ipFailLimit : Int) ≤ ·)
  | .verifying => true
  | .recording replies => replies.length < 2
  | _ => false

def State.inFlight (s : State) (scope ip : String) : Nat :=
  s.reqs.count fun _ r => r.scope = scope && r.ip = ip && r.inFlight

def State.failCount (s : State) (scope ip : String) : Nat :=
  ((s.redis.find s.now (.loginfailIp scope ip)).map Entry.value).getD 0

end CisApp.Login
