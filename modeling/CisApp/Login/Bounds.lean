import CisApp.Login.Throttle

/-! How many logins the throttle lets through.

The attempt counter is incremented before the answer, so every request of a window gets a number of its
own and at most `LOGIN_IP_ATTEMPT_LIMIT` of them get one within the limit (`RateInv`): the window's key
cannot expire while a check of the window can still be answered.

The failure counter is read before the password compare and written after it.  What bounds the failures
of one life of the key is the count together with the logins in flight (`FailInv`), and a check looks at
the count alone: the bound holds in every run in which no check reads a count below the limit that the
logins in flight could still fill (`Room`). -/

namespace CisApp.Login

open List Option

/-! ## Commands and the keys they write -/

def Cmd.writes : Cmd → List Key
  | .get _ => []
  | .ttl _ => []
  | .incr k => [k]
  | .expire k _ => [k]
  | .setNx k _ => [k]
  | .set k _ => [k]
  | .del ks => ks

def Key.perUser : Key → Bool
  | .loginfailIp _ _ => false
  | .loginrl _ _ _ => false
  | _ => true

def Cmd.perUser (c : Cmd) : Bool := c.writes.all Key.perUser

variable {now : Nat} {c : Cmd} {k : Key}

theorem Redis.exec_of_notMem {d : Redis} (h : k ∉ c.writes) : (d.exec now c).1.entries.get? k = d.entries.get? k := by
  cases c with
  | get _ => rfl
  | ttl _ => rfl
  | incr k' =>
    have hne : k ≠ k' := fun heq => h (mem_singleton.2 heq)
    unfold Redis.exec
    dsimp only
    split <;> simp [Redis.put, Redis.create, hne]
  | expire k' _ =>
    have hne : k ≠ k' := fun heq => h (mem_singleton.2 heq)
    unfold Redis.exec
    dsimp only
    split <;> simp [Redis.put, hne]
  | setNx k' _ =>
    have hne : k ≠ k' := fun heq => h (mem_singleton.2 heq)
    unfold Redis.exec
    dsimp only
    split <;> simp [Redis.create, hne]
  | set k' _ =>
    have hne : k ≠ k' := fun heq => h (mem_singleton.2 heq)
    simp [Redis.exec, Redis.create, hne]
  | del ks =>
    have hnot : k ∉ ks := h
    show (d.entries.delete fun k _ => k ∈ ks).get? k = d.entries.get? k
    rw [Table.get?_delete]
    cases d.entries.get? k <;> simp [hnot]

theorem Redis.lives_exec (d : Redis) (now : Nat) (c : Cmd) : d.lives ≤ (d.exec now c).1.lives := by
  cases c with
  | get _ => exact Nat.le_refl _
  | ttl _ => exact Nat.le_refl _
  | incr k =>
    unfold Redis.exec
    dsimp only
    split
    · exact Nat.le_refl _
    · exact Nat.le_succ _
  | expire k _ =>
    unfold Redis.exec
    dsimp only
    split <;> exact Nat.le_refl _
  | setNx k _ =>
    unfold Redis.exec
    dsimp only
    split
    · exact Nat.le_refl _
    · exact Nat.le_succ _
  | set k _ => exact Nat.le_succ _
  | del _ => exact Nat.le_refl _

theorem Redis.find_eq_some {d : Redis} {e : Entry} (h : d.find now k = some e) :
    d.entries.get? k = some e ∧ ∀ t, e.expires = some t → now < t := by
  obtain ⟨hget, hlive⟩ := filter_eq_some_iff.1 h
  refine ⟨hget, ?_⟩
  intro t ht
  simpa [ht] using hlive

theorem Redis.find_of_live {d : Redis} {e : Entry} (h : d.entries.get? k = some e)
    (hlive : ∀ t, e.expires = some t → now < t) : d.find now k = some e := by
  refine filter_eq_some_iff.2 ⟨h, ?_⟩
  cases ht : e.expires with
  | none => rfl
  | some t => simpa using hlive t ht

/-! ## What a request sends -/

theorem Req.checkCmds_cases {r : Req} {i : Nat} (h : r.checkCmds[i]? = some c) :
    i = 0 ∧ c = .get r.failIpKey ∨ i = 1 ∧ c = .ttl r.failIpKey ∨ i = 2 ∧ c = .incr r.rateKey ∨
      i = 3 ∧ c = .expire r.rateKey (ipWindowS * 2) ∨ 4 ≤ i ∧ c.writes = [] := by
  unfold Req.checkCmds at h
  rcases i with _ | _ | _ | _ | i
  · exact Or.inl ⟨rfl, (Option.some.inj h).symm⟩
  · exact Or.inr (Or.inl ⟨rfl, (Option.some.inj h).symm⟩)
  · exact Or.inr (Or.inr (Or.inl ⟨rfl, (Option.some.inj h).symm⟩))
  · exact Or.inr (Or.inr (Or.inr (Or.inl ⟨rfl, (Option.some.inj h).symm⟩)))
  · refine Or.inr (Or.inr (Or.inr (Or.inr ⟨Nat.le_add_left 4 i, ?_⟩)))
    -- the last two commands, of a request with a user, are reads
    cases hu : r.user with
    | none =>
      rw [hu] at h
      cases mem_of_getElem? (show ([] : List Cmd)[i]? = some c from h)
    | some u =>
      rw [hu] at h
      have hmem := mem_of_getElem?
        (show [Cmd.ttl (.loginwait u r.ip), Cmd.ttl (.loginwaitG u)][i]? = some c from h)
      simp only [mem_cons, not_mem_nil, or_false] at hmem
      rcases hmem with rfl | rfl <;> rfl

theorem Req.failCmds_cases {r : Req} {i : Nat} (h : r.failCmds[i]? = some c) :
    i = 0 ∧ c = .setNx r.failIpKey failTtlS ∨ i = 1 ∧ c = .incr r.failIpKey ∨ 2 ≤ i ∧ c.perUser = true := by
  unfold Req.failCmds at h
  rcases i with _ | _ | i
  · exact Or.inl ⟨rfl, (Option.some.inj h).symm⟩
  · exact Or.inr (Or.inl ⟨rfl, (Option.some.inj h).symm⟩)
  · refine Or.inr (Or.inr ⟨Nat.le_add_left 2 i, ?_⟩)
    cases hu : r.user with
    | none =>
      rw [hu] at h
      cases mem_of_getElem? (show ([] : List Cmd)[i]? = some c from h)
    | some u =>
      rw [hu] at h
      have hmem := mem_of_getElem? (show [Cmd.setNx (.loginfail u r.ip) failTtlS,
        Cmd.incr (.loginfail u r.ip), Cmd.setNx (.loginfailG u) failTtlS,
        Cmd.incr (.loginfailG u)][i]? = some c from h)
      simp only [mem_cons, not_mem_nil, or_false] at hmem
      rcases hmem with rfl | rfl | rfl | rfl <;> rfl

variable {replies : List (Option Int)}

theorem Req.waitCmds_perUser {r : Req} : ∀ c ∈ r.waitCmds replies, c.perUser = true := by
  intro c hc
  unfold Req.waitCmds at hc
  split at hc
  · cases hc
  · rcases mem_append.1 hc with hc | hc
    · split at hc
      · split at hc
        · rw [mem_singleton.1 hc]
          rfl
        · cases hc
      · cases hc
    · split at hc
      · split at hc
        · rw [mem_singleton.1 hc]
          rfl
        · cases hc
      · cases hc

/-- A command of the request, by the pipeline it belongs to. -/
inductive Req.Sends (r : Req) (now : Nat) : Cmd → (Option Int → Pc) → Prop where
  | check {replies : List (Option Int)} {c : Cmd} (hpc : r.pc = .checking replies)
    (hnow : now < r.startedAt + answerMs) (hc : r.checkCmds[replies.length]? = some c) :
    Sends r now c fun x => .checking (replies ++ [x])
  | record {replies : List (Option Int)} {c : Cmd} (hpc : r.pc = .recording replies)
    (hc : r.failCmds[replies.length]? = some c) : Sends r now c fun x => .recording (replies ++ [x])
  | wait {c : Cmd} {cmds : List Cmd} (hpc : r.pc = .waiting (c :: cmds)) :
    Sends r now c fun _ => .waiting cmds
  | clear {u : String} (hpc : r.pc = .clearing) (hu : r.user = some u) :
    Sends r now (.del [.loginfail u r.ip, .loginwait u r.ip]) fun _ => .signedIn

variable {after : Option Int → Pc}

theorem Req.next_sends {r : Req} (h : r.next now = some (c, after)) : r.Sends now c after := by
  unfold Req.next at h
  split at h
  · next replies hpc =>
    split at h
    · next hnow =>
      obtain ⟨c', hc', heq⟩ := map_eq_some_iff.1 h
      cases heq
      exact .check hpc hnow hc'
    · cases h
  · next replies hpc =>
    obtain ⟨c', hc', heq⟩ := map_eq_some_iff.1 h
    cases heq
    exact .record hpc hc'
  · next c' cmds hpc =>
    cases h
    exact .wait hpc
  · next hpc =>
    obtain ⟨u, hu, heq⟩ := map_eq_some_iff.1 h
    cases heq
    exact .clear hpc hu
  · cases h

/-! ## One step -/

/-- A request as it can stand at a time. -/
structure Req.Ok (r : Req) (now : Nat) : Prop where
  started : r.startedAt ≤ now
  counted : ∀ replies, r.pc = .checking replies → ∀ x, replies[2]? = some x → x.isSome = true
  waits : ∀ cmds, r.pc = .waiting cmds → ∀ c ∈ cmds, c.perUser = true

/-- What a step can do: time, a new request, a command, or a move of one request without one. -/
inductive State.Moves (s : State) : Act → State → Prop where
  | stay {a : Act} : Moves s a s
  | tick {ms : Nat} : Moves s (.tick ms) { s with now := s.now + ms }
  | arrive {id : Nat} {scope ip : String} {user : Option String} (hnew : s.reqs.get? id = none) :
    Moves s (.arrive id scope ip user)
      { s with reqs := s.reqs.upsert id { scope, ip, user, startedAt := s.now, pc := .checking [] } }
  | send {id : Nat} {r : Req} {c : Cmd} {after : Option Int → Pc} (hr : s.reqs.get? id = some r)
    (hsend : r.Sends s.now c after) :
    Moves s (.redis id)
      { s with
        redis := (s.redis.exec s.now c).1
        reqs := s.reqs.upsert id { r with
          pc := after (s.redis.exec s.now c).2
          failedIn := countedIn (s.redis.exec s.now c).1 r c } }
  | answer {id : Nat} {r : Req} (hr : s.reqs.get? id = some r) :
    Moves s (.answer id) { s with reqs := s.reqs.upsert id { r with pc := r.answered } }
  | verify {id : Nat} {r : Req} {ok : Bool} (hr : s.reqs.get? id = some r) :
    Moves s (.verify id ok) { s with reqs := s.reqs.upsert id { r with pc := r.compared ok } }

theorem State.step_moves (s : State) (a : Act) : s.Moves a (s.step a) := by
  cases a with
  | tick ms => exact .tick
  | arrive id scope ip user =>
    show s.Moves _ (if _ then _ else _)
    split
    · exact .stay
    · next h => exact .arrive (by simpa using h)
  | redis id =>
    unfold State.step
    dsimp only
    split
    · exact .stay
    · next r hr =>
      unfold State.redisStep
      split
      · exact .stay
      · next c after hnext => exact .send hr (Req.next_sends hnext)
  | answer id =>
    unfold State.step
    dsimp only
    split
    · exact .stay
    · next r hr => exact .answer hr
  | verify id ok =>
    unfold State.step
    dsimp only
    split
    · exact .stay
    · next r hr => exact .verify hr

/-! ## Attempts -/

/-- The request got past `check`, or has an attempt number within the limit. -/
def Req.may (r : Req) : Bool :=
  match r.pc with
  | .checking replies => (asInt replies 2).any (· ≤ (ipAttemptLimit : Int))
  | .throttled _ _ => false
  | _ => true

def State.may (s : State) (scope ip : String) (window : Nat) : Nat :=
  s.reqs.count fun _ r => r.scope = scope && r.ip = ip && r.window = window && r.may

def Redis.stored (d : Redis) (k : Key) : Nat := ((d.entries.get? k).map Entry.value).getD 0

structure RateInv (s : State) : Prop where
  ok : ∀ id r, s.reqs.get? id = some r → r.Ok s.now
  counted : ∀ scope ip w, s.may scope ip w ≤ s.redis.stored (.loginrl scope ip w)
  limit : ∀ scope ip w, s.may scope ip w ≤ ipAttemptLimit
  lasting : ∀ scope ip w e, s.redis.entries.get? (.loginrl scope ip w) = some e →
    ∀ t, e.expires = some t → (w + 2) * (ipWindowS * 1000) ≤ t

theorem Req.Ok.mono {r : Req} {now' : Nat} (h : r.Ok now) (hle : now ≤ now') : r.Ok now' :=
  ⟨h.started.trans hle, h.counted, h.waits⟩

theorem asInt_append_of_ne {i : Nat} (x : Option Int)
    (h : replies.length ≠ i) : asInt (replies ++ [x]) i = asInt replies i := by
  unfold asInt
  by_cases hlt : i < replies.length
  · rw [List.getElem?_append_left hlt]
  · have hle : replies.length + 1 ≤ i := by omega
    rw [List.getElem?_eq_none (by simpa using hle), List.getElem?_eq_none (by omega)]

theorem asInt_append_self (replies : List (Option Int)) (x : Option Int) : asInt (replies ++ [x]) replies.length = x := by
  simp [asInt]

theorem Req.Sends.ok {r : Req} (h : r.Sends now c after)
    (hr : r.Ok now) (d : Redis) (life : Option Nat) :
    ({ r with pc := after (d.exec now c).2, failedIn := life } : Req).Ok now := by
  refine ⟨hr.started, ?_, ?_⟩
  · intro replies' hpc x hx
    cases h with
    | @check replies c hpc' hnow hc =>
      cases hpc
      by_cases hlen : replies.length = 2
      · rcases Req.checkCmds_cases hc with ⟨h0, -⟩ | ⟨h1, -⟩ | ⟨-, rfl⟩ | ⟨h3, -⟩ | ⟨h4, -⟩
        · omega
        · omega
        · rw [List.getElem?_append_right (by omega), hlen] at hx
          cases hx
          unfold Redis.exec
          dsimp only
          split <;> rfl
        · omega
        · omega
      · refine hr.counted replies hpc' x ?_
        by_cases hlt : 2 < replies.length
        · rwa [List.getElem?_append_left hlt] at hx
        · rw [List.getElem?_eq_none (by simp; omega)] at hx
          cases hx
    | record _ _ => cases hpc
    | wait _ => cases hpc
    | clear _ _ => cases hpc
  · intro cmds hpc c' hc'
    cases h with
    | check _ _ _ => cases hpc
    | record _ _ => cases hpc
    | @wait c cmds' hpc' =>
      cases hpc
      exact hr.waits _ hpc' c' (mem_cons_of_mem _ hc')
    | clear _ _ => cases hpc

theorem Req.ok_answered {r : Req} (hr : r.Ok now) : ({ r with pc := r.answered } : Req).Ok now := by
  refine ⟨hr.started, ?_, ?_⟩
  · intro replies' hpc
    refine hr.counted replies' ?_
    unfold Req.answered at hpc
    split at hpc
    · split at hpc
      · split at hpc <;> cases hpc
      · exact hpc
    · split at hpc
      · cases hpc
      · exact hpc
    · cases hpc
    · exact hpc
  · intro cmds hpc c hc
    unfold Req.answered at hpc
    split at hpc
    · split at hpc
      · split at hpc <;> cases hpc
      · exact hr.waits cmds hpc c hc
    · split at hpc
      · cases hpc
        exact Req.waitCmds_perUser c hc
      · exact hr.waits cmds hpc c hc
    · cases hpc
    · exact hr.waits cmds hpc c hc

theorem Req.compared_cases (r : Req) (ok : Bool) : r.compared ok = r.pc ∨ r.pc = .verifying ∧
    (r.compared ok = .clearing ∨ r.compared ok = .signedIn ∨ r.compared ok = .recording []) := by
  unfold Req.compared
  split
  · next hpc =>
    refine Or.inr ⟨hpc, ?_⟩
    split
    · split
      · exact Or.inl rfl
      · exact Or.inr (Or.inl rfl)
    · exact Or.inr (Or.inr rfl)
  · exact Or.inl rfl

theorem Req.ok_compared {r : Req} (hr : r.Ok now) (ok : Bool) :
    ({ r with pc := r.compared ok } : Req).Ok now := by
  rcases r.compared_cases ok with heq | ⟨-, heq | heq | heq⟩ <;> rw [heq]
  · exact hr
  · exact ⟨hr.started, nofun, nofun⟩
  · exact ⟨hr.started, nofun, nofun⟩
  · exact ⟨hr.started, nofun, nofun⟩

theorem State.Moves.ok {s s' : State} {a : Act} (h : s.Moves a s')
    (hok : ∀ id r, s.reqs.get? id = some r → r.Ok s.now) : ∀ id r, s'.reqs.get? id = some r → r.Ok s'.now := by
  intro id' r' hr'
  have hother : ∀ {id : Nat} {new : Req}, (s.reqs.upsert id new).get? id' = some r' → new.Ok s.now →
      r'.Ok s.now := by
    intro id new hget hnew
    rw [Table.get?_upsert] at hget
    split at hget
    · cases hget
      exact hnew
    · exact hok id' r' hget
  cases h with
  | stay => exact hok id' r' hr'
  | tick => exact (hok id' r' hr').mono (Nat.le_add_right _ _)
  | arrive _ =>
    refine hother hr' ⟨Nat.le_refl _, ?_, ?_⟩
    · intro replies hpc x hx
      cases hpc
      cases hx
    · intro cmds hpc
      cases hpc
  | send hr hsend => exact hother hr' (hsend.ok (hok _ _ hr) _ _)
  | answer hr => exact hother hr' (Req.ok_answered (hok _ _ hr))
  | verify hr => exact hother hr' (Req.ok_compared (hok _ _ hr) _)

theorem Req.may_answered {r : Req} (hr : r.Ok now)
    (h : ({ r with pc := r.answered } : Req).may = true) : r.may = true := by
  have hcases : r.answered = r.pc ∨ (∃ reason wait, r.answered = .throttled reason wait) ∨
      (∃ replies, r.pc = .checking replies ∧ replies.length = r.checkCmds.length ∧
        r.refusal replies = none) ∨ (∃ replies, r.pc = .recording replies) ∨ r.pc = .waiting [] := by
    unfold Req.answered
    split
    · next replies hpc =>
      split
      · next hlen =>
        split
        · exact Or.inr (Or.inl ⟨_, _, rfl⟩)
        · next hno => exact Or.inr (Or.inr (Or.inl ⟨replies, hpc, hlen, hno⟩))
      · exact Or.inl rfl
    · next replies hpc => exact Or.inr (Or.inr (Or.inr (Or.inl ⟨replies, hpc⟩)))
    · next hpc => exact Or.inr (Or.inr (Or.inr (Or.inr hpc)))
    · exact Or.inl rfl
  rcases hcases with heq | ⟨reason, wait, heq⟩ | ⟨replies, hpc, hlen, hno⟩ | ⟨replies, hpc⟩ | hpc
  · rwa [heq] at h
  · rw [heq] at h
    cases h
  · -- all replies are there, the third one with the number the limit was compared with
    have hlt : 2 < replies.length := by
      rw [hlen, Req.checkCmds, length_append]
      simp
      omega
    obtain ⟨x, hx⟩ : ∃ x, replies[2]? = some x := ⟨_, List.getElem?_eq_getElem hlt⟩
    obtain ⟨n, rfl⟩ := isSome_iff_exists.1 (hr.counted replies hpc x hx)
    have hn : asInt replies 2 = some n := by
      unfold asInt
      rw [hx]
      rfl
    unfold Req.refusal at hno
    split at hno
    · cases hno
    · split at hno
      · cases hno
      · next hle =>
        rw [Req.may, hpc]
        dsimp only
        rw [hn, any_some, decide_eq_true_eq]
        rw [hn, any_some, decide_eq_true_eq] at hle
        omega
  · rw [Req.may, hpc]
  · rw [Req.may, hpc]

theorem Req.may_compared {r : Req} {ok : Bool} (h : ({ r with pc := r.compared ok } : Req).may = true) :
    r.may = true := by
  rcases r.compared_cases ok with heq | ⟨hpc, -⟩
  · rwa [heq] at h
  · rw [Req.may, hpc]

theorem Req.Sends.may_eq {r : Req} (h : r.Sends now c after)
    (hc : c ≠ .incr r.rateKey) (x : Option Int) (life : Option Nat) :
    ({ r with pc := after x, failedIn := life } : Req).may = r.may := by
  cases h with
  | @check replies c hpc hnow hcmd =>
    have hlen : replies.length ≠ 2 := by
      intro hlen
      rcases Req.checkCmds_cases hcmd with ⟨h0, -⟩ | ⟨h1, -⟩ | ⟨-, heq⟩ | ⟨h3, -⟩ | ⟨h4, -⟩
      · omega
      · omega
      · exact hc heq
      · omega
      · omega
    simp only [Req.may, hpc, asInt_append_of_ne x hlen]
  | record hpc _ => simp only [Req.may, hpc]
  | wait hpc => simp only [Req.may, hpc]
  | clear hpc _ => simp only [Req.may, hpc]

theorem notMem_writes_of_perUser (h : c.perUser = true) (hk : k.perUser = false) : k ∉ c.writes := by
  intro hmem
  have := List.all_eq_true.1 h k hmem
  rw [hk] at this
  cases this

theorem Req.Sends.rate {r : Req} (h : r.Sends now c after)
    (hr : r.Ok now) {scope ip : String} {w : Nat} (hw : Key.loginrl scope ip w ∈ c.writes) :
    Key.loginrl scope ip w = r.rateKey ∧ now < r.startedAt + answerMs ∧
      (c = .incr r.rateKey ∧ (∃ replies, r.pc = .checking replies ∧ replies.length = 2 ∧
        after = fun x => .checking (replies ++ [x])) ∨ c = .expire r.rateKey (ipWindowS * 2)) := by
  cases h with
  | @check replies c hpc hnow hcmd =>
    rcases Req.checkCmds_cases hcmd with ⟨-, rfl⟩ | ⟨-, rfl⟩ | ⟨hlen, rfl⟩ | ⟨-, rfl⟩ | ⟨-, hnil⟩
    · cases hw
    · cases hw
    · exact ⟨mem_singleton.1 hw, hnow, Or.inl ⟨rfl, replies, hpc, hlen, rfl⟩⟩
    · exact ⟨mem_singleton.1 hw, hnow, Or.inr rfl⟩
    · rw [hnil] at hw
      cases hw
  | record hpc hcmd =>
    rcases Req.failCmds_cases hcmd with ⟨-, rfl⟩ | ⟨-, rfl⟩ | ⟨-, hper⟩
    · cases mem_singleton.1 hw
    · cases mem_singleton.1 hw
    · exact absurd hw (notMem_writes_of_perUser hper rfl)
  | wait hpc => exact absurd hw (notMem_writes_of_perUser (hr.waits _ hpc _ mem_cons_self) rfl)
  | clear hpc hu => exact absurd hw (notMem_writes_of_perUser rfl rfl)

theorem RateInv.live {s : State} (hi : RateInv s) {r : Req}
    (hnow : s.now < r.startedAt + answerMs) {e : Entry} (he : s.redis.entries.get? r.rateKey = some e) :
    s.redis.find s.now r.rateKey = some e := by
  refine Redis.find_of_live he ?_
  intro t ht
  have hlast := hi.lasting r.scope r.ip r.window e he t ht
  have hwin : r.startedAt < (r.window + 1) * (ipWindowS * 1000) := by
    exact Nat.lt_mul_of_div_lt (Nat.lt_succ_self _) (by decide)
  simp only [ipWindowS, answerMs] at *
  omega

theorem State.may_upsert_le {s : State} {id : Nat} {new : Req} (h : new.may = true →
      ∃ r, s.reqs.get? id = some r ∧ r.scope = new.scope ∧ r.ip = new.ip ∧ r.window = new.window ∧
        r.may = true) (d : Redis) (scope ip : String) (w : Nat) :
    State.may { s with redis := d, reqs := s.reqs.upsert id new } scope ip w ≤ s.may scope ip w := by
  refine Table.count_upsert_le ?_
  intro hp
  simp only [Bool.and_eq_true, decide_eq_true_eq] at hp
  obtain ⟨r, hr, hscope, hip, hwin, hmay⟩ := h hp.2
  rw [hr, any_some]
  simp only [Bool.and_eq_true, decide_eq_true_eq]
  exact ⟨⟨⟨hscope.trans hp.1.1.1, hip.trans hp.1.1.2⟩, hwin.trans hp.1.2⟩, hmay⟩

theorem RateInv.moved {s : State} (hi : RateInv s) {id : Nat} {new : Req} (h : new.may = true →
      ∃ r, s.reqs.get? id = some r ∧ r.scope = new.scope ∧ r.ip = new.ip ∧ r.window = new.window ∧
        r.may = true)
    (hok : ∀ id' r, (s.reqs.upsert id new).get? id' = some r → r.Ok s.now) :
    RateInv { s with reqs := s.reqs.upsert id new } := by
  have hle := State.may_upsert_le h s.redis
  exact ⟨hok, fun scope ip w => (hle scope ip w).trans (hi.counted scope ip w),
    fun scope ip w => (hle scope ip w).trans (hi.limit scope ip w), hi.lasting⟩

theorem RateInv.incr {s : State} (hi : RateInv s) {id : Nat} {r : Req} (hr : s.reqs.get? id = some r)
    (hnow : s.now < r.startedAt + answerMs) (hpc : r.pc = .checking replies)
    (hlen : replies.length = 2) {new : Req}
    (hnew : new = { r with
      pc := .checking (replies ++ [(s.redis.exec s.now (.incr r.rateKey)).2]), failedIn := new.failedIn })
    (hok : ∀ id' r', (s.reqs.upsert id new).get? id' = some r' → r'.Ok s.now) :
    RateInv { s with redis := (s.redis.exec s.now (.incr r.rateKey)).1, reqs := s.reqs.upsert id new } := by
  -- the number it gets is one more than what is stored, and what is stored becomes that number
  obtain ⟨hreply, hstored, hexp⟩ : (s.redis.exec s.now (.incr r.rateKey)).2 =
        some ((s.redis.stored r.rateKey + 1 : Nat) : Int) ∧
      (s.redis.exec s.now (.incr r.rateKey)).1.stored r.rateKey = s.redis.stored r.rateKey + 1 ∧
      ∀ e, (s.redis.exec s.now (.incr r.rateKey)).1.entries.get? r.rateKey = some e →
        ∀ t, e.expires = some t → (r.window + 2) * (ipWindowS * 1000) ≤ t := by
    unfold Redis.exec
    dsimp only
    cases hfind : s.redis.find s.now r.rateKey with
    | some e =>
      obtain ⟨hget, -⟩ := Redis.find_eq_some hfind
      have hval : s.redis.stored r.rateKey = e.value := by simp [Redis.stored, hget]
      rw [hval]
      refine ⟨rfl, by simp [Redis.stored, Redis.put], ?_⟩
      intro e' he' t ht
      simp only [Redis.put, Table.get?_upsert, if_true, Option.some.injEq] at he'
      rw [← he'] at ht
      exact hi.lasting r.scope r.ip r.window e hget t ht
    | none =>
      have hget : s.redis.entries.get? r.rateKey = none := by
        cases hget : s.redis.entries.get? r.rateKey with
        | none => rfl
        | some e =>
          rw [hi.live hnow hget] at hfind
          cases hfind
      have hval : s.redis.stored r.rateKey = 0 := by simp [Redis.stored, hget]
      rw [hval]
      refine ⟨rfl, by simp [Redis.stored, Redis.create], ?_⟩
      intro e' he' t ht
      simp only [Redis.create, Table.get?_upsert, if_true, Option.some.injEq] at he'
      rw [← he'] at ht
      cases ht
  have hold : r.may = false := by
    simp [Req.may, hpc, asInt, List.getElem?_eq_none (Nat.le_of_eq hlen)]
  have hmay : new.may = decide (s.redis.stored r.rateKey + 1 ≤ ipAttemptLimit) := by
    have hself : asInt (replies ++ [(s.redis.exec s.now (.incr r.rateKey)).2]) 2 =
        (s.redis.exec s.now (.incr r.rateKey)).2 := by
      rw [← hlen]
      exact asInt_append_self _ _
    rw [hnew, Req.may]
    dsimp only
    rw [hself, hreply, any_some]
    exact decide_eq_decide.2 Int.ofNat_le
  have hkey : ∀ scope ip w, ¬ (r.scope = scope ∧ r.ip = ip ∧ r.window = w) →
      Key.loginrl scope ip w ∉ (Cmd.incr r.rateKey).writes := by
    rintro scope ip w hne hin
    have := mem_singleton.1 hin
    cases this
    exact hne ⟨rfl, rfl, rfl⟩
  -- the request's own window counts it when its number is within the limit, no other window does
  have hcount : ∀ scope ip w, State.may { s with
        redis := (s.redis.exec s.now (.incr r.rateKey)).1, reqs := s.reqs.upsert id new } scope ip w =
      s.may scope ip w + if (r.scope = scope ∧ r.ip = ip ∧ r.window = w) ∧
        s.redis.stored r.rateKey + 1 ≤ ipAttemptLimit then 1 else 0 := by
    intro scope ip w
    have := Table.count_upsert s.reqs (fun _ r => r.scope = scope && r.ip = ip && r.window = w && r.may) id new
    rw [Table.hit, hr, any_some, hold, hmay] at this
    have hsc : new.scope = r.scope ∧ new.ip = r.ip ∧ new.window = r.window := by
      rw [hnew]
      exact ⟨rfl, rfl, rfl⟩
    simp only [hsc.1, hsc.2.1, hsc.2.2, Bool.and_false, Bool.false_eq_true, if_false, Nat.add_zero,
      Bool.and_eq_true, decide_eq_true_eq] at this
    simp only [State.may, this, and_assoc]
  refine ⟨hok, ?_, ?_, ?_⟩
  · intro scope ip w
    rw [hcount]
    by_cases hsame : r.scope = scope ∧ r.ip = ip ∧ r.window = w
    · obtain ⟨rfl, rfl, rfl⟩ := hsame
      have := hi.counted r.scope r.ip r.window
      change s.may r.scope r.ip r.window ≤ s.redis.stored r.rateKey at this
      change _ ≤ (s.redis.exec s.now (.incr r.rateKey)).1.stored r.rateKey
      split <;> omega
    · rw [if_neg (fun h => hsame h.1)]
      unfold Redis.stored
      rw [Redis.exec_of_notMem (hkey scope ip w hsame)]
      exact hi.counted scope ip w
  · intro scope ip w
    rw [hcount]
    by_cases hsame : r.scope = scope ∧ r.ip = ip ∧ r.window = w
    · obtain ⟨rfl, rfl, rfl⟩ := hsame
      have hc := hi.counted r.scope r.ip r.window
      change s.may r.scope r.ip r.window ≤ s.redis.stored r.rateKey at hc
      have hl := hi.limit r.scope r.ip r.window
      split <;> omega
    · rw [if_neg (fun h => hsame h.1)]
      exact hi.limit scope ip w
  · intro scope ip w e he
    by_cases hsame : r.scope = scope ∧ r.ip = ip ∧ r.window = w
    · obtain ⟨rfl, rfl, rfl⟩ := hsame
      exact hexp e he
    · rw [Redis.exec_of_notMem (hkey scope ip w hsame)] at he
      exact hi.lasting scope ip w e he

theorem RateInv.send {s : State} (hi : RateInv s) {id : Nat} {r : Req}
    (hr : s.reqs.get? id = some r) (hsend : r.Sends s.now c after) {new : Req}
    (hnew : new = { r with pc := after (s.redis.exec s.now c).2, failedIn := new.failedIn })
    (hok : ∀ id' r', (s.reqs.upsert id new).get? id' = some r' → r'.Ok s.now) :
    RateInv { s with redis := (s.redis.exec s.now c).1, reqs := s.reqs.upsert id new } := by
  by_cases hinc : c = .incr r.rateKey
  · subst hinc
    have hwrites : Key.loginrl r.scope r.ip r.window ∈ (Cmd.incr r.rateKey).writes := mem_singleton.2 rfl
    obtain ⟨-, hnow, ⟨-, replies, hpc, hlen, rfl⟩ | hexp⟩ := hsend.rate (hi.ok id r hr) hwrites
    · exact hi.incr hr hnow hpc hlen hnew hok
    · cases hexp
  · have hle : ∀ scope ip w, State.may { s with
        redis := (s.redis.exec s.now c).1, reqs := s.reqs.upsert id new } scope ip w ≤ s.may scope ip w := by
      refine State.may_upsert_le ?_ _
      intro hmay
      rw [hnew, hsend.may_eq hinc] at hmay
      rw [hnew]
      exact ⟨r, hr, rfl, rfl, rfl, hmay⟩
    -- of the keys of attempts, at most the request's own is written, and then only its expiry
    have hkeep : ∀ scope ip w, (s.redis.exec s.now c).1.stored (.loginrl scope ip w) =
          s.redis.stored (.loginrl scope ip w) ∧
        ∀ e, (s.redis.exec s.now c).1.entries.get? (.loginrl scope ip w) = some e →
          ∀ t, e.expires = some t → (w + 2) * (ipWindowS * 1000) ≤ t := by
      intro scope ip w
      by_cases hw : Key.loginrl scope ip w ∈ c.writes
      · obtain ⟨hkey, -, ⟨hinc', -⟩ | rfl⟩ := hsend.rate (hi.ok id r hr) hw
        · exact absurd hinc' hinc
        · rw [hkey]
          cases hkey
          unfold Redis.exec
          dsimp only
          split
          · next e hfind =>
            obtain ⟨hget, -⟩ := Redis.find_eq_some hfind
            refine ⟨by simp [Redis.stored, Redis.put, hget], ?_⟩
            intro e' he' t ht
            simp only [Redis.put, Table.get?_upsert, if_true, Option.some.injEq] at he'
            rw [← he'] at ht
            cases ht
            have hstart := (hi.ok id r hr).started
            have hwin : r.window * (ipWindowS * 1000) ≤ r.startedAt := Nat.div_mul_le_self _ _
            calc (r.window + 2) * (ipWindowS * 1000)
                = r.window * (ipWindowS * 1000) + ipWindowS * 2 * 1000 := by ring
              _ ≤ r.startedAt + ipWindowS * 2 * 1000 := Nat.add_le_add_right hwin _
              _ ≤ s.now + ipWindowS * 2 * 1000 := Nat.add_le_add_right hstart _
          · exact ⟨rfl, fun e he => hi.lasting r.scope r.ip r.window e he⟩
      · unfold Redis.stored
        rw [Redis.exec_of_notMem hw]
        exact ⟨rfl, fun e he => hi.lasting scope ip w e he⟩
    refine ⟨hok, fun scope ip w => ?_, fun scope ip w => (hle scope ip w).trans (hi.limit scope ip w),
      fun scope ip w => (hkeep scope ip w).2⟩
    rw [(hkeep scope ip w).1]
    exact (hle scope ip w).trans (hi.counted scope ip w)

theorem RateInv.step {s s' : State} {a : Act} (hi : RateInv s) (h : s.Moves a s') : RateInv s' := by
  have hok' := h.ok hi.ok
  cases h with
  | stay => exact hi
  | tick => exact ⟨hok', hi.counted, hi.limit, hi.lasting⟩
  | arrive hnew => exact hi.moved (by simp [Req.may, asInt]) hok'
  | @answer id r hr =>
    exact hi.moved (fun h => ⟨r, hr, rfl, rfl, rfl, Req.may_answered (hi.ok id r hr) h⟩) hok'
  | @verify id r ok hr => exact hi.moved (fun h => ⟨r, hr, rfl, rfl, rfl, Req.may_compared h⟩) hok'
  | @send id r c after hr hsend => exact hi.send hr hsend rfl hok'

theorem rateInv_init : RateInv State.init :=
  ⟨nofun, fun _ _ _ => Nat.zero_le _, fun _ _ _ => Nat.zero_le _, nofun⟩

theorem Req.may_of_past {r : Req} (h : r.past = true) : r.may = true := by
  cases hpc : r.pc with
  | checking _ => simp [Req.past, hpc] at h
  | throttled _ _ => simp [Req.past, hpc] at h
  | verifying => rw [Req.may, hpc]
  | recording _ => rw [Req.may, hpc]
  | waiting _ => rw [Req.may, hpc]
  | clearing => rw [Req.may, hpc]
  | failed => rw [Req.may, hpc]
  | signedIn => rw [Req.may, hpc]

theorem State.passed_le_may (s : State) (scope ip : String) (w : Nat) : s.passed scope ip w ≤ s.may scope ip w := by
  refine countP_mono_left ?_
  intro x _ h
  simp only [Bool.and_eq_true] at h ⊢
  exact ⟨h.1, Req.may_of_past h.2⟩

/-! ## Failures -/

structure FailInv (s : State) : Prop where
  ok : ∀ id r, s.reqs.get? id = some r → r.Ok s.now
  room : ∀ scope ip, s.failCount scope ip + s.inFlight scope ip ≤ ipFailLimit
  entry : ∀ scope ip e, s.redis.entries.get? (.loginfailIp scope ip) = some e →
    e.life < s.redis.lives ∧ e.value ≤ ipFailLimit ∧ s.failures scope ip e.life ≤ e.value
  lives : ∀ id r, s.reqs.get? id = some r → ∀ l, r.failedIn = some l → l < s.redis.lives
  bound : ∀ scope ip l, s.failures scope ip l ≤ ipFailLimit

/-- A check reads a count at the limit, or one that leaves room beside the logins in flight. -/
def Room (s : State) : Act → Prop
  | .redis id => ∀ r ∈ s.reqs.get? id, r.pc = .checking [] →
    ipFailLimit ≤ s.failCount r.scope r.ip ∨ s.failCount r.scope r.ip + s.inFlight r.scope r.ip < ipFailLimit
  | _ => True

instance (s : State) : (a : Act) → Decidable (Room s a)
  | .redis id => inferInstanceAs (Decidable (∀ r ∈ s.reqs.get? id, r.pc = .checking [] →
    ipFailLimit ≤ s.failCount r.scope r.ip ∨ s.failCount r.scope r.ip + s.inFlight r.scope r.ip < ipFailLimit))
  | .tick _ => isTrue trivial
  | .arrive _ _ _ _ => isTrue trivial
  | .answer _ => isTrue trivial
  | .verify _ _ => isTrue trivial

section
variable {s : State} {id : Nat} {r new : Req}

theorem State.inFlight_upsert_le (h : new.inFlight = true →
      ∃ r, s.reqs.get? id = some r ∧ r.scope = new.scope ∧ r.ip = new.ip ∧ r.inFlight = true)
    (d : Redis) (scope ip : String) :
    State.inFlight { s with redis := d, reqs := s.reqs.upsert id new } scope ip ≤ s.inFlight scope ip := by
  refine Table.count_upsert_le ?_
  intro hp
  simp only [Bool.and_eq_true, decide_eq_true_eq] at hp
  obtain ⟨r, hr, hscope, hip, hfl⟩ := h hp.2
  rw [hr, any_some]
  simp only [Bool.and_eq_true, decide_eq_true_eq]
  exact ⟨⟨hscope.trans hp.1.1, hip.trans hp.1.2⟩, hfl⟩

theorem State.failures_upsert_le {l : Nat} (h : new.failedIn = some l →
      ∃ r, s.reqs.get? id = some r ∧ r.scope = new.scope ∧ r.ip = new.ip ∧ r.failedIn = some l)
    (d : Redis) (scope ip : String) :
    State.failures { s with redis := d, reqs := s.reqs.upsert id new } scope ip l ≤ s.failures scope ip l := by
  refine Table.count_upsert_le ?_
  intro hp
  simp only [Bool.and_eq_true, decide_eq_true_eq, beq_iff_eq] at hp
  obtain ⟨r, hr, hscope, hip, hl⟩ := h hp.2
  rw [hr, any_some]
  simp only [Bool.and_eq_true, decide_eq_true_eq, beq_iff_eq]
  exact ⟨⟨hscope.trans hp.1.1, hip.trans hp.1.2⟩, hl⟩

theorem FailInv.failures_fresh (hi : FailInv s) (scope ip : String) {l : Nat} (hl : s.redis.lives ≤ l) :
    s.failures scope ip l = 0 := by
  refine countP_eq_zero.2 ?_
  rintro ⟨id, r⟩ hmem hp
  simp only [Bool.and_eq_true, beq_iff_eq] at hp
  have := hi.lives id r ((Table.get?_eq_some_iff _ _ _).2 hmem) l hp.2
  omega

theorem FailInv.lives_upsert (hi : FailInv s) {d : Redis} (hlives : s.redis.lives ≤ d.lives)
    (hnew : ∀ l, new.failedIn = some l → l < d.lives) :
    ∀ id' r', (s.reqs.upsert id new).get? id' = some r' → ∀ l, r'.failedIn = some l → l < d.lives := by
  intro id' r' hr' l hl
  rw [Table.get?_upsert] at hr'
  split at hr'
  · cases hr'
    exact hnew l hl
  · exact (hi.lives id' r' hr' l hl).trans_le hlives

theorem FailInv.moved (hi : FailInv s) {d : Redis} (hflight : new.inFlight = true →
      ∃ r, s.reqs.get? id = some r ∧ r.scope = new.scope ∧ r.ip = new.ip ∧ r.inFlight = true)
    (hlife : ∀ l, new.failedIn = some l →
      ∃ r, s.reqs.get? id = some r ∧ r.scope = new.scope ∧ r.ip = new.ip ∧ r.failedIn = some l)
    (hkeys : ∀ scope ip, d.entries.get? (.loginfailIp scope ip) = s.redis.entries.get? (.loginfailIp scope ip))
    (hlives : s.redis.lives ≤ d.lives)
    (hok : ∀ id' r', (s.reqs.upsert id new).get? id' = some r' → r'.Ok s.now) :
    FailInv { s with redis := d, reqs := s.reqs.upsert id new } := by
  have hfl := State.inFlight_upsert_le hflight d
  have hfail := fun scope ip l => State.failures_upsert_le (hlife l) d scope ip
  refine ⟨hok, ?_, ?_, ?_, fun scope ip l => (hfail scope ip l).trans (hi.bound scope ip l)⟩
  · intro scope ip
    have hcount : State.failCount { s with redis := d, reqs := s.reqs.upsert id new } scope ip =
        s.failCount scope ip := by
      simp only [State.failCount, Redis.find, hkeys]
    rw [hcount]
    exact (Nat.add_le_add_left (hfl scope ip) _).trans (hi.room scope ip)
  · intro scope ip e he
    rw [hkeys] at he
    obtain ⟨hl, hv, hf⟩ := hi.entry scope ip e he
    exact ⟨hl.trans_le hlives, hv, (hfail scope ip e.life).trans hf⟩
  · refine hi.lives_upsert hlives ?_
    intro l hl
    obtain ⟨r, hr, -, -, hfailed⟩ := hlife l hl
    exact (hi.lives id r hr l hfailed).trans_le hlives

theorem FailInv.read (hi : FailInv s) (hr : s.reqs.get? id = some r) (hpc : r.pc = .checking [])
    (hroom : ipFailLimit ≤ s.failCount r.scope r.ip ∨
      s.failCount r.scope r.ip + s.inFlight r.scope r.ip < ipFailLimit)
    (hnew : new = { r with pc := .checking [(s.redis.find s.now r.failIpKey).map fun e => (e.value : Int)] })
    (hok : ∀ id' r', (s.reqs.upsert id new).get? id' = some r' → r'.Ok s.now) :
    FailInv { s with reqs := s.reqs.upsert id new } := by
  have hflight : new.inFlight = decide (s.failCount r.scope r.ip < ipFailLimit) := by
    rw [hnew]
    show (!Option.any _ ((s.redis.find s.now r.failIpKey).map fun e => (e.value : Int))) = _
    unfold State.failCount Req.failIpKey
    cases s.redis.find s.now (.loginfailIp r.scope r.ip) with
    | none => rfl
    | some e =>
      simp only [map_some, any_some, getD_some, ← decide_not, not_le]
      exact decide_eq_decide.2 Int.ofNat_lt
  by_cases hlt : s.failCount r.scope r.ip < ipFailLimit
  · have hfail : ∀ scope ip l, State.failures { s with reqs := s.reqs.upsert id new } scope ip l ≤
        s.failures scope ip l := by
      intro scope ip l
      refine State.failures_upsert_le ?_ s.redis scope ip
      intro hl
      rw [hnew] at hl ⊢
      exact ⟨r, hr, rfl, rfl, hl⟩
    refine ⟨hok, ?_, ?_, ?_, fun scope ip l => (hfail scope ip l).trans (hi.bound scope ip l)⟩
    · intro scope ip
      show s.failCount scope ip + State.inFlight { s with reqs := s.reqs.upsert id new } scope ip ≤ _
      have hcount := Table.count_upsert s.reqs (fun _ r => r.scope = scope && r.ip = ip && r.inFlight) id new
      have hsc : new.scope = r.scope ∧ new.ip = r.ip := by rw [hnew]; exact ⟨rfl, rfl⟩
      have hold : r.inFlight = false := by simp [Req.inFlight, hpc]
      simp only [Table.hit, hr, any_some, hold, hflight, hsc.1, hsc.2, hlt, Bool.and_false,
        Bool.false_eq_true, if_false, Nat.add_zero, decide_true, Bool.and_true, Bool.and_eq_true,
        decide_eq_true_eq] at hcount
      have hroom' := hi.room scope ip
      unfold State.inFlight at hroom hroom' ⊢
      rw [hcount]
      split
      · next hsame =>
        obtain ⟨rfl, rfl⟩ := hsame
        omega
      · omega
    · intro scope ip e he
      obtain ⟨hl, hv, hf⟩ := hi.entry scope ip e he
      exact ⟨hl, hv, (hfail scope ip e.life).trans hf⟩
    · refine hi.lives_upsert (Nat.le_refl _) ?_
      intro l hl
      rw [hnew] at hl
      exact hi.lives id r hr l hl
  · refine hi.moved ?_ ?_ (fun _ _ => rfl) (Nat.le_refl _) hok
    · intro h
      rw [hflight] at h
      exact absurd (of_decide_eq_true h) hlt
    · intro l hl
      rw [hnew] at hl ⊢
      exact ⟨r, hr, rfl, rfl, hl⟩

theorem failIpKey_eq {scope ip : String} : Key.loginfailIp scope ip = r.failIpKey ↔ r.scope = scope ∧ r.ip = ip := by
  unfold Req.failIpKey
  rw [Key.loginfailIp.injEq]
  exact ⟨fun h => ⟨h.1.symm, h.2.symm⟩, fun h => ⟨h.1.symm, h.2.symm⟩⟩

theorem FailInv.opened (hi : FailInv s) (hr : s.reqs.get? id = some r) (expires : Option Nat)
    (hflight : new.inFlight = true → r.inFlight = true) (hsc : new.scope = r.scope ∧ new.ip = r.ip)
    (hfailed : new.failedIn = r.failedIn)
    (hok : ∀ id' r', (s.reqs.upsert id new).get? id' = some r' → r'.Ok s.now) :
    FailInv { s with redis := s.redis.create r.failIpKey 0 expires, reqs := s.reqs.upsert id new } := by
  have hfl : ∀ scope ip, State.inFlight { s with
      redis := s.redis.create r.failIpKey 0 expires, reqs := s.reqs.upsert id new } scope ip ≤
      s.inFlight scope ip :=
    State.inFlight_upsert_le (fun h => ⟨r, hr, hsc.1.symm, hsc.2.symm, hflight h⟩) _
  have hfail : ∀ scope ip l, State.failures { s with
      redis := s.redis.create r.failIpKey 0 expires, reqs := s.reqs.upsert id new } scope ip l ≤
      s.failures scope ip l := fun scope ip l =>
    State.failures_upsert_le (fun h => ⟨r, hr, hsc.1.symm, hsc.2.symm, hfailed ▸ h⟩) _ scope ip
  refine ⟨hok, ?_, ?_, ?_, fun scope ip l => (hfail scope ip l).trans (hi.bound scope ip l)⟩
  · intro scope ip
    have hcount : State.failCount { s with
        redis := s.redis.create r.failIpKey 0 expires, reqs := s.reqs.upsert id new } scope ip ≤
        s.failCount scope ip := by
      unfold State.failCount Redis.find Redis.create
      rw [Table.get?_upsert]
      split
      · unfold Option.filter
        dsimp only
        split <;> exact Nat.zero_le _
      · exact Nat.le_refl _
    exact (Nat.add_le_add hcount (hfl scope ip)).trans (hi.room scope ip)
  · intro scope ip e he
    simp only [Redis.create, Table.get?_upsert] at he
    split at he
    · cases he
      refine ⟨Nat.lt_succ_self _, Nat.zero_le _, (hfail scope ip _).trans ?_⟩
      rw [hi.failures_fresh scope ip (Nat.le_refl _)]
    · obtain ⟨hl, hv, hf⟩ := hi.entry scope ip e he
      exact ⟨Nat.lt_succ_of_lt hl, hv, (hfail scope ip e.life).trans hf⟩
  · refine hi.lives_upsert (Nat.le_succ _) ?_
    intro l hl
    rw [hfailed] at hl
    exact Nat.lt_succ_of_lt (hi.lives id r hr l hl)

theorem FailInv.counts (hi : FailInv s) (hr : s.reqs.get? id = some r) (hfl : r.inFlight = true)
    (hnew : new.inFlight = false) (hsc : new.scope = r.scope ∧ new.ip = r.ip)
    (hfailed : new.failedIn = ((s.redis.exec s.now (.incr r.failIpKey)).1.entries.get? r.failIpKey).map Entry.life)
    (hok : ∀ id' r', (s.reqs.upsert id new).get? id' = some r' → r'.Ok s.now) :
    FailInv { s with redis := (s.redis.exec s.now (.incr r.failIpKey)).1, reqs := s.reqs.upsert id new } := by
  -- the entry after the command, its value one above the count read before it
  obtain ⟨e, he, hval, hlife, hlives⟩ : ∃ e : Entry,
      (s.redis.exec s.now (.incr r.failIpKey)).1.entries.get? r.failIpKey = some e ∧
      e.value = s.failCount r.scope r.ip + 1 ∧ s.failures r.scope r.ip e.life ≤ s.failCount r.scope r.ip ∧
      e.life < (s.redis.exec s.now (.incr r.failIpKey)).1.lives := by
    unfold Redis.exec State.failCount
    dsimp only
    cases hfind : s.redis.find s.now r.failIpKey with
    | some e =>
      obtain ⟨hget, -⟩ := Redis.find_eq_some hfind
      obtain ⟨hl, -, hf⟩ := hi.entry r.scope r.ip e hget
      change s.redis.find s.now (.loginfailIp r.scope r.ip) = some e at hfind
      rw [hfind]
      exact ⟨{ e with value := e.value + 1 }, by simp [Redis.put], rfl, hf, hl⟩
    | none =>
      change s.redis.find s.now (.loginfailIp r.scope r.ip) = none at hfind
      rw [hfind]
      refine ⟨⟨1, none, s.redis.lives⟩, by simp [Redis.create], rfl, ?_, Nat.lt_succ_self _⟩
      rw [hi.failures_fresh _ _ (Nat.le_refl _)]
      exact Nat.zero_le _
  rw [he, map_some] at hfailed
  generalize hd : (s.redis.exec s.now (.incr r.failIpKey)).1 = d at *
  have hmono : s.redis.lives ≤ d.lives := hd ▸ Redis.lives_exec _ _ _
  have hkeys : ∀ scope ip, ¬ (r.scope = scope ∧ r.ip = ip) →
      d.entries.get? (.loginfailIp scope ip) = s.redis.entries.get? (.loginfailIp scope ip) := by
    intro scope ip hne
    rw [← hd]
    refine Redis.exec_of_notMem ?_
    intro hin
    exact hne (failIpKey_eq.1 (mem_singleton.1 hin))
  -- the counts after the write: only the request's own IP and the life of the entry change
  have hinfl : ∀ scope ip, State.inFlight { s with redis := d, reqs := s.reqs.upsert id new } scope ip +
      (if r.scope = scope ∧ r.ip = ip then 1 else 0) = s.inFlight scope ip := by
    intro scope ip
    have hcount := Table.count_upsert s.reqs (fun _ r => r.scope = scope && r.ip = ip && r.inFlight) id new
    simpa [State.inFlight, Table.hit, hr, hfl, hnew] using hcount
  have hfail : ∀ scope ip l, State.failures { s with redis := d, reqs := s.reqs.upsert id new } scope ip l ≤
      s.failures scope ip l + if (r.scope = scope ∧ r.ip = ip) ∧ e.life = l then 1 else 0 := by
    intro scope ip l
    have hcount := Table.count_upsert s.reqs
      (fun _ r => r.scope = scope && r.ip = ip && r.failedIn == some l) id new
    simp only [hsc.1, hsc.2, hfailed, Bool.and_eq_true, decide_eq_true_eq, beq_iff_eq, Option.some.injEq] at hcount
    unfold State.failures
    dsimp only
    omega
  refine ⟨hok, ?_, ?_, ?_, ?_⟩
  · intro scope ip
    have hroom := hi.room scope ip
    have hthis := hinfl scope ip
    by_cases hsame : r.scope = scope ∧ r.ip = ip
    · have hle : State.failCount { s with redis := d, reqs := s.reqs.upsert id new } scope ip ≤
          s.failCount scope ip + 1 := by
        obtain ⟨rfl, rfl⟩ := hsame
        rw [← hval]
        change ((Option.filter _ (d.entries.get? r.failIpKey)).map Entry.value).getD 0 ≤ e.value
        rw [he]
        unfold Option.filter
        dsimp only
        split
        · exact Nat.le_refl _
        · exact Nat.zero_le _
      rw [if_pos hsame] at hthis
      omega
    · have heq : State.failCount { s with redis := d, reqs := s.reqs.upsert id new } scope ip =
          s.failCount scope ip := by
        simp only [State.failCount, Redis.find, hkeys scope ip hsame]
      omega
  · intro scope ip e' he'
    by_cases hsame : r.scope = scope ∧ r.ip = ip
    · obtain ⟨rfl, rfl⟩ := hsame
      change d.entries.get? r.failIpKey = some e' at he'
      rw [he] at he'
      cases he'
      have hroom := hi.room r.scope r.ip
      have hthis := hinfl r.scope r.ip
      have hf := hfail r.scope r.ip e.life
      rw [if_pos ⟨rfl, rfl⟩] at hthis
      rw [if_pos ⟨⟨rfl, rfl⟩, rfl⟩] at hf
      exact ⟨hlives, by omega, by omega⟩
    · rw [hkeys scope ip hsame] at he'
      obtain ⟨hl, hv, hf⟩ := hi.entry scope ip e' he'
      have hf' := hfail scope ip e'.life
      rw [if_neg (fun h => hsame h.1)] at hf'
      exact ⟨hl.trans_le hmono, hv, hf'.trans hf⟩
  · refine hi.lives_upsert hmono ?_
    intro l hl
    rw [hfailed] at hl
    cases hl
    exact hlives
  · intro scope ip l
    have hf := hfail scope ip l
    have hb := hi.bound scope ip l
    by_cases hsame : (r.scope = scope ∧ r.ip = ip) ∧ e.life = l
    · obtain ⟨⟨rfl, rfl⟩, rfl⟩ := hsame
      have hroom := hi.room r.scope r.ip
      have hthis := hinfl r.scope r.ip
      rw [if_pos ⟨rfl, rfl⟩] at hthis
      rw [if_pos ⟨⟨rfl, rfl⟩, rfl⟩] at hf
      omega
    · rw [if_neg hsame] at hf
      omega

theorem Req.Sends.fail_cases {now : Nat} {c : Cmd} {after : Option Int → Pc} (h : r.Sends now c after)
    (hr : r.Ok now) :
    (r.pc = .checking [] ∧ c = .get r.failIpKey ∧ after = fun x => .checking [x]) ∨
      (r.pc = .recording [] ∧ c = .setNx r.failIpKey failTtlS ∧ after = fun x => .recording [x]) ∨
      (∃ x₀, r.pc = .recording [x₀] ∧ c = .incr r.failIpKey ∧ after = fun x => .recording [x₀, x]) ∨
      (∀ scope ip, Key.loginfailIp scope ip ∉ c.writes) ∧ c ≠ .incr r.failIpKey ∧
        ∀ x life, ({ r with pc := after x, failedIn := life } : Req).inFlight = r.inFlight := by
  have hper : ∀ {c : Cmd}, c.perUser = true →
      (∀ scope ip, Key.loginfailIp scope ip ∉ c.writes) ∧ c ≠ .incr r.failIpKey := by
    intro c hc
    refine ⟨fun scope ip => notMem_writes_of_perUser hc rfl, ?_⟩
    rintro rfl
    cases hc
  cases h with
  | @check replies c hpc hnow hcmd =>
    cases replies with
    | nil =>
      left
      exact ⟨hpc, (Option.some.inj hcmd).symm, rfl⟩
    | cons x₀ rest =>
      right; right; right
      have hrest : (∀ scope ip, Key.loginfailIp scope ip ∉ c.writes) ∧ c ≠ .incr r.failIpKey := by
        rcases Req.checkCmds_cases hcmd with ⟨h0, -⟩ | ⟨-, rfl⟩ | ⟨-, rfl⟩ | ⟨-, rfl⟩ | ⟨-, hnil⟩
        · cases h0
        · exact ⟨fun _ _ => not_mem_nil, nofun⟩
        · exact ⟨fun _ _ h => (by cases mem_singleton.1 h), nofun⟩
        · exact ⟨fun _ _ h => (by cases mem_singleton.1 h), nofun⟩
        · refine ⟨fun _ _ => by rw [hnil]; exact not_mem_nil, ?_⟩
          rintro rfl
          cases hnil
      refine ⟨hrest.1, hrest.2, ?_⟩
      intro x life
      simp only [Req.inFlight, hpc, cons_append]
  | @record replies c hpc hcmd =>
    match replies, hpc, hcmd with
    | [], hpc, hcmd =>
      right; left
      exact ⟨hpc, (Option.some.inj hcmd).symm, rfl⟩
    | [x₀], hpc, hcmd =>
      right; right; left
      exact ⟨x₀, hpc, (Option.some.inj hcmd).symm, rfl⟩
    | x₀ :: x₁ :: rest, hpc, hcmd =>
      right; right; right
      rcases Req.failCmds_cases hcmd with ⟨h0, -⟩ | ⟨h1, -⟩ | ⟨-, hc⟩
      · cases h0
      · simp at h1
      · refine ⟨(hper hc).1, (hper hc).2, ?_⟩
        intro x life
        simp only [Req.inFlight, hpc, length_append, length_cons]
        simp
  | @wait c cmds hpc =>
    right; right; right
    have hc := hr.waits _ hpc c mem_cons_self
    refine ⟨(hper hc).1, (hper hc).2, ?_⟩
    intro x life
    simp only [Req.inFlight, hpc]
  | clear hpc hu =>
    right; right; right
    refine ⟨(hper rfl).1, (hper rfl).2, ?_⟩
    intro x life
    simp only [Req.inFlight, hpc]

theorem countedIn_of_ne {d : Redis} {c : Cmd} (h : c ≠ .incr r.failIpKey) : countedIn d r c = r.failedIn := by
  unfold countedIn
  split
  · next k =>
    rw [if_neg]
    rintro rfl
    exact h rfl
  · rfl

theorem FailInv.send (hi : FailInv s) {c : Cmd} {after : Option Int → Pc} (hr : s.reqs.get? id = some r)
    (hsend : r.Sends s.now c after) (hroom : Room s (.redis id))
    (hok : ∀ id' r', (s.reqs.upsert id { r with
        pc := after (s.redis.exec s.now c).2, failedIn := countedIn (s.redis.exec s.now c).1 r c }).get? id' =
      some r' → r'.Ok s.now) :
    FailInv { s with
      redis := (s.redis.exec s.now c).1
      reqs := s.reqs.upsert id { r with
        pc := after (s.redis.exec s.now c).2, failedIn := countedIn (s.redis.exec s.now c).1 r c } } := by
  rcases hsend.fail_cases (hi.ok id r hr) with ⟨hpc, rfl, rfl⟩ | ⟨hpc, rfl, rfl⟩ | ⟨x₀, hpc, rfl, rfl⟩ |
    ⟨hkeys, hne, hflight⟩
  · exact hi.read hr hpc (hroom r hr hpc) rfl hok
  · have hinfl : r.inFlight = true := by simp [Req.inFlight, hpc]
    revert hok
    unfold Redis.exec
    dsimp only
    cases hfind : s.redis.find s.now r.failIpKey with
    | some e =>
      intro hok
      exact hi.moved (fun _ => ⟨r, hr, rfl, rfl, hinfl⟩) (fun l hl => ⟨r, hr, rfl, rfl, hl⟩) (fun _ _ => rfl)
        (Nat.le_refl _) hok
    | none =>
      intro hok
      exact hi.opened hr _ (fun _ => hinfl) ⟨rfl, rfl⟩ rfl hok
  · refine hi.counts hr (by simp [Req.inFlight, hpc]) (by simp [Req.inFlight]) ⟨rfl, rfl⟩ ?_ hok
    simp only [countedIn, if_true]
  · refine hi.moved ?_ ?_ (fun scope ip => Redis.exec_of_notMem (hkeys scope ip)) (Redis.lives_exec _ _ _) hok
    · intro h
      rw [hflight] at h
      exact ⟨r, hr, rfl, rfl, h⟩
    · intro l hl
      rw [countedIn_of_ne hne] at hl
      exact ⟨r, hr, rfl, rfl, hl⟩

theorem Req.inFlight_answered (h : ({ r with pc := r.answered } : Req).inFlight = true) :
    r.inFlight = true := by
  unfold Req.answered at h
  split at h
  · next replies hpc =>
    split at h
    · next hlen =>
      split at h
      · cases h
      · next hno =>
        cases replies with
        | nil =>
          rw [Req.checkCmds, length_append] at hlen
          simp at hlen
          omega
        | cons x rest =>
          rw [Req.inFlight, hpc]
          unfold Req.refusal at hno
          split at hno
          · cases hno
          · next hlt =>
            have hx : asInt (x :: rest) 0 = x := by simp [asInt]
            rw [hx] at hlt
            simpa using hlt
    · exact h
  · next replies hpc =>
    split at h
    · cases h
    · exact h
  · cases h
  · exact h

theorem Req.inFlight_compared {ok : Bool} (h : ({ r with pc := r.compared ok } : Req).inFlight = true) :
    r.inFlight = true := by
  rcases r.compared_cases ok with heq | ⟨hpc, -⟩
  · rwa [heq] at h
  · rw [Req.inFlight, hpc]

theorem FailInv.step {s' : State} {a : Act} (hi : FailInv s) (h : s.Moves a s') (hroom : Room s a) : FailInv s' := by
  have hok' := h.ok hi.ok
  cases h with
  | stay => exact hi
  | @tick ms =>
    refine ⟨hok', ?_, hi.entry, hi.lives, hi.bound⟩
    intro scope ip
    have hle : State.failCount { s with now := s.now + ms } scope ip ≤ s.failCount scope ip := by
      unfold State.failCount
      cases hfind : s.redis.find (s.now + ms) (.loginfailIp scope ip) with
      | none => exact Nat.zero_le _
      | some e =>
        obtain ⟨hget, hlive⟩ := Redis.find_eq_some hfind
        rw [Redis.find_of_live hget (fun t ht => (Nat.le_add_right _ _).trans_lt (hlive t ht))]
    exact (Nat.add_le_add_right hle _).trans (hi.room scope ip)
  | arrive hnew => exact hi.moved nofun nofun (fun _ _ => rfl) (Nat.le_refl _) hok'
  | @answer id r hr =>
    exact hi.moved (fun h => ⟨r, hr, rfl, rfl, Req.inFlight_answered h⟩) (fun l hl => ⟨r, hr, rfl, rfl, hl⟩)
      (fun _ _ => rfl) (Nat.le_refl _) hok'
  | @verify id r ok hr =>
    exact hi.moved (fun h => ⟨r, hr, rfl, rfl, Req.inFlight_compared h⟩) (fun l hl => ⟨r, hr, rfl, rfl, hl⟩)
      (fun _ _ => rfl) (Nat.le_refl _) hok'
  | @send id r c after hr hsend => exact hi.send hr hsend hroom hok'

end

theorem failInv_init : FailInv State.init :=
  ⟨nofun, fun _ _ => (Nat.zero_le ipFailLimit : 0 ≤ ipFailLimit), nofun, nofun, fun _ _ _ => Nat.zero_le _⟩

/-! ## Runs -/

/-- At most `LOGIN_IP_ATTEMPT_LIMIT` requests of a window get past `check`. -/
def AttemptsBounded (s : State) : Prop := ∀ scope ip w, s.passed scope ip w ≤ ipAttemptLimit

/-- At most `LOGIN_IP_FAIL_LIMIT` logins fail in one life of the key. -/
def FailuresBounded (s : State) : Prop := ∀ scope ip life, s.failures scope ip life ≤ ipFailLimit

/-- The attempts are bounded in every run, and the failures in every run whose checks leave room for the
logins in flight. -/
theorem throttle_bounds (as : List Act) : Always State.step AttemptsBounded State.init as ∧
    (Along State.step Room State.init as → Always State.step FailuresBounded State.init as) := by
  constructor
  · have hall : Along State.step (fun _ _ => True) State.init as := along_of_forall fun _ _ => trivial
    refine (Along.always (fun s a hi _ => RateInv.step hi (s.step_moves a)) rateInv_init hall).mono ?_
    intro s hi scope ip w
    exact (s.passed_le_may scope ip w).trans (hi.limit scope ip w)
  · intro hroom
    refine (Along.always (fun s a hi hg => FailInv.step hi (s.step_moves a) hg) failInv_init hroom).mono ?_
    exact fun s hi => hi.bound

/-- A login up to the answer of its check. -/
def checks (id : Nat) : List Act :=
  [.arrive id "admin" "34.120.0.7" (some "h")] ++ List.replicate 6 (.redis id) ++ [.answer id]

/-- Its password is wrong, and the failure is counted. -/
def fails (id : Nat) : List Act := [.verify id false, .redis id, .redis id]

theorem throttle_bounds_twoInTurn : Along State.step Room State.init (checks 0 ++ fails 0 ++ checks 1 ++ fails 1) ∧
      Always State.step FailuresBounded State.init (checks 0 ++ fails 0 ++ checks 1 ++ fails 1) := by
  have hroom : Along State.step Room State.init (checks 0 ++ fails 0 ++ checks 1 ++ fails 1) := by
    decide +kernel
  exact ⟨hroom, (throttle_bounds _).2 hroom⟩

/-- Twenty-one logins that are all checked before the first of them fails. -/
def burst : List Act := (List.range 21).flatMap checks ++ (List.range 21).flatMap fails

theorem burst_overruns : ¬ Always State.step FailuresBounded State.init burst := by
  intro h
  have hlast : (CisApp.run State.step State.init burst).failures "admin" "34.120.0.7" 1 = 21 := by
    decide +kernel
  have := h.run "admin" "34.120.0.7" 1
  rw [hlast] at this
  exact absurd this (by decide)

end CisApp.Login
