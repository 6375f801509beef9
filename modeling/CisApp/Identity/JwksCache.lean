import CisApp.Lib.Json
import CisApp.Lib.Run
import CisApp.Lib.Table

/-! The signing keys of one issuer (`api/core/identity_verifier.py`, `_rsa_keys` and `JwksCache`).

The calls of the cache are coroutines of one event loop, so a call runs undisturbed from one `await` to the
next.  `key` awaits twice, for the lock and, holding it, for the fetch; `refresh` (also called without the
lock, by `prefetch`) awaits the fetch.  An interleaving is a list of `Act`s: which call goes on, what the web
answers to a fetch and what the clock says.  The clock may say anything.

Two history variables stand beside the fields of the cache: `fetches`, the key sets that were fetched so far,
and `answers`, what the calls of `key` returned or raised.  The one fact behind the rest is
`Recorded.answers`: whichever path a call takes, it answers from the key set that is the newest when it
returns. -/

namespace CisApp.Identity

open List Option

variable {κ : Type}

/-! ## The document -/

/-- What `jwt.PyJWK(jwk, algorithm=..)` does: a key, a `PyJWTError`, any other exception. -/
inductive Parsed (κ : Type) where
  | key (k : κ)
  | pyJwtError
  | otherError

abbrev KeySet (κ : Type) := Table String κ

def algorithm : String := "RS256"

def isText (s : String) : Json → Bool
  | .str t => t = s
  | _ => false

/-- One entry of the document's `keys`; `none` is an exception that ends the loop. -/
def addKey (pyJwk : JObj → Parsed κ) (keys : KeySet κ) : Json → Option (KeySet κ)
  | .obj jwk =>
    match (JObj.at? jwk "kty").any (isText "RSA"), JObj.at? jwk "kid" with
    | true, some (.str kid) =>
      if (JObj.at? jwk "use").all (isText "sig") && (JObj.at? jwk "alg").all (isText algorithm) then
        match pyJwk jwk with
        | .key k => some (keys.upsert kid k)
        | .pyJwtError => some keys
        | .otherError => none
      else some keys
    | _, _ => some keys
  | _ => some keys

/-- `_rsa_keys`; `none` is any exception. -/
def rsaKeys (pyJwk : JObj → Parsed κ) : Json → Option (KeySet κ)
  | .obj document =>
    match JObj.at? document "keys" with
    | some (.arr entries) => entries.foldlM (addKey pyJwk) Table.empty
    | _ => none
  | _ => none

/-! ## The cache -/

/-- The arguments of `JwksCache`; times are milliseconds. -/
structure Config where
  url : String
  ttl : Int := 3600000
  unknownKidRefetch : Int := 60000
  coldRetry : Int := 5000

inductive Result (κ : Type) where
  | key (k : κ)
  | invalidToken
  | authUnavailable
deriving Repr, DecidableEq

/-- Where a call stands: before the lock, or at its fetch (`none` for a call of `refresh`). -/
inductive Pc where
  | waiting (kid : String)
  | fetching (kid : Option String)
deriving Repr, DecidableEq

/-- An open call; `begun` is how many key sets had been fetched when it started. -/
structure Call where
  pc : Pc
  begun : Nat
deriving Repr, DecidableEq

/-- An ended call of `key`; `ended` is how many key sets had been fetched when it returned. -/
structure Answer (κ : Type) where
  call : Nat
  kid : String
  result : Result κ
  begun : Nat
  ended : Nat
deriving Repr, DecidableEq

structure State (κ : Type) where
  keys : Option (KeySet κ)
  fetchedAt : Int
  attemptedAt : Option Int
  holder : Option Nat
  calls : Table Nat Call
  fetches : List (KeySet κ)
  answers : List (Answer κ)

def init : State κ := ⟨none, 0, none, none, Table.empty, [], []⟩

/-- What the web answers to a request: the body as JSON, or an exception (also a redirect or a body too
large). -/
abbrev Web := String → Option Json

inductive Act where
  | key (i : Nat) (kid : String) (now : Int)
  | refresh (i : Nat) (now : Int)
  /-- A call of `key` gets the lock; the second time is that of its `refresh`. -/
  | lock (i : Nat) (now now' : Int)
  | fetched (i : Nat) (web : Web) (now : Int)
  | cancel (i : Nat)

def State.mayFetch (cfg : Config) (s : State κ) (now : Int) : Bool :=
  match s.attemptedAt with
  | none => true
  | some t => (if s.keys.isNone then cfg.coldRetry else cfg.unknownKidRefetch) ≤ now - t

def State.hit (s : State κ) (kid : String) : Option κ := s.keys.bind (·.get? kid)

def State.freshHit (cfg : Config) (s : State κ) (kid : String) (now : Int) : Option κ :=
  if s.keys.isSome && now - s.fetchedAt < cfg.ttl then s.hit kid else none

def State.stale (cfg : Config) (s : State κ) (now : Int) : Bool :=
  s.keys.isNone || cfg.ttl ≤ now - s.fetchedAt

/-- `refresh` after its `await`, with what it returns. -/
def State.refreshed (cfg : Config) (pyJwk : JObj → Parsed κ) (s : State κ) (web : Web) (now : Int) :
    State κ × Bool :=
  match (web cfg.url).bind (rsaKeys pyJwk) with
  | none => (s, false)
  | some keys =>
    if keys.rows.isEmpty then (s, false)
    else ({ s with keys := some keys, fetchedAt := now, fetches := s.fetches ++ [keys] }, true)

/-- The last lines of `key`. -/
def resultOf (keys : Option (KeySet κ)) (kid : String) : Result κ :=
  match keys with
  | none => .authUnavailable
  | some keys =>
    match keys.get? kid with
    | none => .invalidToken
    | some k => .key k

/-- The call returns or raises. -/
def State.answer (s : State κ) (i : Nat) (kid : String) (begun : Nat) (result : Result κ) : State κ :=
  { s with
    calls := s.calls.delete fun j _ => j = i
    answers := s.answers ++ [⟨i, kid, result, begun, s.fetches.length⟩] }

def State.open (s : State κ) (i : Nat) (pc : Pc) : State κ :=
  { s with calls := s.calls.upsert i ⟨pc, s.fetches.length⟩ }

def step (cfg : Config) (pyJwk : JObj → Parsed κ) (s : State κ) : Act → State κ
  | .key i kid now =>
    if (s.calls.get? i).isSome then s
    else
      match s.freshHit cfg kid now with
      | some k => s.answer i kid s.fetches.length (.key k)
      | none =>
        match s.hit kid with
        | some k =>
          if s.holder.isSome || !s.mayFetch cfg now then s.answer i kid s.fetches.length (.key k)
          else s.open i (.waiting kid)
        | none => s.open i (.waiting kid)
  | .refresh i now =>
    if (s.calls.get? i).isSome then s
    else { s.open i (.fetching none) with attemptedAt := some now }
  | .lock i now now' =>
    match s.calls.get? i with
    | some ⟨.waiting kid, begun⟩ =>
      if s.holder.isSome then s
      else
        match s.freshHit cfg kid now with
        | some k => s.answer i kid begun (.key k)
        | none =>
          if (s.stale cfg now || (s.hit kid).isNone) && s.mayFetch cfg now then
            { s with
              attemptedAt := some now'
              holder := some i
              calls := s.calls.upsert i ⟨.fetching (some kid), begun⟩ }
          else s.answer i kid begun (resultOf s.keys kid)
    | _ => s
  | .fetched i web now =>
    match s.calls.get? i with
    | some ⟨.fetching none, _⟩ =>
      let s' := (s.refreshed cfg pyJwk web now).1
      { s' with calls := s'.calls.delete fun j _ => j = i }
    | some ⟨.fetching (some kid), begun⟩ =>
      let s' := (s.refreshed cfg pyJwk web now).1
      { s'.answer i kid begun (resultOf s'.keys kid) with holder := none }
    | _ => s
  | .cancel i =>
    { s with
      calls := s.calls.delete fun j _ => j = i
      holder := if s.holder = some i then none else s.holder }

/-- What a step can do; the last fact of a constructor says when. -/
inductive Does (cfg : Config) (pyJwk : JObj → Parsed κ) (s : State κ) : Act → State κ → Prop where
  | stays (act : Act) : Does cfg pyJwk s act s
  | hits {i kid now k} (hnew : s.calls.get? i = none) (hit : s.hit kid = some k)
      (hold : (s.freshHit cfg kid now).isSome ∨ s.holder.isSome ∨ s.mayFetch cfg now = false) :
      Does cfg pyJwk s (.key i kid now) (s.answer i kid s.fetches.length (.key k))
  | waits {i kid now} (hnew : s.calls.get? i = none) : Does cfg pyJwk s (.key i kid now) (s.open i (.waiting kid))
  | prefetches {i now} (hnew : s.calls.get? i = none) :
      Does cfg pyJwk s (.refresh i now) { s.open i (.fetching none) with attemptedAt := some now }
  | answers {i now now' kid begun} (hcall : s.calls.get? i = some ⟨.waiting kid, begun⟩) (hfree : s.holder = none)
      (hnot : (s.freshHit cfg kid now).isSome ∨ s.stale cfg now = false ∨ s.mayFetch cfg now = false) :
      Does cfg pyJwk s (.lock i now now') (s.answer i kid begun (resultOf s.keys kid))
  | fetches {i now now' kid begun} (hcall : s.calls.get? i = some ⟨.waiting kid, begun⟩) (hfree : s.holder = none)
      (hdue : s.mayFetch cfg now = true) :
      Does cfg pyJwk s (.lock i now now')
        { s with
          attemptedAt := some now'
          holder := some i
          calls := s.calls.upsert i ⟨.fetching (some kid), begun⟩ }
  | prefetched {i web now begun} (hcall : s.calls.get? i = some ⟨.fetching none, begun⟩) :
      Does cfg pyJwk s (.fetched i web now)
        { (s.refreshed cfg pyJwk web now).1 with
          calls := (s.refreshed cfg pyJwk web now).1.calls.delete fun j _ => j = i }
  | returns {i web now kid begun} (hcall : s.calls.get? i = some ⟨.fetching (some kid), begun⟩) :
      Does cfg pyJwk s (.fetched i web now)
        { (s.refreshed cfg pyJwk web now).1.answer i kid begun
            (resultOf (s.refreshed cfg pyJwk web now).1.keys kid) with holder := none }
  | cancels {i} : Does cfg pyJwk s (.cancel i)
      { s with
        calls := s.calls.delete fun j _ => j = i
        holder := if s.holder = some i then none else s.holder }

/-! ## Every answer is from the newest key set -/

/-- The key set in force after `n` successful fetches. -/
def newest (fetches : List (KeySet κ)) : Nat → Option (KeySet κ)
  | 0 => none
  | n + 1 => fetches[n]?

variable {fetches : List (KeySet κ)}

theorem newest_append {n : Nat} (h : n ≤ fetches.length) (set : KeySet κ) :
    newest (fetches ++ [set]) n = newest fetches n := by
  cases n with
  | zero => rfl
  | succ n => exact List.getElem?_append_left h

theorem newest_mem {n : Nat} {set : KeySet κ} (h : newest fetches n = some set) : set ∈ fetches := by
  cases n with
  | zero => cases h
  | succ n => exact mem_of_getElem? h

theorem newest_eq_none {n : Nat} (hn : n ≤ fetches.length) (h : newest fetches n = none) : n = 0 := by
  cases n with
  | zero => rfl
  | succ n =>
    have := List.getElem?_eq_none_iff.1 h
    omega

theorem resultOf_of_hit {s : State κ} {kid : String} {k : κ} (h : s.hit kid = some k) : resultOf s.keys kid = .key k := by
  obtain ⟨keys, hkeys, hk⟩ := bind_eq_some_iff.1 h
  unfold resultOf
  rw [hkeys]
  dsimp only
  rw [hk]

theorem hit_of_freshHit {cfg : Config} {s : State κ} {kid : String} {now : Int} {k : κ}
    (h : s.freshHit cfg kid now = some k) : s.hit kid = some k := by
  unfold State.freshHit at h
  split at h
  · exact h
  · cases h

theorem does_step {cfg : Config} {pyJwk : JObj → Parsed κ} {s : State κ} (act : Act) :
    Does cfg pyJwk s act (step cfg pyJwk s act) := by
  cases act with
  | key i kid now =>
    unfold step
    dsimp only
    split
    · exact .stays _
    · next hi =>
      rw [Bool.not_eq_true, isSome_eq_false_iff, isNone_iff_eq_none] at hi
      split
      · next k hk => exact .hits hi (hit_of_freshHit hk) (Or.inl (by rw [hk]; rfl))
      · split
        · next k hk =>
          split
          · next hold =>
            rw [Bool.or_eq_true, Bool.not_eq_true'] at hold
            exact .hits hi hk (Or.inr hold)
          · exact .waits hi
        · exact .waits hi
  | refresh i now =>
    unfold step
    dsimp only
    split
    · exact .stays _
    · next hi =>
      rw [Bool.not_eq_true, isSome_eq_false_iff, isNone_iff_eq_none] at hi
      exact .prefetches hi
  | lock i now now' =>
    unfold step
    dsimp only
    split
    · next kid begun hc =>
      split
      · exact .stays _
      · next hfree =>
        rw [Bool.not_eq_true, isSome_eq_false_iff, isNone_iff_eq_none] at hfree
        split
        · next k hk =>
          rw [← resultOf_of_hit (hit_of_freshHit hk)]
          exact .answers hc hfree (Or.inl (by rw [hk]; rfl))
        · split
          · next hdue =>
            rw [Bool.and_eq_true] at hdue
            exact .fetches hc hfree hdue.2
          · next hnot =>
            rw [Bool.and_eq_true, Bool.or_eq_true] at hnot
            refine .answers hc hfree (Or.inr ?_)
            by_cases hstale : s.stale cfg now = true
            · exact Or.inr (Bool.eq_false_of_not_eq_true fun hmay => hnot ⟨Or.inl hstale, hmay⟩)
            · exact Or.inl (Bool.eq_false_of_not_eq_true hstale)
    · exact .stays _
  | fetched i web now =>
    unfold step
    dsimp only
    split
    · next begun hc => exact .prefetched hc
    · next kid begun hc => exact .returns hc
    · exact .stays _
  | cancel i => exact .cancels

structure Recorded (s : State κ) : Prop where
  keys : s.keys = newest s.fetches s.fetches.length
  begun : ∀ i c, s.calls.get? i = some c → c.begun ≤ s.fetches.length
  answers : ∀ a ∈ s.answers, a.begun ≤ a.ended ∧ a.ended ≤ s.fetches.length ∧
    a.result = resultOf (newest s.fetches a.ended) a.kid

theorem get?_of_delete {calls : Table Nat Call} {i j : Nat} {c : Call}
    (h : (calls.delete fun j _ => j = i).get? j = some c) : calls.get? j = some c := by
  rw [Table.get?_delete, filter_eq_some_iff] at h
  exact h.1

section steps

variable {cfg : Config} {pyJwk : JObj → Parsed κ} {s : State κ}

variable {i : Nat}

theorem Recorded.answer (h : Recorded s) {begun : Nat} {kid : String} {result : Result κ}
    (hbegun : begun ≤ s.fetches.length) (hresult : result = resultOf s.keys kid) :
    Recorded (s.answer i kid begun result) := by
  refine ⟨h.keys, fun j c hc => h.begun j c (get?_of_delete hc), ?_⟩
  intro a ha
  rcases mem_append.1 ha with ha | ha
  · exact h.answers a ha
  · rw [mem_singleton.1 ha]
    refine ⟨hbegun, Nat.le_refl _, ?_⟩
    rw [hresult, h.keys]
    rfl

theorem Recorded.with (h : Recorded s) {calls : Table Nat Call} (holder : Option Nat) (attempted : Option Int)
    (hbegun : ∀ i c, calls.get? i = some c → c.begun ≤ s.fetches.length) :
    Recorded { s with calls := calls, holder := holder, attemptedAt := attempted } :=
  ⟨h.keys, hbegun, h.answers⟩

theorem Recorded.upsert (h : Recorded s) {c : Call} (hc : c.begun ≤ s.fetches.length) :
    ∀ j c', (s.calls.upsert i c).get? j = some c' → c'.begun ≤ s.fetches.length := by
  intro j c' hc'
  rw [Table.get?_upsert] at hc'
  split at hc'
  · cases hc'
    exact hc
  · exact h.begun j c' hc'

theorem refreshed_calls (web : Web) (now : Int) : (s.refreshed cfg pyJwk web now).1.calls = s.calls := by
  unfold State.refreshed
  split
  · rfl
  · split <;> rfl

theorem length_refreshed (web : Web) (now : Int) : s.fetches.length ≤ (s.refreshed cfg pyJwk web now).1.fetches.length := by
  unfold State.refreshed
  split
  · exact Nat.le_refl _
  · split
    · exact Nat.le_refl _
    · simp

theorem Recorded.refreshed (h : Recorded s) (web : Web) (now : Int) : Recorded (s.refreshed cfg pyJwk web now).1 := by
  unfold State.refreshed
  split
  · exact h
  · next set _ =>
    split
    · exact h
    · refine ⟨?_, ?_, ?_⟩
      · simp [newest]
      · intro i c hc
        have := h.begun i c hc
        simp only [length_append, length_singleton]
        omega
      · intro a ha
        obtain ⟨hbegun, hended, hresult⟩ := h.answers a ha
        refine ⟨hbegun, ?_, ?_⟩
        · simp only [length_append, length_singleton]
          omega
        · rw [newest_append hended]
          exact hresult

theorem Recorded.step (h : Recorded s) (act : Act) : Recorded (step cfg pyJwk s act) := by
  have hdoes : Does cfg pyJwk s act (Identity.step cfg pyJwk s act) := does_step act
  generalize Identity.step cfg pyJwk s act = s' at hdoes
  cases hdoes with
  | stays => exact h
  | hits _ hit _ => exact h.answer (Nat.le_refl _) (resultOf_of_hit hit).symm
  | waits _ => exact h.with s.holder s.attemptedAt (h.upsert (Nat.le_refl _))
  | prefetches _ => exact h.with s.holder _ (h.upsert (Nat.le_refl _))
  | answers hcall _ _ => exact h.answer (h.begun _ _ hcall) rfl
  | fetches hcall _ _ =>
    have hbegun := h.begun _ _ hcall
    exact h.with _ _ (h.upsert hbegun)
  | @prefetched i web now begun _ =>
    have hrec : Recorded (s.refreshed cfg pyJwk web now).1 := h.refreshed web now
    exact hrec.with _ _ fun j c hc => hrec.begun j c (get?_of_delete hc)
  | @returns i web now kid begun hcall =>
    have hrec : Recorded (s.refreshed cfg pyJwk web now).1 := h.refreshed web now
    have hans : Recorded ((s.refreshed cfg pyJwk web now).1.answer i kid begun _) :=
      hrec.answer (le_trans (h.begun _ _ hcall) (length_refreshed web now)) rfl
    exact hans.with none _ hans.begun
  | cancels => exact h.with _ _ fun j c hc => h.begun j c (get?_of_delete hc)

/-! ## Where the keys come from -/

/-- The fetch of this cache's URL that delivered the key set. -/
def Act.delivers (cfg : Config) (pyJwk : JObj → Parsed κ) (set : KeySet κ) : Act → Prop
  | .fetched _ web _ => (web cfg.url).bind (rsaKeys pyJwk) = some set
  | _ => False

theorem fetches_refreshed (web : Web) (now : Int) : ∀ set ∈ (s.refreshed cfg pyJwk web now).1.fetches,
    set ∈ s.fetches ∨ (web cfg.url).bind (rsaKeys pyJwk) = some set := by
  intro set hset
  unfold State.refreshed at hset
  split at hset
  · exact Or.inl hset
  · next set' hset' =>
    split at hset
    · exact Or.inl hset
    · rcases mem_append.1 hset with hset | hset
      · exact Or.inl hset
      · rw [mem_singleton.1 hset]
        exact Or.inr hset'

theorem fetches_step (act : Act) : ∀ set ∈ (step cfg pyJwk s act).fetches,
    set ∈ s.fetches ∨ act.delivers cfg pyJwk set := by
  have hdoes : Does cfg pyJwk s act (step cfg pyJwk s act) := does_step act
  generalize step cfg pyJwk s act = s' at hdoes
  intro set hset
  cases hdoes with
  | prefetched _ => exact fetches_refreshed _ _ set hset
  | returns _ => exact fetches_refreshed _ _ set hset
  | _ => exact Or.inl hset

/-! ## The lock -/

/-- Whoever has the lock is at its fetch. -/
def LockHeld (s : State κ) : Prop :=
  ∀ j, s.holder = some j → ∃ kid begun, s.calls.get? j = some ⟨.fetching (some kid), begun⟩

theorem get?_delete_of_ne {calls : Table Nat Call} {j : Nat} (h : j ≠ i) :
    (calls.delete fun j _ => j = i).get? j = calls.get? j := by
  rw [Table.get?_delete]
  cases calls.get? j <;> simp [h]

theorem get?_delete_self (calls : Table Nat Call) (i : Nat) : (calls.delete fun j _ => j = i).get? i = none := by
  cases calls.get? i <;> simp

theorem LockHeld.keep (h : LockHeld s) {s' : State κ} (hkeep : ∀ j, s'.holder = some j → s.holder = some j ∧
      ∀ c, s.calls.get? j = some c → s'.calls.get? j = some c) : LockHeld s' := by
  intro j hj
  obtain ⟨hold, hcall⟩ := hkeep j hj
  obtain ⟨kid, begun, hc⟩ := h j hold
  exact ⟨kid, begun, hcall _ hc⟩

theorem LockHeld.open (h : LockHeld s) (hi : s.calls.get? i = none) (pc : Pc)
    (attempted : Option Int) : LockHeld { s.open i pc with attemptedAt := attempted } := by
  refine h.keep fun j hj => ⟨hj, fun c hc => ?_⟩
  have hne : j ≠ i := by
    rintro rfl
    rw [hi] at hc
    cases hc
  show (s.calls.upsert i _).get? j = some c
  rw [Table.get?_upsert, if_neg hne]
  exact hc

theorem LockHeld.delete (h : LockHeld s) {s' : State κ} (hnot : s'.holder ≠ some i)
    (hholder : ∀ j, s'.holder = some j → s.holder = some j)
    (hcalls : s'.calls = s.calls.delete fun j _ => j = i) : LockHeld s' := by
  refine h.keep fun j hj => ⟨hholder j hj, fun c hc => ?_⟩
  have hne : j ≠ i := by
    rintro rfl
    exact hnot hj
  rw [hcalls, get?_delete_of_ne hne]
  exact hc

theorem refreshed_holder (web : Web) (now : Int) : (s.refreshed cfg pyJwk web now).1.holder = s.holder := by
  unfold State.refreshed
  split
  · rfl
  · split <;> rfl

theorem LockHeld.step (h : LockHeld s) (act : Act) : LockHeld (step cfg pyJwk s act) := by
  have hdoes : Does cfg pyJwk s act (Identity.step cfg pyJwk s act) := does_step act
  generalize Identity.step cfg pyJwk s act = s' at hdoes
  have hfetching : ∀ i, s.holder = some i → ∀ c, s.calls.get? i = some c → ∃ kid, c.pc = .fetching (some kid) := by
    intro i hold c hc
    obtain ⟨kid, begun, hc'⟩ := h i hold
    rw [hc] at hc'
    exact ⟨kid, by rw [Option.some.inj hc']⟩
  cases hdoes with
  | stays => exact h
  | @hits i _ _ _ hnew _ _ =>
    refine h.delete (i := i) (fun hold => ?_) (fun _ hj => hj) rfl
    obtain ⟨kid, begun, hc⟩ := h i hold
    rw [hnew] at hc
    cases hc
  | waits hnew => exact h.open hnew _ s.attemptedAt
  | prefetches hnew => exact h.open hnew _ _
  | answers _ hfree _ =>
    intro j hj
    exact absurd (hfree.symm.trans hj) (by simp)
  | fetches _ _ _ =>
    intro j hj
    cases Option.some.inj hj
    exact ⟨_, _, by rw [Table.get?_upsert, if_pos rfl]⟩
  | @prefetched i web now begun hcall =>
    refine h.delete (i := i) (fun hold => ?_) (fun j hj => ?_) ?_
    · obtain ⟨kid, hpc⟩ := hfetching i ((refreshed_holder web now).symm.trans hold) _ hcall
      cases hpc
    · exact (refreshed_holder web now).symm.trans hj
    · rw [refreshed_calls]
  | returns _ =>
    intro j hj
    cases hj
  | @cancels i =>
    refine h.delete (i := i) ?_ (fun j hj => ?_) rfl
    · show (if s.holder = some i then none else s.holder) ≠ some i
      split
      · exact some_ne_none i ∘ Eq.symm
      · next hne => exact hne
    · have hj' : (if s.holder = some i then none else s.holder) = some j := hj
      split at hj'
      · cases hj'
      · exact hj'

/-! ## Every call is answered -/

def Pc.asks (kid : String) : Pc → Prop
  | .waiting kid' => kid' = kid
  | .fetching kid' => kid' = some kid

/-- The call has ended, and if it asked for a key it was answered. -/
def Ended (i : Nat) (c : Call) (s : State κ) : Prop :=
  s.calls.get? i = none ∧
    ∀ kid, c.pc.asks kid → ∃ a ∈ s.answers, a.call = i ∧ a.kid = kid ∧ a.begun = c.begun

/-- A step of a call that is already open; the web answers `web` and the clock says `now`. -/
def Act.goesOn (web : Web) (now : Int) : Act → Prop
  | .lock _ t t' => t = now ∧ t' = now
  | .fetched _ web' t => web' = web ∧ t = now
  | _ => False

theorem ended_of_fetching {kid : Option String} {begun : Nat}
    (hc : s.calls.get? i = some ⟨.fetching kid, begun⟩) (web : Web) (now : Int) :
    Ended i ⟨.fetching kid, begun⟩ (step cfg pyJwk s (.fetched i web now)) := by
  unfold step
  dsimp only
  rw [hc]
  cases kid with
  | none =>
    refine ⟨get?_delete_self _ _, fun kid' hkid => ?_⟩
    cases hkid
  | some kid =>
    refine ⟨get?_delete_self _ _, fun kid' hkid => ?_⟩
    cases hkid
    exact ⟨_, mem_append_right _ (mem_singleton_self _), rfl, rfl, rfl⟩

theorem ended_of_free {kid : String} {begun : Nat} (hfree : s.holder = none)
    (hc : s.calls.get? i = some ⟨.waiting kid, begun⟩) (web : Web) (now : Int) :
    ∃ more, (∀ act ∈ more, Act.goesOn web now act) ∧ Ended i ⟨.waiting kid, begun⟩ (run (step cfg pyJwk) s more) := by
  have hans : ∀ result, Ended i ⟨.waiting kid, begun⟩ (s.answer i kid begun result) := by
    intro result
    refine ⟨get?_delete_self _ _, fun kid' hkid => ?_⟩
    cases hkid
    exact ⟨_, mem_append_right _ (mem_singleton_self _), rfl, rfl, rfl⟩
  have hlock : Ended i ⟨.waiting kid, begun⟩ (step cfg pyJwk s (.lock i now now)) ∨
      (step cfg pyJwk s (.lock i now now)).calls.get? i = some ⟨.fetching (some kid), begun⟩ := by
    unfold step
    dsimp only
    rw [hc]
    dsimp only
    rw [hfree, if_neg (by simp)]
    split
    · exact Or.inl (hans _)
    · split
      · right
        show (s.calls.upsert i _).get? i = _
        rw [Table.get?_upsert, if_pos rfl]
      · exact Or.inl (hans _)
  rcases hlock with hended | hfetching
  · exact ⟨[.lock i now now], by simp [Act.goesOn], hended⟩
  · refine ⟨[.lock i now now, .fetched i web now], by simp [Act.goesOn], ?_⟩
    have hended : Ended i _ (step cfg pyJwk (step cfg pyJwk s (.lock i now now)) (.fetched i web now)) :=
      ended_of_fetching hfetching web now
    exact ⟨hended.1, fun kid' hkid => hended.2 kid' (congrArg some hkid)⟩

theorem ended_of_open (h : LockHeld s) {c : Call} (hc : s.calls.get? i = some c) (web : Web)
    (now : Int) : ∃ more, (∀ act ∈ more, Act.goesOn web now act) ∧ Ended i c (run (step cfg pyJwk) s more) := by
  obtain ⟨pc, begun⟩ := c
  cases pc with
  | fetching kid => exact ⟨[.fetched i web now], by simp [Act.goesOn], ended_of_fetching hc web now⟩
  | waiting kid =>
    cases hold : s.holder with
    | none => exact ended_of_free hold hc web now
    | some j =>
      -- the holder's fetch ends first
      obtain ⟨kid', begun', hj⟩ := h j hold
      have hne : i ≠ j := by
        rintro rfl
        rw [hc] at hj
        cases hj
      have hfree : (step cfg pyJwk s (.fetched j web now)).holder = none ∧
          (step cfg pyJwk s (.fetched j web now)).calls.get? i = some ⟨.waiting kid, begun⟩ := by
        unfold step
        dsimp only
        rw [hj]
        refine ⟨rfl, ?_⟩
        show (Table.delete (s.refreshed cfg pyJwk web now).1.calls fun k _ => k = j).get? i = _
        rw [get?_delete_of_ne hne, refreshed_calls]
        exact hc
      obtain ⟨more, hmore, hended⟩ := ended_of_free hfree.1 hfree.2 web now
      refine ⟨.fetched j web now :: more, ?_, hended⟩
      intro act hact
      rcases mem_cons.1 hact with rfl | hact
      · exact ⟨rfl, rfl⟩
      · exact hmore act hact

end steps

/-! ## Every run -/

/-- The key set in force after `n` fetches has the key. -/
def Has (fetches : List (KeySet κ)) (kid : String) (n : Nat) : Prop :=
  ∃ set, newest fetches n = some set ∧ (set.get? kid).isSome

/-- **The key cache.**  For every interleaving: a call of `key` during which every key set in force had
the key returns it from the newest of them; `AuthUnavailable` is raised only before the first fetch
succeeds; a key returned was delivered by a fetch of the cache's URL; and every open call can be answered,
whatever the web answers. -/
theorem jwks_key_answers (cfg : Config) (pyJwk : JObj → Parsed κ) (acts : List Act) :
    let s := run (step cfg pyJwk) init acts
    (∀ a ∈ s.answers,
      ((∀ n, a.begun ≤ n → n ≤ a.ended → Has s.fetches a.kid n) →
        ∃ k set, a.result = .key k ∧ set.get? a.kid = some k ∧
          (newest s.fetches a.begun = some set ∨ newest s.fetches a.ended = some set)) ∧
      (a.result = .authUnavailable → a.ended = 0) ∧
      ∀ k, a.result = .key k → ∃ act ∈ acts, ∃ set : KeySet κ,
        act.delivers cfg pyJwk set ∧ set.get? a.kid = some k) ∧
    ∀ i c, s.calls.get? i = some c → ∀ web now, ∃ more, (∀ act ∈ more, Act.goesOn web now act) ∧
      Ended i c (run (step cfg pyJwk) s more) := by
  intro s
  have hrec : Recorded s := by
    refine run_of_step (fun s act h => h.step act) acts ⟨rfl, ?_, ?_⟩
    · intro i c hc
      cases hc
    · intro a ha
      cases ha
  have hheld : LockHeld s := by
    refine run_of_step (fun s act h => h.step act) acts ?_
    intro j hj
    cases hj
  have hfrom : ∀ set ∈ s.fetches, ∃ act ∈ acts, act.delivers cfg pyJwk set := by
    have hall : Along (step cfg pyJwk) (fun _ act => act ∈ acts) init acts :=
      along_of_forall fun act hact => hact
    refine (hall.always (I := fun s => ∀ set ∈ s.fetches, ∃ act ∈ acts, act.delivers cfg pyJwk set)
      (fun s act h hact set hset => ?_) ?_).run
    · rcases fetches_step act set hset with hset | hdel
      · exact h set hset
      · exact ⟨act, hact, hdel⟩
    · intro set hset
      cases hset
  refine ⟨?_, fun i c hc web now => ended_of_open hheld hc web now⟩
  intro a ha
  obtain ⟨hbegun, hended, hresult⟩ := hrec.answers a ha
  refine ⟨?_, ?_, ?_⟩
  · intro hhas
    obtain ⟨set, hset, hsome⟩ := hhas a.ended hbegun (Nat.le_refl _)
    obtain ⟨k, hk⟩ := Option.isSome_iff_exists.1 hsome
    refine ⟨k, set, ?_, hk, Or.inr hset⟩
    rw [hresult, hset]
    unfold resultOf
    dsimp only
    rw [hk]
  · intro hunavailable
    rw [hresult] at hunavailable
    unfold resultOf at hunavailable
    split at hunavailable
    · next hnone => exact newest_eq_none hended hnone
    · split at hunavailable <;> cases hunavailable
  · intro k hk
    rw [hresult] at hk
    unfold resultOf at hk
    split at hk
    · cases hk
    · next set hset =>
      split at hk
      · cases hk
      · next k' hk' =>
        cases hk
        obtain ⟨act, hact, hdel⟩ := hfrom set (newest_mem hset)
        exact ⟨act, hact, set, hdel, hk'⟩

def oneKey (kid : String) : Web := fun _ =>
  some (.obj [("keys", .arr [.obj [("kty", .str "RSA"), ("kid", .str kid), ("n", .str kid)]])])

def modulus (jwk : JObj) : Parsed String :=
  match jwk.at? "n" with
  | some (.str n) => .key n
  | _ => .pyJwtError

/-- A prefetch delivers key `a`; after the TTL a call asks for it, and its own fetch delivers `b` alone. -/
def rotated : List Act :=
  [.refresh 0 0, .fetched 0 (oneKey "a") 0, .key 1 "a" 4000000, .lock 1 4000000 4000000,
    .fetched 1 (oneKey "b") 4000000]

/-- A call that starts while the newest set has the key raises `InvalidToken` when the set it waits for
does not. -/
theorem rotated_refused : ¬∀ (acts : List Act),
    let s := run (step ⟨"https://issuer/jwks", 3600000, 60000, 5000⟩ modulus) init acts
    ∀ a ∈ s.answers, Has s.fetches a.kid a.begun →
      ∃ k set, a.result = .key k ∧ set.get? a.kid = some k ∧
        (newest s.fetches a.begun = some set ∨ newest s.fetches a.ended = some set) := by
  intro h
  have hanswers : (run (step ⟨"https://issuer/jwks", 3600000, 60000, 5000⟩ modulus) init rotated).answers =
      [⟨1, "a", .invalidToken, 1, 2⟩] := by
    decide +kernel
  have hset : ((newest (run (step ⟨"https://issuer/jwks", 3600000, 60000, 5000⟩ modulus) init rotated).fetches
      1).bind (·.get? "a")).isSome = true := by
    decide +kernel
  obtain ⟨k, hk⟩ := Option.isSome_iff_exists.1 hset
  obtain ⟨set, hnewest, hget⟩ := Option.bind_eq_some_iff.1 hk
  obtain ⟨k', -, hresult, -⟩ := h rotated ⟨1, "a", .invalidToken, 1, 2⟩
    (by
      rw [hanswers]
      exact mem_singleton_self _)
    ⟨set, hnewest, by rw [hget]; rfl⟩
  cases hresult

end CisApp.Identity
