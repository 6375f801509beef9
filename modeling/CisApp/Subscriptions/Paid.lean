import CisApp.Subscriptions.Writers

/-! An active account is a paid one.

The moves of one tenant, one after the other: creates, the two ticks, the legacy lock and unlock of `PATCH
/admin/tenants`, offboarding and restore (`api/routers/admin.py`).  What matters is the status of the account beside that
of its content subscription (`Standing`): an active account has active content and one that has left has canceled
content (`Kept`).  The ticks read the content before they make an account active, and a restore finds canceled content,
which the bridge of migration 355 reopens.

The unlock is the one move that looks at nothing: migration 354 makes a suspended account active whatever its content
is. -/

namespace CisApp.Subscriptions

open Lib List Option
open Entitlements (Status SuspendReason Account AccountSet AccountNew SubStatus insertedAccount updatedAccount derivedStatus)

/-! ## Moves -/

/-- `tenant_status` of `admin.py`. -/
inductive TenantStatus where
  | offboarded
  | active
  | suspended
deriving Repr, DecidableEq

def tenantStatus (st : Status) : TenantStatus :=
  if st.ended then .offboarded else if st.live then .active else .suspended

inductive Move where
  /-- `_create` and `_add_ons_step` of `provision.py`. -/
  | create (planTier plan : String) (trialEndsAt : Option Nat) (addOns : List Wanted)
  | endTrials (now today : Nat) (skips : List Product) (oneByOne : Bool) (plan : String)
  | billing (view : ViewStatus) (paidThrough : Option Nat) (today : Nat) (plan : String)
  /-- `PATCH {"is_active": …}`. -/
  | patchActive (isActive : Bool) (plan : String)
  | offboard (plan : String)
  | restore (plan : String)
deriving Repr, DecidableEq

def Cells.accountStatus (rows : Cells) (t : Nat) : Option Status := (rows.account? t).map (·.1.status)

def Cells.contentStatus (rows : Cells) (t : Nat) : Option SubStatus := (rows.sub? t .content).map (·.status)

/-- The transaction of the move, `none` where the row that was read refuses it or leaves nothing to write. -/
def Move.request (t : Nat) (rows : Cells) : Move → Option Request
  | .create tier plan trialEndsAt addOns =>
    some (.create t ⟨if trialEndsAt.isSome then .trial else .active, none, true, false⟩ tier plan trialEndsAt addOns)
  | .endTrials now today skips oneByOne plan => some (.endTrials t now today skips oneByOne plan)
  | .billing view paidThrough today plan => some (.billing t view paidThrough today plan)
  | .patchActive isActive plan =>
    match rows.accountStatus t with
    | none => none
    | some st =>
      if tenantStatus st = .offboarded ∨ isActive = st.live then none
      else some (.updates t [⟨⟨none, none, some isActive, none⟩, none, plan⟩])
  | .offboard plan =>
    match rows.accountStatus t with
    | none => none
    | some st =>
      if tenantStatus st = .offboarded then none
      else some (.updates t [⟨⟨some .offboarding, none, some false, some .other⟩, none, plan⟩])
  | .restore plan =>
    match rows.accountStatus t with
    | none => none
    | some st =>
      if tenantStatus st = .offboarded then
        some (.updates t [⟨⟨some .active, none, some true, some .null⟩, none, plan⟩])
      else none

def Commits (t : Nat) (rows : Cells) (m : Move) (rows' : Cells) : Prop :=
  ∃ r data, m.request t rows = some r ∧
    subscriptions.Does () rows (subscriptions.data r) (subscriptions.program r) rows' data

/-- The moves so far, the last one first, each with the rows that it found. -/
inductive History (t : Nat) (start : Cells) : List (Cells × Move) → Cells → Prop
  | begin : History t start [] start
  | committed {past : List (Cells × Move)} {rows rows' : Cells} {m : Move} (h : History t start past rows)
      (hm : Commits t rows m rows') : History t start ((rows, m) :: past) rows'
  | failed {past : List (Cells × Move)} {rows : Cells} (m : Move) (h : History t start past rows) :
      History t start ((rows, m) :: past) rows

/-- The moves as they are played, each within a hundred statements. -/
def replay (t : Nat) (past : List (Cells × Move)) (rows : Cells) : List Move → Option (List (Cells × Move) × Cells)
  | [] => some (past, rows)
  | m :: ms =>
    match m.request t rows with
    | none => none
    | some r =>
      match subscriptions.play () 100 rows (subscriptions.data r) (subscriptions.program r) with
      | none => none
      | some w => replay t ((rows, m) :: past) w.1 ms

theorem History.replay {t : Nat} {start rows : Cells} {past : List (Cells × Move)} (h : History t start past rows)
    {ms : List Move} {w : List (Cells × Move) × Cells} (hw : Subscriptions.replay t past rows ms = some w) :
    History t start w.1 w.2 := by
  induction ms generalizing past rows with
  | nil =>
    cases hw
    exact h
  | cons m ms ih =>
    unfold Subscriptions.replay at hw
    split at hw
    · cases hw
    · next r hr =>
      split at hw
      · cases hw
      · next v hv => exact ih (h.committed ⟨r, v.2, hr, does_of_play hv⟩) hw

def Cells.UnpaidUnlock (rows : Cells) (t : Nat) : Move → Prop
  | .patchActive isActive _ =>
    isActive = true ∧ (rows.accountStatus t).map tenantStatus = some .suspended ∧ rows.contentStatus t ≠ some .active
  | _ => False

instance (rows : Cells) (t : Nat) (m : Move) : Decidable (rows.UnpaidUnlock t m) :=
  match m with
  | .patchActive _ _ => inferInstanceAs (Decidable (_ ∧ _ ∧ _))
  | .create _ _ _ _ | .endTrials _ _ _ _ _ | .billing _ _ _ _ | .offboard _ | .restore _ =>
    inferInstanceAs (Decidable False)

/-! ## The account beside its content -/

abbrev Standing := Option Status × Option SubStatus

def Cells.standing (rows : Cells) (t : Nat) : Standing := (rows.accountStatus t, rows.contentStatus t)

def Kept : Standing → Prop
  | (none, content) => content = none
  | (some st, content) =>
    content.isSome ∧ (st = .active → content = some .active) ∧ (st.ended = true → content = some .canceled)

theorem standing_addOn (rows : Cells) (t : Nat) (a : AddOn) (c : Cell) :
    (Cells.standing (overlay rows [(.sub t (.addOn a), c)]) t) = rows.standing t := by
  unfold Cells.standing Cells.accountStatus Cells.contentStatus Cells.account? Cells.sub?
  simp [overlay]

theorem standing_content (rows : Cells) (t : Nat) (s : Sub) :
    (Cells.standing (overlay rows [(.sub t .content, .sub s)]) t) = (rows.accountStatus t, some s.status) := by
  unfold Cells.standing Cells.accountStatus Cells.contentStatus Cells.account? Cells.sub?
  simp [overlay]

theorem standing_account (rows : Cells) (t : Nat) (a : Account) (tier : String) :
    (Cells.standing (overlay rows [(.tenant t, .account a tier)]) t) = (some a.status, rows.contentStatus t) := by
  unfold Cells.standing Cells.accountStatus Cells.contentStatus Cells.account? Cells.sub?
  simp [overlay]

section statements

variable {rows rows' : Cells} {data data' : Local} {t : Nat} {e : SubEffect}

theorem put_standing {p : Product} {s : Sub} (h : put rows data t p s = .ok e) :
    e.more = [] ∧ e.data = data ∧ e.writes = [(.sub t p, .sub s)] := by
  unfold put at h
  split at h
  · cases h
    exact ⟨rfl, rfl, rfl⟩
  · cases h

theorem change_addOn {a : AddOn} {f : Sub → Option Sub} (h : change rows data t (.addOn a) f = .ok e) :
    e.more = [] ∧ e.data = data ∧ Cells.standing (overlay rows e.writes) t = rows.standing t := by
  unfold change at h
  split at h
  · cases h
    exact ⟨rfl, rfl, rfl⟩
  · split at h
    · cases h
      exact ⟨rfl, rfl, rfl⟩
    · obtain ⟨hmore, hdata, hwrites⟩ := put_standing h
      refine ⟨hmore, hdata, ?_⟩
      rw [hwrites]
      exact standing_addOn rows t a _

theorem change_content {f : Sub → Option Sub} (h : change rows data t .content f = .ok e) :
    e.more = [] ∧ e.data = data ∧ Cells.standing (overlay rows e.writes) t =
      (rows.accountStatus t, (rows.sub? t .content).map fun s => ((f s).getD s).status) := by
  unfold change at h
  split at h
  · next hnone =>
    cases h
    refine ⟨rfl, rfl, ?_⟩
    show (rows.accountStatus t, rows.contentStatus t) = _
    unfold Cells.contentStatus
    rw [hnone]
    rfl
  · next s hs =>
    rw [hs]
    split at h
    · next hf =>
      cases h
      refine ⟨rfl, rfl, ?_⟩
      show (rows.accountStatus t, rows.contentStatus t) = _
      unfold Cells.contentStatus
      rw [hs, map_some, map_some, hf]
      rfl
    · next s' hf =>
      obtain ⟨hmore, hdata, hwrites⟩ := put_standing h
      refine ⟨hmore, hdata, ?_⟩
      rw [hwrites, standing_content, map_some, hf]
      rfl

def Op.beside : Op → Bool
  | .update _ among => among.all (· ≠ .content)
  | .visit _ p => p ≠ .content
  | .insertAddOn _ _ | .addOnRow _ _ => true
  | _ => false

variable {op : Op}

theorem exec_beside (hop : op.beside = true) (h : exec rows data t op = .ok e) :
    (∀ st ∈ e.more, st.tenant = t ∧ st.op.beside = true) ∧ Cells.standing (overlay rows e.writes) t = rows.standing t := by
  cases op with
  | update c among =>
    cases h
    refine ⟨fun st hst => ?_, rfl⟩
    obtain ⟨p, hp, rfl⟩ := mem_map.1 hst
    exact ⟨rfl, List.all_eq_true.1 hop p (mem_filter.1 hp).1⟩
  | visit c p =>
    cases p with
    | content => cases hop
    | addOn a =>
      obtain ⟨hmore, -, hrows⟩ := change_addOn h
      refine ⟨?_, hrows⟩
      rw [hmore]
      exact fun _ hst => absurd hst not_mem_nil
  | insertAddOn w mode =>
    unfold exec at h
    dsimp only at h
    split at h
    · cases h
      refine ⟨fun st hst => ?_, rfl⟩
      obtain rfl := mem_singleton.1 hst
      exact ⟨rfl, rfl⟩
    · cases h
  | addOnRow w mode =>
    unfold exec at h
    dsimp only at h
    split at h
    · cases h
      exact ⟨fun _ hst => absurd hst not_mem_nil, standing_addOn rows t _ _⟩
    · obtain ⟨hmore, -, hrows⟩ := change_addOn h
      refine ⟨?_, hrows⟩
      rw [hmore]
      exact fun _ hst => absurd hst not_mem_nil
  | _ => cases hop

variable {todo : List Stmt}

theorem does_beside (h : subscriptions.Does () rows data todo rows' data')
    (hall : ∀ st ∈ todo, st.tenant = t ∧ st.op.beside = true) : rows'.standing t = rows.standing t := by
  refine Service.Does.invariant (fun st : Stmt => st.tenant = t ∧ st.op.beside = true)
    (fun r _ => Cells.standing r t = rows.standing t) ?_ ?_ h hall rfl
  · rintro r m ⟨u, op⟩ e ⟨rfl, hop⟩ hexec
    exact (exec_beside hop hexec).1
  · rintro r m ⟨u, op⟩ e ⟨rfl, hop⟩ hexec hr
    exact (exec_beside hop hexec).2.trans hr

theorem does_single {st : Stmt} (h : subscriptions.Does () rows data [st] rows' data') :
    ∃ e, exec rows data st.tenant st.op = .ok e ∧
      subscriptions.Does () (overlay rows e.writes) e.data e.more rows' data' := by
  obtain ⟨e, hexec, hrest⟩ := h.next
  rw [append_nil] at hrest
  exact ⟨e, hexec, hrest⟩

theorem does_updateContent {c : Change}
    (h : subscriptions.Does () rows data [⟨t, .update c [.content]⟩] rows' data') :
    rows'.standing t = (rows.accountStatus t, (rows.sub? t .content).map fun s => ((c.apply s).getD s).status) := by
  obtain ⟨e, hexec, hrest⟩ := does_single h
  cases hexec
  by_cases hsome : ((rows.sub? t .content).bind (c.apply ·)).isSome = true
  · rw [filter_cons, if_pos hsome] at hrest
    obtain ⟨e, hexec, hrest⟩ := does_single hrest
    obtain ⟨hmore, -, hrows⟩ := change_content hexec
    rw [hmore] at hrest
    rw [hrest.done.1]
    exact hrows
  · rw [filter_cons, if_neg hsome] at hrest
    rw [hrest.done.1]
    show (rows.accountStatus t, rows.contentStatus t) = _
    unfold Cells.contentStatus
    cases hs : rows.sub? t .content with
    | none => rfl
    | some s =>
      rw [hs] at hsome
      have hnone : c.apply s = none := by simpa using hsome
      rw [map_some, map_some, hnone]
      rfl

/-! ## The bridge -/

/-- The content after the bridge of an account that goes from `old` to `new`. -/
def bridged (old : Option Status) (new : Status) : Option SubStatus → SubStatus
  | none => if new.ended then .canceled else .active
  | some c => if new.ended then .canceled else if old.any (·.ended) && c = .canceled then .active else c

theorem moveContent_status (s : Sub) (closed reopening : Bool) (plan : Option String) :
    (((Change.moveContent closed reopening plan).apply s).getD s).status =
      if closed then .canceled else if reopening && s.status = .canceled then .active else s.status := by
  unfold Change.apply
  dsimp only
  split
  · rfl
  · next h =>
    cases closed <;> cases reopening <;> simp_all

variable {plan : String}

theorem does_bridge {old : Option Status} {new : Status} {tierMoved : Bool}
    (h : subscriptions.Does () rows data [⟨t, .bridge old new tierMoved plan⟩] rows' data') :
    rows'.standing t = (rows.accountStatus t, some (bridged old new (rows.contentStatus t))) := by
  obtain ⟨e, hexec, hrest⟩ := does_single h
  unfold exec at hexec
  dsimp only at hexec
  unfold Cells.contentStatus
  split at hexec
  · next hnone =>
    cases hexec
    rw [hnone]
    obtain ⟨e, hexec, hrest⟩ := does_single hrest
    unfold exec at hexec
    dsimp only at hexec
    split at hexec
    · cases hexec
    · obtain ⟨hmore, -, hwrites⟩ := put_standing hexec
      rw [hmore] at hrest
      rw [hrest.done.1, hwrites]
      exact standing_content rows t _
  · next s hs =>
    cases hexec
    rw [hs]
    obtain ⟨rows₁, data₁, hcancel, hmove⟩ := hrest.append _ _ rfl
    have hsame : Cells.standing rows₁ t = rows.standing t := by
      refine does_beside hcancel fun st hst => ?_
      split at hst
      · obtain rfl := mem_singleton.1 hst
        exact ⟨rfl, rfl⟩
      · exact absurd hst not_mem_nil
    have hcontent := congrArg Prod.snd hsame
    have haccount := congrArg Prod.fst hsame
    rw [does_updateContent hmove, show Cells.accountStatus rows₁ t = _ from haccount]
    refine Prod.ext rfl ?_
    show (Cells.sub? rows₁ t .content).map _ = _
    have hmap : (Cells.sub? rows₁ t .content).map (·.status) = some s.status := by
      refine hcontent.trans ?_
      show (rows.sub? t .content).map _ = _
      rw [hs]
      rfl
    obtain ⟨s₁, hs₁, hst⟩ := map_eq_some_iff.1 hmap
    rw [hs₁, map_some, moveContent_status, hst, map_some]
    unfold bridged
    cases new.ended <;> rfl

/-- The status that an `UPDATE` of an account leaves. -/
def TenantSet.statusOf (set : TenantSet) (old : Status) : Status :=
  if set.account.names then derivedStatus old set.account else old

theorem kept_bridged {old new : Status} {content : Option SubStatus} (h : Kept (some old, content))
    (hnew : new = .active → old = .active ∨ content = some .active ∨ old.ended = true) :
    Kept (some new, some (bridged (some old) new content)) := by
  obtain ⟨hsome, hactive, hended⟩ := h
  obtain ⟨c, rfl⟩ := isSome_iff_exists.1 hsome
  refine ⟨rfl, fun hst => ?_, fun hst => ?_⟩
  · subst hst
    show some (if (some old).any (·.ended) && decide (c = .canceled) then SubStatus.active else c) = some .active
    rcases hnew rfl with hold | hc | hold
    · -- it was active
      cases hactive hold
      split <;> rfl
    · cases hc
      split <;> rfl
    · -- it comes back, and the content that was canceled with it
      cases hended hold
      rw [any_some, hold]
      rfl
  · unfold bridged
    dsimp only
    rw [if_pos hst]

theorem standing_of_account? {a : Account} {tier : String} (h : rows.account? t = some (a, tier)) :
    rows.accountStatus t = some a.status := by
  unfold Cells.accountStatus
  rw [h]
  rfl

theorem does_setAccount {set : TenantSet} (hop : exec rows data t op = setAccount rows data t set)
    (h : subscriptions.Does () rows data [⟨t, op⟩] rows' data') :
    rows'.standing t = rows.standing t ∧ (∀ st, rows.accountStatus t = some st → set.statusOf st = st) ∨
      ∃ st, rows.accountStatus t = some st ∧ rows'.standing t =
        (some (set.statusOf st), some (bridged (some st) (set.statusOf st) (rows.contentStatus t))) := by
  obtain ⟨e, hexec, hrest⟩ := does_single h
  rw [hop] at hexec
  unfold setAccount at hexec
  split at hexec
  · next hnone =>
    cases hexec
    rw [hrest.done.1]
    refine Or.inl ⟨rfl, fun st hst => ?_⟩
    unfold Cells.accountStatus at hst
    rw [hnone] at hst
    cases hst
  · next a tier ha =>
    have hstatus := standing_of_account? ha
    have hset : (if set.account.names then updatedAccount a set.account else a).status = set.statusOf a.status := by
      unfold TenantSet.statusOf
      split <;> rfl
    cases hexec
    generalize (if set.account.names then updatedAccount a set.account else a) = a' at hset hrest
    have hrows := standing_account rows t a' (set.planTier.getD tier)
    split at hrest
    · refine Or.inr ⟨a.status, hstatus, ?_⟩
      have haccount := congrArg Prod.fst hrows
      have hcontent := congrArg Prod.snd hrows
      rw [does_bridge hrest, show Cells.accountStatus _ t = _ from haccount,
        show Cells.contentStatus _ t = _ from hcontent, hset]
    · next hsame =>
      simp only [Bool.or_eq_true, decide_eq_true_eq, not_or, not_not] at hsame
      refine Or.inl ⟨?_, fun st hst => ?_⟩
      · rw [hrest.done.1, hrows, hsame.1, ← hstatus]
        rfl
      · rw [hstatus] at hst
        obtain rfl := Option.some.inj hst
        rw [← hset, hsame.1]

theorem kept_setAccount {set : TenantSet} (hop : exec rows data t op = setAccount rows data t set)
    (h : subscriptions.Does () rows data [⟨t, op⟩] rows' data') (hk : Kept (rows.standing t))
    (hnew : ∀ st, rows.accountStatus t = some st → set.statusOf st = .active →
      st = .active ∨ rows.contentStatus t = some .active ∨ st.ended = true) : Kept (rows'.standing t) := by
  rcases does_setAccount hop h with ⟨hsame, -⟩ | ⟨st, hst, hmoved⟩
  · rw [hsame]
    exact hk
  · rw [hmoved]
    refine kept_bridged ?_ (hnew st hst)
    rw [← hst]
    exact hk

/-! ## The moves -/

/-- Payments that are recorded, and subscriptions that are paid again. -/
def Op.pays : Op → Bool
  | .update (.payThrough _) _ | .update (.reactivate _) _ | .visit (.payThrough _) _ | .visit (.reactivate _) _ => true
  | _ => false

variable {st : Option Status}

theorem kept_status {s s' : Sub} (h : Kept (st, some s.status))
    (hs : s'.status = s.status ∨ s.status = .pastDue ∧ s'.status = .active) : Kept (st, some s'.status) := by
  rcases hs with hs | ⟨hold, hnew⟩
  · rw [hs]
    exact h
  · rw [hnew]
    rw [hold] at h
    cases st with
    | none => cases h
    | some st =>
      refine ⟨rfl, fun _ => rfl, fun hended => ?_⟩
      cases h.2.2 hended

theorem pays_status {c : Change} {p : Product} (hc : (Op.visit c p).pays = true) (s : Sub) :
    ((c.apply s).getD s).status = s.status ∨ s.status = .pastDue ∧ ((c.apply s).getD s).status = .active := by
  cases c with
  | payThrough day =>
    left
    unfold Change.apply
    dsimp only
    split <;> rfl
  | reactivate today =>
    unfold Change.apply
    dsimp only
    split
    · next h =>
      right
      simp only [Bool.and_eq_true, decide_eq_true_eq] at h
      exact ⟨h.1, rfl⟩
    · exact Or.inl rfl
  | _ => cases hc

theorem exec_pays (hop : op.pays = true) (h : exec rows data t op = .ok e) :
    (∀ st ∈ e.more, st.tenant = t ∧ st.op.pays = true) ∧ e.data = data ∧
      Cells.accountStatus (overlay rows e.writes) t = rows.accountStatus t ∧
      (Kept (rows.standing t) → Kept (Cells.standing (overlay rows e.writes) t)) := by
  cases op with
  | update c among =>
    cases h
    refine ⟨fun st hst => ?_, rfl, rfl, id⟩
    obtain ⟨p, -, rfl⟩ := mem_map.1 hst
    refine ⟨rfl, ?_⟩
    cases c with
    | payThrough day => rfl
    | reactivate today => rfl
    | _ => cases hop
  | visit c p =>
    cases p with
    | addOn a =>
      obtain ⟨hmore, hdata, hrows⟩ := change_addOn h
      rw [hmore, hrows]
      exact ⟨fun _ hst => absurd hst not_mem_nil, hdata, congrArg Prod.fst hrows, id⟩
    | content =>
      obtain ⟨hmore, hdata, hrows⟩ := change_content h
      rw [hmore, hrows]
      refine ⟨fun _ hst => absurd hst not_mem_nil, hdata, congrArg Prod.fst hrows, fun hk => ?_⟩
      unfold Cells.standing Cells.contentStatus at hk
      cases hs : rows.sub? t .content with
      | none =>
        rw [hs] at hk
        exact hk
      | some s =>
        rw [hs] at hk
        exact kept_status hk (pays_status hop s)
  | _ => cases hop

theorem does_pays (h : subscriptions.Does () rows data todo rows' data')
    (hall : ∀ st ∈ todo, st.tenant = t ∧ st.op.pays = true) (hk : Kept (rows.standing t)) :
    data' = data ∧ rows'.accountStatus t = rows.accountStatus t ∧ Kept (rows'.standing t) := by
  refine Service.Does.invariant (fun st : Stmt => st.tenant = t ∧ st.op.pays = true)
    (fun r m => m = data ∧ Cells.accountStatus r t = rows.accountStatus t ∧ Kept (Cells.standing r t)) ?_ ?_ h hall
    ⟨rfl, rfl, hk⟩
  · rintro r m ⟨u, op⟩ e ⟨rfl, hop⟩ hexec
    exact (exec_pays hop hexec).1
  · rintro r m ⟨u, op⟩ e ⟨rfl, hop⟩ hexec ⟨hm, hr, hkept⟩
    obtain ⟨-, hdata, haccount, hkeep⟩ := exec_pays hop hexec
    exact ⟨hdata.trans hm, haccount.trans hr, hkeep hkept⟩

def free (st : Option Status) : Bool := st.any fun st => st ≠ .active && !st.ended

theorem kept_of_free (h : free st = true) (c : SubStatus) : Kept (st, some c) := by
  cases st with
  | none => cases h
  | some st =>
    have hst : (decide (st ≠ .active) && !st.ended) = true := h
    rw [Bool.and_eq_true, decide_eq_true_eq, Bool.not_eq_true'] at hst
    refine ⟨rfl, fun hactive => absurd hactive hst.1, fun hended => ?_⟩
    rw [hst.2] at hended
    cases hended

theorem free_of_trialing (h : Kept (st, some .trialing)) : free st = true := by
  cases st with
  | none => cases h
  | some st =>
    obtain ⟨-, hactive, hended⟩ := h
    show (decide (st ≠ .active) && !st.ended) = true
    rw [Bool.and_eq_true, decide_eq_true_eq, Bool.not_eq_true']
    constructor
    · intro hst
      cases hactive hst
    · by_contra hst
      cases hended (by simpa using hst)

/-- The statements of `END_TRIALS_SQL`; `isFree` says that the content may be ended. -/
def Op.endsTrials (isFree : Bool) : Op → Bool
  | .findEnded _ _ _ _ | .lockEnded _ _ _ _ | .updateEnded _ => true
  | .endTrial p _ => p ≠ .content || isFree
  | _ => false

/-- While the tick ends trials: the account is as it was, and free if the content is among the trials found. -/
structure Ending (account : Option Status) (t : Nat) (rows : Cells) (data : Local) : Prop where
  same : rows.accountStatus t = account
  kept : Kept (rows.standing t)
  found : Product.content ∈ data.ended → free account = true

variable {now : Nat}

theorem Ending.free_of_trialOver {account : Option Status} (h : Ending account t rows data)
    (hover : (rows.sub? t .content).any (·.trialOver now) = true) : free account = true := by
  have hkept := h.kept
  unfold Cells.standing Cells.contentStatus at hkept
  rw [h.same] at hkept
  cases hs : rows.sub? t .content with
  | none =>
    rw [hs] at hover
    cases hover
  | some s =>
    rw [hs, any_some] at hover
    unfold Sub.trialOver at hover
    rw [Bool.and_eq_true, decide_eq_true_eq] at hover
    rw [hs, map_some, hover.1] at hkept
    exact free_of_trialing hkept

theorem Ending.exec {account : Option Status} (hop : op.endsTrials (free account) = true)
    (hexec : exec rows data t op = .ok e) (h : Ending account t rows data) :
    (∀ st ∈ e.more, st.tenant = t ∧ st.op.endsTrials (free account) = true) ∧
      Ending account t (overlay rows e.writes) e.data := by
  cases op with
  | findEnded now today skips oneByOne =>
    cases hexec
    refine ⟨fun st hst => ?_, h⟩
    obtain ⟨p, -, rfl⟩ := mem_map.1 hst
    exact ⟨rfl, rfl⟩
  | lockEnded p now today oneByOne =>
    unfold Subscriptions.exec at hexec
    dsimp only at hexec
    split at hexec
    · next hover =>
      cases hexec
      have hfree : p = .content → free account = true := by
        rintro rfl
        exact h.free_of_trialOver hover
      refine ⟨fun st hst => ?_, h.same, h.kept, fun hmem => ?_⟩
      · split at hst
        · obtain rfl := mem_singleton.1 hst
          refine ⟨rfl, ?_⟩
          by_cases hp : p = .content
          · show (decide (p ≠ .content) || free account) = true
            rw [hfree hp, Bool.or_true]
          · show (decide (p ≠ .content) || free account) = true
            rw [decide_eq_true hp, Bool.true_or]
        · exact absurd hst not_mem_nil
      · rcases mem_cons.1 hmem with hp | hmem
        · exact hfree hp.symm
        · exact h.found hmem
    · cases hexec
      exact ⟨fun _ hst => absurd hst not_mem_nil, h⟩
  | updateEnded today =>
    cases hexec
    refine ⟨fun st hst => ?_, h⟩
    obtain ⟨p, hp, rfl⟩ := mem_map.1 hst
    refine ⟨rfl, ?_⟩
    show (decide (p ≠ .content) || free account) = true
    rw [Bool.or_eq_true, decide_eq_true_eq]
    by_cases hc : p = .content
    · subst hc
      exact Or.inr (h.found hp)
    · exact Or.inl hc
  | endTrial p today =>
    cases p with
    | addOn a =>
      have hchange : change rows data t (.addOn a) (fun s => some (s.endTrial today)) = .ok e := hexec
      obtain ⟨hmore, hdata, hrows⟩ := change_addOn hchange
      rw [hmore]
      refine ⟨fun _ hst => absurd hst not_mem_nil, (congrArg Prod.fst hrows).trans h.same, ?_, ?_⟩
      · rw [hrows]
        exact h.kept
      · rw [hdata]
        exact h.found
    | content =>
      have hchange : change rows data t .content (fun s => some (s.endTrial today)) = .ok e := hexec
      obtain ⟨hmore, hdata, hrows⟩ := change_content hchange
      rw [hmore]
      refine ⟨fun _ hst => absurd hst not_mem_nil, (congrArg Prod.fst hrows).trans h.same, ?_, ?_⟩
      · have hfree : free account = true := hop
        rw [hrows, h.same]
        cases hs : rows.sub? t .content with
        | none =>
          have hkept := h.kept
          unfold Cells.standing Cells.contentStatus at hkept
          rw [hs, h.same] at hkept
          exact hkept
        | some s => exact kept_of_free hfree _
      · rw [hdata]
        exact h.found
  | _ => cases hop

theorem does_endsTrials (h : subscriptions.Does () rows data todo rows' data')
    (hall : ∀ st ∈ todo, st.tenant = t ∧ st.op.endsTrials (free (rows.accountStatus t)) = true)
    (hk : Ending (rows.accountStatus t) t rows data) : Ending (rows.accountStatus t) t rows' data' := by
  refine h.keeps (fun st : Stmt => st.tenant = t ∧ st.op.endsTrials (free (rows.accountStatus t)) = true)
    (fun r m => Ending (rows.accountStatus t) t r m) ?_ hall hk
  rintro r m ⟨u, op⟩ e ⟨rfl, hop⟩ hexec hr
  exact hr.exec hop hexec

/-! ## The account moves -/

theorem statusOf_named (old st : Status) (reason : Option (Option SuspendReason)) (plan : String) :
    TenantSet.statusOf ⟨⟨some st, reason, none, none⟩, none, plan⟩ old = st := by
  unfold TenantSet.statusOf derivedStatus
  simp [AccountSet.names]

theorem active_of_accountTrialEnd {a : Account} (h : rows.accountTrialEnd t now a = some .active) :
    rows.contentStatus t = some .active := by
  unfold Cells.accountTrialEnd at h
  unfold Cells.contentStatus
  split at h
  · next c hc =>
    rw [hc]
    split at h
    · split at h
      · next hactive =>
        rw [map_some, hactive]
      · cases h
    · cases h
  · cases h

variable {view : ViewStatus}

theorem active_of_decideMove {a : Account} {content : Option SubStatus}
    {reason : Option SuspendReason} (h : decideMove view a content = some (.active, reason)) : content = some .active := by
  unfold decideMove at h
  split at h
  · split at h <;> cases h
  · split at h <;> cases h
  · split at h
    · split at h
      · next hactive => exact hactive
      · cases h
    · split at h
      · next hactive => exact hactive.2
      · cases h

theorem kept_accountTrial
    (h : subscriptions.Does () rows data [⟨t, .findAccountTrial now plan⟩] rows' data') (hk : Kept (rows.standing t)) :
    Kept (rows'.standing t) := by
  obtain ⟨e, hexec, hrest⟩ := does_single h
  cases hexec
  split at hrest
  · cases hend : (rows.account? t).bind fun x => rows.accountTrialEnd t now x.1 with
    | none =>
      obtain ⟨e, hexec, hrest⟩ := does_single hrest
      unfold exec at hexec
      dsimp only at hexec
      rw [show overlay rows [] = rows from rfl, hend] at hexec
      cases hexec
      rw [hrest.done.1]
      exact hk
    | some st =>
      refine @kept_setAccount _ _ _ _ _ _ ⟨⟨some st, none, none, none⟩, none, plan⟩ ?_ hrest hk fun old _ hst => ?_
      · show exec rows data t _ = _
        unfold exec
        dsimp only
        rw [hend]
        rfl
      · rw [statusOf_named] at hst
        subst hst
        obtain ⟨x, -, hx⟩ := bind_eq_some_iff.1 hend
        exact Or.inr (Or.inl (active_of_accountTrialEnd hx))
  · rw [hrest.done.1]
    exact hk

theorem kept_moveAccount
    (h : subscriptions.Does () rows data [⟨t, .moveAccount view plan⟩] rows' data') (hk : Kept (rows.standing t)) :
    Kept (rows'.standing t) := by
  obtain ⟨e, hexec, hrest⟩ := does_single h
  unfold exec at hexec
  dsimp only at hexec
  split at hexec
  · cases hexec
    rw [hrest.done.1]
    exact hk
  · next a st reason hmove =>
    cases hexec
    split at hrest
    · refine @kept_setAccount _ _ _ _ _ _ ⟨⟨some st, some reason, none, none⟩, none, plan⟩ rfl hrest hk
        fun old _ hst => ?_
      rw [statusOf_named] at hst
      subst hst
      obtain ⟨a', -, hdecide⟩ := bind_eq_some_iff.1 hmove
      obtain ⟨⟨st', reason'⟩, hd, heq⟩ := map_eq_some_iff.1 hdecide
      cases heq
      exact Or.inr (Or.inl (active_of_decideMove hd))
    · rw [hrest.done.1]
      exact hk

theorem kept_create {new : AccountNew} {tier : String} {trialEndsAt : Option Nat} {wanted : List Wanted}
    (hnew : (insertedAccount new).status = if trialEndsAt.isSome then .trial else .active)
    (h : subscriptions.Does () rows data
      ((Request.create t new tier plan trialEndsAt wanted).ops.map fun op => ⟨t, op⟩) rows' data')
    (hk : Kept (rows.standing t)) : Kept (rows'.standing t) := by
  unfold Request.ops at h
  dsimp only at h
  rw [cons_append, map_cons, map_append] at h
  obtain ⟨rows₁, data₁, hinsert, h⟩ := h.append [_] _ rfl
  obtain ⟨rows₂, data₂, htrial, hadd⟩ := h.append _ _ rfl
  have hadd' : rows'.standing t = Cells.standing rows₂ t := by
    refine does_beside hadd fun st hst => ?_
    obtain ⟨op, hop, rfl⟩ := mem_map.1 hst
    obtain ⟨w, -, rfl⟩ := mem_map.1 hop
    exact ⟨rfl, rfl⟩
  rw [hadd']
  -- the tenant is new, and so is its content
  have hfirst : Cells.standing rows₁ t = (some (insertedAccount new).status, some .active) := by
    obtain ⟨e, hexec, hrest⟩ := does_single hinsert
    unfold exec at hexec
    dsimp only at hexec
    split at hexec
    · cases hexec
    · next hnone =>
      cases hexec
      have haccount : rows.accountStatus t = none := by
        unfold Cells.accountStatus Cells.account?
        rw [not_isSome_iff_eq_none.1 hnone]
        rfl
      have hcontent : rows.contentStatus t = none := by
        unfold Cells.standing at hk
        rw [haccount] at hk
        exact hk
      have hrows := standing_account rows t (insertedAccount new) tier
      rw [does_bridge hrest, show Cells.accountStatus _ t = _ from congrArg Prod.fst hrows,
        show Cells.contentStatus _ t = _ from congrArg Prod.snd hrows, hcontent, hnew]
      cases trialEndsAt <;> rfl
  cases trialEndsAt with
  | none =>
    rw [htrial.done.1, hfirst, hnew]
    exact ⟨rfl, fun _ => rfl, fun hended => absurd hended (by decide)⟩
  | some endsAt =>
    have hupdate := does_updateContent htrial
    have hcontent : ∃ s, Cells.sub? rows₁ t .content = some s := by
      obtain ⟨s, hs, -⟩ := map_eq_some_iff.1 (congrArg Prod.snd hfirst)
      exact ⟨s, hs⟩
    obtain ⟨s, hs⟩ := hcontent
    rw [hupdate, show Cells.accountStatus rows₁ t = _ from congrArg Prod.fst hfirst, hs, hnew]
    exact kept_of_free rfl _

theorem kept_endTrials {today : Nat} {skips : List Product} {oneByOne : Bool}
    (h : subscriptions.Does () rows ⟨[], none⟩
      ((Request.endTrials t now today skips oneByOne plan).ops.map fun op => ⟨t, op⟩) rows' data')
    (hk : Kept (rows.standing t)) : Kept (rows'.standing t) := by
  unfold Request.ops at h
  rw [map_append] at h
  obtain ⟨rows₁, data₁, hend, haccount⟩ := h.append _ _ rfl
  refine kept_accountTrial haccount (does_endsTrials hend ?_ ⟨rfl, hk, fun hmem => absurd hmem not_mem_nil⟩).kept
  intro st hst
  obtain ⟨op, hop, rfl⟩ := mem_map.1 hst
  refine ⟨rfl, ?_⟩
  rcases mem_cons.1 hop with rfl | hop
  · rfl
  · split at hop
    · exact absurd hop not_mem_nil
    · obtain rfl := mem_singleton.1 hop
      rfl

theorem kept_billing {paidThrough : Option Nat} {today : Nat} (h : subscriptions.Does () rows data
      ((Request.billing t view paidThrough today plan).ops.map fun op => ⟨t, op⟩) rows' data')
    (hk : Kept (rows.standing t)) : Kept (rows'.standing t) := by
  unfold Request.ops at h
  dsimp only at h
  rw [cons_append, cons_append, map_cons, map_append] at h
  obtain ⟨rows₁, data₁, hlock, h⟩ := h.append [_] _ rfl
  obtain ⟨rows₂, data₂, hpays, hmove⟩ := h.append _ _ rfl
  have hsame : rows₁ = rows := by
    obtain ⟨e, hexec, hrest⟩ := does_single hlock
    unfold exec at hexec
    dsimp only at hexec
    split at hexec
    · cases hexec
    · cases hexec
      exact hrest.done.1
  rw [hsame] at hpays
  refine kept_moveAccount hmove (does_pays hpays ?_ hk).2.2
  intro st hst
  obtain ⟨op, hop, rfl⟩ := mem_map.1 hst
  refine ⟨rfl, ?_⟩
  rcases mem_append.1 hop with hop | hop
  · obtain ⟨d, -, rfl⟩ := mem_map.1 hop
    rfl
  · split at hop
    · obtain rfl := mem_singleton.1 hop
      rfl
    · exact absurd hop not_mem_nil

end statements

theorem statusOf_patch {st : Status} {isActive : Bool} {plan : String}
    (h : ¬(tenantStatus st = .offboarded ∨ isActive = st.live)) :
    TenantSet.statusOf ⟨⟨none, none, some isActive, none⟩, none, plan⟩ st = if isActive then .active else .suspended := by
  cases st <;> cases isActive <;> first | rfl | exact absurd (by decide) h

theorem kept_commits {t : Nat} {rows rows' : Cells} {m : Move} (h : Commits t rows m rows')
    (hm : ¬rows.UnpaidUnlock t m) (hk : Kept (rows.standing t)) : Kept (rows'.standing t) := by
  obtain ⟨r, data, hr, hdoes⟩ := h
  cases m with
  | create tier plan trialEndsAt wanted =>
    cases hr
    refine kept_create ?_ hdoes hk
    cases trialEndsAt <;> rfl
  | endTrials now today skips oneByOne plan =>
    cases hr
    exact kept_endTrials hdoes hk
  | billing view paidThrough today plan =>
    cases hr
    exact kept_billing hdoes hk
  | patchActive isActive plan =>
    unfold Move.request at hr
    dsimp only at hr
    split at hr
    · cases hr
    · next st hst =>
      split at hr
      · cases hr
      · next hgo =>
        cases hr
        refine kept_setAccount rfl hdoes hk fun old hold hnew => ?_
        rw [hst] at hold
        obtain rfl := Option.some.inj hold
        rw [statusOf_patch hgo] at hnew
        have hon : isActive = true := by
          by_contra hoff
          rw [if_neg hoff] at hnew
          cases hnew
        right
        left
        by_contra hcontent
        refine hm ⟨hon, ?_, hcontent⟩
        congr 1
        unfold tenantStatus at hgo ⊢
        cases hended : st.ended <;> cases hlive : st.live <;> simp_all
  | offboard plan =>
    unfold Move.request at hr
    dsimp only at hr
    split at hr
    · cases hr
    · split at hr
      · cases hr
      · cases hr
        refine kept_setAccount rfl hdoes hk fun old hold hnew => ?_
        cases old <;> cases hnew
  | restore plan =>
    unfold Move.request at hr
    dsimp only at hr
    split at hr
    · cases hr
    · next st hst =>
      split at hr
      · next hleft =>
        cases hr
        refine kept_setAccount rfl hdoes hk fun old hold hnew => ?_
        rw [hst] at hold
        obtain rfl := Option.some.inj hold
        right
        right
        unfold tenantStatus at hleft
        by_contra hended
        rw [if_neg hended] at hleft
        split at hleft <;> cases hleft
      · cases hr

theorem Cells.UnpaidUnlock.breaks {t : Nat} {rows rows' : Cells} {m : Move} (hm : rows.UnpaidUnlock t m)
    (h : Commits t rows m rows') (hk : Kept (rows.standing t)) :
    rows'.accountStatus t = some .active ∧ rows'.contentStatus t ≠ some .active := by
  cases m with
  | patchActive isActive plan =>
    obtain ⟨rfl, hsuspended, hcontent⟩ := hm
    obtain ⟨r, data, hr, hdoes⟩ := h
    unfold Move.request at hr
    dsimp only at hr
    split at hr
    · cases hr
    · next st hst =>
      split at hr
      · cases hr
      · next hgo =>
        cases hr
        have hnew := @statusOf_patch st true plan hgo
        have hdoes' : subscriptions.Does () rows ⟨[], none⟩
            [⟨t, .updateTenant ⟨⟨none, none, some true, none⟩, none, plan⟩⟩] rows' data := hdoes
        rcases does_setAccount rfl hdoes' with ⟨-, hsame⟩ | ⟨st', hst', hmoved⟩
        · -- it was not active before
          have hactive := (hsame st hst).symm.trans hnew
          rw [hactive] at hgo
          exact absurd (Or.inr rfl) hgo
        · obtain rfl : st = st' := Option.some.inj (hst.symm.trans hst')
          rw [hnew] at hmoved
          refine ⟨congrArg Prod.fst hmoved, ?_⟩
          rw [show rows'.contentStatus t = _ from congrArg Prod.snd hmoved]
          have hk' : Kept (some st, rows.contentStatus t) := by
            rw [← hst]
            exact hk
          obtain ⟨c, hc⟩ := isSome_iff_exists.1 hk'.1
          have hended : st.ended = false := by
            by_contra hended
            refine hgo (Or.inl ?_)
            unfold tenantStatus
            rw [if_pos (by simpa using hended)]
          rw [hc] at hcontent ⊢
          unfold bridged
          rw [any_some, hended]
          exact hcontent
  | _ => cases hm

theorem kept_history {t : Nat} {start rows : Cells} {past : List (Cells × Move)} (h : History t start past rows)
    (hunlock : ∀ e ∈ past, ¬e.1.UnpaidUnlock t e.2) (hk : Kept (start.standing t)) : Kept (rows.standing t) := by
  induction h with
  | begin => exact hk
  | committed _ hm ih =>
    exact kept_commits hm (hunlock _ mem_cons_self) (ih fun e he => hunlock e (mem_cons_of_mem _ he))
  | failed m _ ih => exact ih fun e he => hunlock e (mem_cons_of_mem _ he)

/-- In every history of a tenant without an unlock of a suspended account whose content is not active, an active account
has active content.  Such an unlock makes the account active all the same. -/
theorem active_account_paid (t : Nat) (start rows : Cells) (past : List (Cells × Move))
    (hstart : start.accountStatus t = none ∧ start.contentStatus t = none) (hrun : History t start past rows)
    (hunlock : ∀ e ∈ past, ¬e.1.UnpaidUnlock t e.2) :
    (rows.accountStatus t = some .active → rows.contentStatus t = some .active) ∧
      ∀ m rows', rows.UnpaidUnlock t m → Commits t rows m rows' →
        rows'.accountStatus t = some .active ∧ rows'.contentStatus t ≠ some .active := by
  have hk : Kept (rows.standing t) := by
    refine kept_history hrun hunlock ?_
    unfold Cells.standing
    rw [hstart.1, hstart.2]
    exact rfl
  refine ⟨fun hactive => ?_, fun m rows' hm hcommit => hm.breaks hcommit hk⟩
  unfold Cells.standing at hk
  rw [hactive] at hk
  exact hk.2.1 rfl

def lockedOnce : List Move :=
  [.create "pro" "content_pro" none [], .patchActive false "content_pro", .patchActive true "content_pro"]

theorem active_account_paid_lockedOnce : ∃ past rows, History 1 Table.empty past rows ∧
    rows.accountStatus 1 = some .active ∧ rows.contentStatus 1 = some .active := by
  have hplay : (replay 1 [] Table.empty lockedOnce).any fun w =>
      w.2.accountStatus 1 = some .active ∧ w.1.all fun e => ¬e.1.UnpaidUnlock 1 e.2 := by decide
  obtain ⟨w, hw, hok⟩ := (any_eq_true _ _).1 hplay
  rw [decide_eq_true_eq] at hok
  have hrun : History 1 Table.empty w.1 w.2 := History.begin.replay hw
  refine ⟨w.1, w.2, hrun, hok.1, (active_account_paid 1 _ _ _ ⟨rfl, rfl⟩ hrun fun e he => ?_).1 hok.1⟩
  simpa using List.all_eq_true.1 hok.2 e he

/-- A trial that is locked and unlocked. -/
theorem unlocked_on_trial : ∃ past rows, History 1 Table.empty past rows ∧
    rows.accountStatus 1 = some .active ∧ rows.contentStatus 1 = some .trialing := by
  have hplay : (replay 1 [] Table.empty
      [.create "pro" "content_pro" (some 9) [], .patchActive false "content_pro", .patchActive true "content_pro"]).any
        fun w => w.2.accountStatus 1 = some .active ∧ w.2.contentStatus 1 = some .trialing := by decide
  obtain ⟨w, hw, hok⟩ := (any_eq_true _ _).1 hplay
  rw [decide_eq_true_eq] at hok
  exact ⟨w.1, w.2, History.begin.replay hw, hok⟩

end CisApp.Subscriptions
