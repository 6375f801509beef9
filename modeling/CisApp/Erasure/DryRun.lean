import CisApp.Erasure.Executions

/-!
# What a history leaves in the job rows

An apply takes its DRY RUN by setting `used_by_apply` in that row's result,
before it writes anything else.  The key stays: a succeeded row is never
finished or re-queued again, the hash strip removes another key only, and the
redaction of a traveller's address does not reach the row, since the report of a
traveller's DRY RUN has no `@` in it.
-/

namespace CisApp.Erasure

open List Option

open Jobs Lib Releases

variable {σ : Type}

/-! ## A DRY RUN that was read stays as it is -/

/-- A DRY RUN an apply may take: succeeded, with a report; without an `@` where `plain`. -/
def SealedRow (plain : Bool) (r : JobRow) : Prop :=
  r.kind = erasureKind ∧ r.status = .succeeded ∧
    ∃ o, r.result = some (.obj o) ∧ (plain = true → plainPairs o = true)

/-- From `r` to `r'` a taken DRY RUN stays one, and stays taken. -/
def Lasting (r r' : JobRow) : Prop :=
  ∀ plain, SealedRow plain r → SealedRow plain r' ∧ (isUsed r = true → isUsed r' = true)

theorem Lasting.refl (r : JobRow) : Lasting r r := fun _ h => ⟨h, fun hu => hu⟩

variable {r : JobRow}

theorem Lasting.trans {r' r'' : JobRow} (h : Lasting r r') (h' : Lasting r' r'') : Lasting r r'' := by
  intro plain hr
  obtain ⟨hr', hu⟩ := h plain hr
  obtain ⟨hr'', hu'⟩ := h' plain hr'
  exact ⟨hr'', fun hr => hu' (hu hr)⟩

theorem Lasting.of_eq {r' : JobRow} (hk : r'.kind = r.kind) (hs : r'.status = r.status)
    (hres : r'.result = r.result) : Lasting r r' := by
  intro plain h
  unfold SealedRow isUsed
  rw [hk, hs, hres]
  exact ⟨h, fun hu => hu⟩

variable {t : JobTable}

theorem lasting_of_touch {k : JobId} {r' : JobRow} {op : QueueOp} (h : Touch t k r op r') : Lasting r r' := by
  intro plain hsealed
  have hs : r.status = .succeeded := hsealed.2.1
  have running : ∀ {w}, r.ownedBy w = true → False := by
    intro w ho
    rw [(ownedBy_iff.1 ho).1] at hs
    cases hs
  cases h with
  | claim h =>
    have := (eligible_iff.1 (claimable_spec h).2.1).1
    rw [hs] at this
    cases this
  | heartbeat h => exact (running h).elim
  | setProgress => exact Lasting.of_eq rfl rfl rfl plain hsealed
  | complete h => exact (running h).elim
  | stopBudget h => exact (running h).elim
  | markCancelled h => exact (running h).elim
  | failRequeue hid h hret => exact (running h).elim
  | failEnd hid h hret => exact (running h).elim
  | release h hc => exact (running h).elim
  | reapRequeue h =>
    simp only [reapRequeues, Bool.and_eq_true] at h
    have := expired_running h.1.1
    rw [hs] at this
    cases this
  | reapFail h =>
    have := expired_running h
    rw [hs] at this
    cases this
  | requestCancel h => simp [cancellable, hs] at h
  | retired h => simp [retires, hs] at h
  | retry h => simp [retriable, hs, Status.unsuccessful] at h
  | @retryOne now delay stopped h =>
    cases stopped <;> simp [retriableOne, hs] at h

variable {plain : Bool}

theorem isUsed_claimDryRow (now : Int) (job : Plain) (h : SealedRow plain r) : isUsed (claimDryRow now job r) = true := by
  obtain ⟨hk, hs, o, hres, -⟩ := h
  simp [isUsed, claimDryRow, concatObj, hres, hasKey, JObj.at?, JObj.merge, usedKey]

theorem lasting_claimDryRow (now : Int) (job : Plain) (r : JobRow) : Lasting r (claimDryRow now job r) := by
  intro plain hsealed
  have hused := isUsed_claimDryRow now job hsealed
  obtain ⟨hk, hs, o, hres, hplain⟩ := hsealed
  have hres' : (claimDryRow now job r).result = some (.obj (JObj.merge o [(usedKey, .str job.text)])) := by
    simp [claimDryRow, concatObj, hres]
  refine ⟨⟨hk, hs, _, hres', fun hp => plainPairs_merge (hplain hp) ?_⟩, fun _ => hused⟩
  simp [plainPairs, Json.plain, usedKey, job.noAt]

theorem lasting_stripHashRow (now : Int) (marker : String) (r : JobRow) : Lasting r (stripHashRow now marker r) := by
  rintro plain ⟨hk, hs, o, hres, hplain⟩
  have hres' : (stripHashRow now marker r).result = some (.obj (JObj.erase o "subject_salt")) := by
    simp [stripHashRow, hres]
  refine ⟨⟨hk, hs, _, hres', fun hp => plainPairs_erase _ (hplain hp)⟩, fun hu => ?_⟩
  simpa [isUsed, hres', hres, hasKey, usedKey] using hu

/-- The row `D` of `t` lasts in `t'`. -/
def Lasts (D : JobId) (t t' : JobTable) : Prop :=
  ∀ r, t.get? D = some r → ∃ r', t'.get? D = some r' ∧ Lasting r r'

theorem Lasts.refl (D : JobId) (t : JobTable) : Lasts D t t := fun r h => ⟨r, h, .refl r⟩

variable {t' : JobTable}

theorem Lasts.trans {D : JobId} {t'' : JobTable} (h : Lasts D t t') (h' : Lasts D t' t'') : Lasts D t t'' := by
  intro r hr
  obtain ⟨r', hr', hl⟩ := h r hr
  obtain ⟨r'', hr'', hl'⟩ := h' r' hr'
  exact ⟨r'', hr'', hl.trans hl'⟩

theorem lasts_update {D : JobId} {p : JobId → JobRow → Bool}
    {f : JobId → JobRow → JobRow} (h : ∀ r, t.get? D = some r → p D r = true → Lasting r (f D r)) :
    Lasts D t (t.update p f) := by
  intro r hr
  refine ⟨_, get?_update_some hr p f, ?_⟩
  split
  · next hp => exact h r hr hp
  · exact .refl r

theorem lasts_step (D : JobId) (t : JobTable) (op : QueueOp) : Lasts D t (Jobs.step t op) := by
  intro r hr
  obtain ⟨r', hr', rfl | ht⟩ := step_of_some op hr
  · exact ⟨r', hr', .refl r'⟩
  · exact ⟨r', hr', lasting_of_touch ht⟩

theorem lasts_stripHash (D : JobId) (t : JobTable) (now : Int) (ids : List JobId) (h : Option String)
    (marker : String) : Lasts D t (stripHash t now ids h marker) :=
  lasts_update fun r _ _ => lasting_stripHashRow now marker r

theorem lasts_onTerminal (D : JobId) (t : JobTable) (now : Int) (job : JobId) (payload : JObj)
    (status : String) : Lasts D t (onTerminal t now job payload status) := by
  unfold onTerminal
  split
  · exact lasts_stripHash D t now _ _ _
  · exact .refl D t

theorem lasts_claimDry (D : JobId) (t : JobTable) (now : Int) (dry : JobId) (job : Plain) :
    Lasts D t (claimDry t now dry job).1 :=
  lasts_update fun r _ _ => lasting_claimDryRow now job r

/-- The row `D` is a DRY RUN an apply may take. -/
def SealedAt (D : JobId) (plain : Bool) (t : JobTable) : Prop :=
  ∃ r, t.get? D = some r ∧ SealedRow plain r

theorem Lasts.sealedAt {D : JobId} (h : Lasts D t t') (hs : SealedAt D plain t) : SealedAt D plain t' := by
  obtain ⟨r, hr, hs⟩ := hs
  obtain ⟨r', hr', hl⟩ := h r hr
  exact ⟨r', hr', (hl plain hs).1⟩

/-- `D` is such a DRY RUN and is taken. -/
def TakenAt (D : JobId) (plain : Bool) (t : JobTable) : Prop :=
  ∃ r, t.get? D = some r ∧ SealedRow plain r ∧ isUsed r = true

theorem Lasts.takenAt {D : JobId} (h : Lasts D t t') (hs : TakenAt D plain t) : TakenAt D plain t' := by
  obtain ⟨r, hr, hs, hu⟩ := hs
  obtain ⟨r', hr', hl⟩ := h r hr
  exact ⟨r', hr', (hl plain hs).1, (hl plain hs).2 hu⟩

theorem TakenAt.sealedAt {D : JobId} (h : TakenAt D plain t) : SealedAt D plain t := by
  obtain ⟨r, hr, hs, -⟩ := h
  exact ⟨r, hr, hs⟩

theorem redactJobs_eq {idText : JobId → Plain} {protect : List String} {matched : JobRow → Bool}
    {set : JobRow → JobRow} {want : Nat}
    (h : redactJobs idText protect matched set want t = some t') :
    t' = t.update (fun k r => matched r && !protect.contains (idText k).text) fun _ r => set r := by
  unfold redactJobs at h
  dsimp only at h
  split at h
  · exact (Option.some.inj h).symm
  · cases h

theorem not_travellerWhere_of_plain {hash : Text → Text} {h : Text}
    (hr : SealedRow true r) : travellerWhere hash h (r.result.bind jsonText) = false := by
  obtain ⟨-, -, o, hres, hplain⟩ := hr
  have hno : '@' ∉ (Json.obj o).render.toList :=
    Json.plain.at_notMem (by rw [Json.plain]; exact hplain rfl)
  simp [hres, jsonText, travellerWhere, hno]

theorem lasts_redactAll {W : World σ} {D : JobId} {now : Int} {h : String} {protect : List String}
    {want : List CountRow} (hD : SealedAt D true t) (ht : W.redactAll now h protect want t = some t') : Lasts D t t' := by
  unfold World.redactAll at ht
  simp only [bind_eq_bind, bind_eq_some_iff] at ht
  obtain ⟨t₁, h₁, t₂, h₂, h₃⟩ := ht
  have l₁ : Lasts D t t₁ := by
    rw [redactJobs_eq h₁]
    exact lasts_update fun r _ _ => Lasting.of_eq rfl rfl rfl
  have l₂ : Lasts D t₁ t₂ := by
    rw [redactJobs_eq h₂]
    refine lasts_update fun r hr hp => ?_
    obtain ⟨r', hr', hs⟩ := l₁.sealedAt hD
    obtain rfl : r' = r := Option.some.inj (hr'.symm.trans hr)
    simp [not_travellerWhere_of_plain hs] at hp
  have l₃ : Lasts D t₂ t' := by
    rw [redactJobs_eq h₃]
    exact lasts_update fun r _ _ => Lasting.of_eq rfl rfl rfl
  exact (l₁.trans l₂).trans l₃

theorem lasts_delete {D : JobId} (hD : SealedAt D plain t) (tid : String) : Lasts D t (t.delete (deletesJob tid)) := by
  intro r hr
  obtain ⟨r', hr', hs⟩ := hD
  obtain rfl : r' = r := Option.some.inj (hr'.symm.trans hr)
  refine ⟨r', ?_, .refl r'⟩
  rw [Table.get?_delete, hr]
  simp [deletesJob, hs.1]

theorem applyTx_cases {W : World σ} {s : State σ} {now : Int} {env : Env} {job : JobId}
    {req : Request} {a : Approval} {c : Counted} {key : String} {rest : σ}
    {done : List CountRow} (h : W.applyTx s now env job req a c key = some (t, rest, done)) :
    (∃ tid, req.subject = .tenant tid ∧ t = s.jobs.delete (deletesJob tid)) ∨
    ∃ email want t₁ dry, req.subject = .traveller email ∧
      W.redactAll now email [(W.idText job).text, a.dryRunJobId] want s.jobs = some t₁ ∧
      t = stripHash t₁ now [job, dry] (some email) "stripped-after-apply" := by
  have herase : ∃ want, W.erase s now job a req.subject want = some (t, rest, done) := by
    unfold World.applyTx at h
    dsimp only at h
    split_ifs at h
    exact ⟨_, h⟩
  obtain ⟨want, h⟩ := herase
  unfold World.erase at h
  cases hsub : req.subject with
  | tenant tid =>
    rw [hsub] at h
    simp only [bind_eq_bind, bind_eq_some_iff] at h
    obtain ⟨x, -, h⟩ := h
    split at h
    · cases h
      exact Or.inl ⟨tid, rfl, rfl⟩
    · cases h
  | traveller email =>
    rw [hsub] at h
    simp only [bind_eq_bind, bind_eq_some_iff] at h
    obtain ⟨x, -, t₁, h₁, dry, -, h⟩ := h
    cases h
    exact Or.inr ⟨email, want, t₁, dry, rfl, h₁, rfl⟩

theorem lasts_applyTx {W : World σ} {D : JobId} {s : State σ} {now : Int} {env : Env} {job : JobId}
    {req : Request} {a : Approval} {c : Counted} {key : String} {rest : σ}
    {done : List CountRow} (hD : SealedAt D req.subject.isTraveller s.jobs)
    (h : W.applyTx s now env job req a c key = some (t, rest, done)) : Lasts D s.jobs t := by
  rcases applyTx_cases h with ⟨tid, hsub, rfl⟩ | ⟨email, want, t₁, dry, hsub, h₁, rfl⟩
  · exact lasts_delete hD tid
  · rw [hsub] at hD
    exact (lasts_redactAll hD h₁).trans (lasts_stripHash D t₁ now _ _ _)

/-! ## The rows of a history -/

/-- A report that still has its salt has no `@`. -/
def SaltPlain (o : JObj) : Prop := (o.at? "subject_salt").isSome = true → plainPairs o = true

/-- The rows of the job table: a result is a report as above, and an apply names the DRY RUN `D`. -/
structure RowOk (W : World σ) (D : JobId) (r : JobRow) : Prop where
  salt : r.kind = erasureKind → ∀ o, r.result = some (.obj o) → SaltPlain o
  names : r.kind = erasureKind → isApply r.payload = true →
    W.castUuid (pyText (r.payload.at? "dry_run_job_id")) = some D

section rows

variable {W : World σ} {D : JobId}

variable {r : JobRow}

theorem RowOk.of_eq {r' : JobRow} (h : RowOk W D r) (hk : r'.kind = r.kind)
    (hp : r'.payload = r.payload) (hres : r'.result = r.result ∨ r'.result = none) : RowOk W D r' := by
  refine ⟨fun hk' o ho => ?_, ?_⟩
  · rcases hres with hres | hres
    · exact h.salt (hk ▸ hk') o (hres ▸ ho)
    · rw [hres] at ho
      cases ho
  · rw [hk, hp]
    exact h.names

theorem RowOk.claimDryRow (h : RowOk W D r) (now : Int) (job : Plain) : RowOk W D (claimDryRow now job r) := by
  refine ⟨fun hk o ho => ?_, h.names⟩
  have hused : plainPairs [(usedKey, .str job.text)] = true := by
    simp [plainPairs, Json.plain, usedKey, job.noAt]
  have ho : some (concatObj r.result [(usedKey, .str job.text)]) = some (.obj o) := ho
  unfold concatObj at ho
  split at ho
  · cases ho
    exact fun _ => hused
  · next a hres =>
    cases ho
    intro hsalt
    have hsalt' : (JObj.at? a "subject_salt").isSome = true := by
      rw [JObj.at?_merge] at hsalt
      simpa [JObj.at?, usedKey, List.lookup] using hsalt
    exact plainPairs_merge (h.salt hk a hres hsalt') hused
  · cases ho
  · cases ho

theorem RowOk.stripHashRow (h : RowOk W D r) (now : Int) (marker : String) : RowOk W D (stripHashRow now marker r) := by
  refine ⟨fun hk o ho => ?_, fun hk ha => ?_⟩
  · unfold Erasure.stripHashRow at ho
    split at ho
    · cases ho
      intro hsalt
      simp at hsalt
    · next j hne =>
      exact absurd ho (hne o)
  · have hother : ∀ k, k ≠ "email_sha256" →
        ((r.payload.merge [("email_sha256", .str marker)]).at? k) = r.payload.at? k := by
      intro k hk
      rw [JObj.at?_merge]
      have hne : (k == "email_sha256") = false := by simpa using hk
      simp [JObj.at?, List.lookup, hne]
    have ha' : isApply r.payload = true := by
      have : isApply (r.payload.merge [("email_sha256", .str marker)]) = true := ha
      unfold isApply at this ⊢
      rwa [hother _ (by decide)] at this
    have := h.names hk ha'
    show W.castUuid (pyText ((r.payload.merge [("email_sha256", .str marker)]).at? "dry_run_job_id")) = _
    rwa [hother _ (by decide)]

theorem RowOk.redactPayload (h : RowOk W D r) (now : Int) : RowOk W D (redactPayload now r) :=
  ⟨h.salt, fun _ ha => by cases (show isApply redacted = true from ha)⟩

theorem RowOk.redactResult (h : RowOk W D r) (now : Int) : RowOk W D (redactResult now r) := by
  refine ⟨fun hk o ho => ?_, h.names⟩
  cases (show some (Json.obj redacted) = some (.obj o) from ho)
  intro hsalt
  simp [redacted, JObj.at?, List.lookup] at hsalt

theorem RowOk.redactError (h : RowOk W D r) (now : Int) : RowOk W D (redactError now r) :=
  h.of_eq rfl rfl (Or.inl rfl)

end rows

section rows

variable {W : World σ} {D : JobId}

variable {t : JobTable} {op : QueueOp}

theorem result_of_touch {k : JobId} {r r' : JobRow} (h : Touch t k r op r') (hop : storesFor op ≠ some k) :
    r'.payload = r.payload ∧ (r'.result = r.result ∨ r'.result = none) := by
  cases h with
  | @complete now worker result cost h =>
    cases result with
    | none => exact ⟨rfl, Or.inr rfl⟩
    | some j => exact absurd rfl hop
  | @stopBudget now worker error result cost h =>
    cases result with
    | none => exact ⟨rfl, Or.inr rfl⟩
    | some j => exact absurd rfl hop
  | @failEnd now job worker error retryable cost result rand hid h hret =>
    cases result with
    | none => exact ⟨rfl, Or.inr rfl⟩
    | some j => exact absurd (congrArg some hid.symm) hop
  | markCancelled h => exact ⟨rfl, Or.inr rfl⟩
  | retry h => exact ⟨rfl, Or.inr rfl⟩
  | retryOne h => exact ⟨rfl, Or.inr rfl⟩
  | _ => exact ⟨rfl, Or.inl rfl⟩

theorem result_of_storing {job k : JobId} {doc : Json} {r r' : JobRow}
    {op' : QueueOp} (hop : storing job doc op = some op') (h : Touch t k r op' r') :
    r'.payload = r.payload ∧ (r'.result = r.result ∨ (k = job ∧ r'.result = some doc)) := by
  unfold storing at hop
  split at hop
  · split at hop
    · next hj =>
      cases hop
      cases h with
      | complete h => exact ⟨rfl, Or.inr ⟨hj, rfl⟩⟩
    · cases hop
  · split at hop
    · next hj =>
      cases hop
      cases h with
      | stopBudget h => exact ⟨rfl, Or.inr ⟨hj, rfl⟩⟩
    · cases hop
  · split at hop
    · next hj =>
      cases hop
      cases h with
      | failRequeue hid h hret => exact ⟨rfl, Or.inl rfl⟩
      | failEnd hid h hret => exact ⟨rfl, Or.inr ⟨hid.trans hj, rfl⟩⟩
    · cases hop
  · cases hop

def RowsOk (W : World σ) (D : JobId) (t : JobTable) : Prop := t.All fun _ r => RowOk W D r

theorem RowsOk.update (h : RowsOk W D t) {p : JobId → JobRow → Bool}
    {f : JobId → JobRow → JobRow} (hf : ∀ k r, RowOk W D r → RowOk W D (f k r)) : RowsOk W D (t.update p f) := by
  intro k r' hr'
  obtain ⟨r, hr, rfl | ⟨-, rfl⟩⟩ := update_cases hr'
  · exact h k r' hr
  · exact hf k r (h k r hr)

theorem RowsOk.delete (h : RowsOk W D t) (p : JobId → JobRow → Bool) : RowsOk W D (t.delete p) := by
  intro k r hr
  rw [Table.get?_delete, filter_eq_some_iff] at hr
  exact h k r hr.1

theorem RowsOk.stripHash (h : RowsOk W D t) (now : Int) (ids : List JobId)
    (email : Option String) (marker : String) : RowsOk W D (stripHash t now ids email marker) :=
  h.update fun _ _ hr => hr.stripHashRow now marker

theorem RowsOk.onTerminal (h : RowsOk W D t) (now : Int) (job : JobId) (payload : JObj)
    (status : String) : RowsOk W D (onTerminal t now job payload status) := by
  unfold Erasure.onTerminal
  split
  · exact h.stripHash now _ _ _
  · exact h

theorem RowsOk.claimDry (h : RowsOk W D t) (now : Int) (dry : JobId) (job : Plain) :
    RowsOk W D (claimDry t now dry job).1 :=
  h.update fun _ _ hr => hr.claimDryRow now job

theorem RowsOk.redactAll {now : Int} {email : String} {protect : List String} {want : List CountRow}
    {t' : JobTable} (h : RowsOk W D t) (ht : W.redactAll now email protect want t = some t') : RowsOk W D t' := by
  unfold World.redactAll at ht
  simp only [bind_eq_bind, bind_eq_some_iff] at ht
  obtain ⟨t₁, h₁, t₂, h₂, h₃⟩ := ht
  rw [redactJobs_eq h₃, redactJobs_eq h₂, redactJobs_eq h₁]
  exact ((h.update fun _ _ hr => hr.redactPayload now).update fun _ _ hr => hr.redactResult now).update
    fun _ _ hr => hr.redactError now

theorem RowsOk.applyTx {s : State σ} {now : Int} {env : Env} {job : JobId} {req : Request}
    {a : Approval} {c : Counted} {key : String} {rest : σ} {done : List CountRow}
    (hs : RowsOk W D s.jobs) (h : W.applyTx s now env job req a c key = some (t, rest, done)) : RowsOk W D t := by
  rcases applyTx_cases h with ⟨tid, -, rfl⟩ | ⟨email, want, t₁, dry, -, h₁, rfl⟩
  · exact hs.delete _
  · exact (hs.redactAll h₁).stripHash now _ _ _

theorem RowsOk.step (h : RowsOk W D t) (hop : ∀ k r, storesFor op = some k → t.get? k = some r → r.kind ≠ erasureKind)
    (hnew : ∀ k r', Inserted t k op r' → RowOk W D r') : RowsOk W D (Jobs.step t op) := by
  refine All.step h hnew fun k r r' hr hok ht => ?_
  by_cases hk : storesFor op = some k
  · have hkind : r'.kind ≠ erasureKind := by
      rw [ht.kind_eq]
      exact hop k r hk hr
    exact ⟨fun h' => absurd h' hkind, fun h' => absurd h' hkind⟩
  · obtain ⟨hp, hres⟩ := result_of_touch ht hk
    exact hok.of_eq ht.kind_eq hp hres

theorem RowsOk.store {job : JobId} {o : JObj} {op' : QueueOp} (h : RowsOk W D t)
    (ho : SaltPlain o) (hop : storing job (.obj o) op = some op') : RowsOk W D (Jobs.step t op') := by
  refine All.step h ?_ fun k r r' hr hok ht => ?_
  · intro k r' hins
    cases hins
    unfold storing at hop
    split at hop <;> (first | (split at hop <;> cases hop) | cases hop)
  · obtain ⟨hp, hres⟩ := result_of_storing hop ht
    rcases hres with hres | ⟨-, hres⟩
    · exact hok.of_eq ht.kind_eq hp (Or.inl hres)
    · refine ⟨fun _ o' ho' => ?_, ?_⟩
      · rw [hres] at ho'
        cases ho'
        exact ho
      · rw [ht.kind_eq, hp]
        exact hok.names

end rows

/-! ## The reports -/

theorem at?_append (a b : JObj) (k : String) : JObj.at? (a ++ b) k = (a.at? k).or (b.at? k) :=
  lookup_append

theorem noSalt_dryResult (subject : Subject) (fp : Plain) (c : Counted) (env : Env) :
    JObj.at? (dryResult subject fp c env) "subject_salt" = none := by
  have hof : JObj.at? (c.ofSubject env subject) "subject_salt" = none := by
    cases subject with
    | tenant tid =>
      cases hrep : c.report with
      | none => simp [Counted.ofSubject, hrep, JObj.at?, List.lookup]
      | some r =>
        cases hn : r.note <;> cases he : r.error <;>
          simp [Counted.ofSubject, hrep, TenantReport.fields, hn, he, JObj.at?, List.lookup]
    | traveller h => simp [Counted.ofSubject, JObj.at?, List.lookup]
  rw [dryResult, at?_append, hof]
  simp [JObj.at?, List.lookup]

theorem noSalt_applyResult (subject : Subject) (fp : Plain) (c : Counted) (env : Env)
    (done : List CountRow) (left : List (String × Nat)) :
    JObj.at? (applyResult (dryResult subject fp c env) done left) "subject_salt" = none := by
  rw [applyResult, JObj.at?_merge, JObj.at?_erase, noSalt_dryResult]
  simp [JObj.at?, List.lookup]

theorem SaltPlain.of_none {o : JObj} (h : o.at? "subject_salt" = none) : SaltPlain o := by
  intro hs
  rw [h] at hs
  cases hs

/-- The texts of a count without an `@`. -/
structure PlainCount (c : Counted) : Prop where
  rows : ∀ r ∈ c.rows, '@' ∉ r.table.toList ∧ '@' ∉ r.action.toList ∧ '@' ∉ r.reason.toList
  skipped : ∀ t ∈ c.skipped, '@' ∉ t.toList

theorem notMem_toList {s : String} {l : List Char} {c : Char} (hs : s = String.ofList l)
    (h : l.contains c = false) : c ∉ s.toList := by
  subst hs
  simpa using h

theorem travellerScans_plain : ∀ scan ∈ travellerScans, '@' ∉ scan.key.toList ∧
    '@' ∉ scan.table.toList ∧ '@' ∉ scan.action.toList ∧ '@' ∉ scan.reason.toList := by
  simp only [travellerScans, TravellerScan.key, forall_mem_cons, String.toList_append, mem_append,
    not_or, -String.reduceToList, -String.reduceAppend]
  repeat' apply And.intro
  all_goals first | exact notMem_toList rfl rfl | exact forall_mem_nil _

theorem travellerChecklist_plain : (checklistJson travellerChecklist).plain = true := by
  simp only [checklistJson, travellerChecklist, List.map, Json.plain, plainAll, plainPairs, Bool.and_eq_true,
    Bool.and_true, Bool.not_eq_true', contains_eq_mem, decide_eq_false_iff_not, String.toList_append,
    mem_append, not_or, -String.reduceToList, -String.reduceAppend]
  repeat' apply And.intro
  all_goals exact notMem_toList rfl rfl

theorem plainCount_traveller (W : World σ) (s : State σ) (email : String) : PlainCount (W.count s (.traveller email)) := by
  refine ⟨fun r hr => ?_, fun t ht => ?_⟩
  · obtain ⟨scan, hscan, hr⟩ := mem_filterMap.1 hr
    obtain ⟨m, -, rfl⟩ := map_eq_some_iff.1 hr
    obtain ⟨h1, -, h2, h3⟩ := travellerScans_plain scan hscan
    exact ⟨h1, h2, h3⟩
  · obtain ⟨scan, hscan, rfl⟩ := mem_map.1 ht
    exact (travellerScans_plain scan (mem_filter.1 hscan).1).2.1

theorem plain_countRow {r : CountRow} (h : '@' ∉ r.table.toList ∧ '@' ∉ r.action.toList ∧ '@' ∉ r.reason.toList) :
    r.json.plain = true := by
  have hids : plainAll (r.ids.map fun i => .str i.text) = true := by
    rw [plainAll_iff]
    intro x hx
    obtain ⟨i, -, rfl⟩ := mem_map.1 hx
    simp [Json.plain, i.noAt]
  simp [CountRow.json, Json.plain, plainPairs, num, hids, h]

theorem plain_rows {rows : List CountRow}
    (h : ∀ r ∈ rows, '@' ∉ r.table.toList ∧ '@' ∉ r.action.toList ∧ '@' ∉ r.reason.toList) :
    plainAll (rows.map CountRow.json) = true := by
  rw [plainAll_iff]
  intro x hx
  obtain ⟨r, hr, rfl⟩ := mem_map.1 hx
  exact plain_countRow (h r hr)

theorem plain_totals {rows : List CountRow} (h : ∀ r ∈ rows, '@' ∉ r.action.toList) : plainPairs (totals rows) = true := by
  rw [plainPairs_iff]
  intro x hx
  obtain ⟨k, hk, rfl⟩ := mem_map.1 hx
  obtain ⟨r, hr, rfl⟩ := mem_map.1 (mem_eraseDups.1 hk)
  refine ⟨fun hat => h r hr ?_, rfl⟩
  rw [String.toList_ofList] at hat
  exact (takeWhile_subset _) hat

theorem plain_dryResult (email : String) (fp : Plain) {c : Counted} (env : Env) (h : PlainCount c) :
    plainPairs (dryResult (.traveller email) fp c env) = true := by
  have htotals := plain_totals fun r hr => (h.rows r hr).2.1
  have hrows := plain_rows h.rows
  have hmanual : plainAll ((c.rows.filter fun r => r.action == "manual" && r.rows != 0).map
      CountRow.json) = true :=
    plain_rows fun r hr => h.rows r (mem_filter.1 hr).1
  have hskipped : plainAll (c.skipped.map Json.str) = true := by
    rw [plainAll_iff]
    intro x hx
    obtain ⟨t, ht, rfl⟩ := mem_map.1 hx
    simp [Json.plain, h.skipped t ht]
  have hset : (applySettings env none).plain = true := by
    cases env with
    | mk enabled days hours => cases enabled <;> rfl
  simp [dryResult, Counted.ofSubject, Subject.name, plainPairs, Json.plain, num, fp.noAt, htotals, hrows,
    hmanual, hskipped, travellerChecklist_plain, hset, plainAll]

end CisApp.Erasure
