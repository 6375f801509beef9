import CisApp.Erasure.DryRun

/-!
# One approval, one apply

However the executions of a history interleave with each other and with the
queue, at most one apply transaction is committed for a DRY RUN, and once an
apply took it no other one writes (`one_apply_per_dry_run`).
-/

namespace CisApp.Erasure

open List Option

open Jobs Lib Releases

variable {σ : Type}

/-! ## The executions -/

/-- What is known of an execution beside the job table `t`. -/
structure ExecOk (W : World σ) (D : JobId) (t : JobTable) (e : Exec) : Prop where
  names : ∀ a, e.req.mode = .apply a → W.castUuid a.dryRunJobId = some D
  counted : ∀ row c, e.phase = .counted row c → e.req.subject.isTraveller = true → PlainCount c
  read : ∀ row c r, e.phase = .readDry row c (some r) →
    RowOk W D r ∧ ∀ plain, SealedRow plain r → SealedAt D plain t
  took : e.tookDry = true → TakenAt D e.req.subject.isTraveller t
  claimed : ∀ c key, e.phase = .claimed c key → e.tookDry = true
  committed : e.committed = true → e.tookDry = true
  returned : ∀ o, e.phase = .returned o → SaltPlain o

section executions

variable {W : World σ} {D : JobId}

variable {t : JobTable}

theorem ExecOk.lasts {t' : JobTable} {e : Exec} (h : ExecOk W D t e) (hl : Lasts D t t') : ExecOk W D t' e where
  names := h.names
  counted := h.counted
  read row c r he := ⟨(h.read row c r he).1, fun plain hr => hl.sealedAt ((h.read row c r he).2 plain hr)⟩
  took ht := hl.takenAt (h.took ht)
  claimed := h.claimed
  committed := h.committed
  returned := h.returned

theorem ExecOk.move {e : Exec} (h : ExecOk W D t e) {phase : Phase}
    (hcount : ∀ row c, phase = .counted row c → e.req.subject.isTraveller = true → PlainCount c)
    (hread : ∀ row c r, phase = .readDry row c (some r) →
      RowOk W D r ∧ ∀ plain, SealedRow plain r → SealedAt D plain t)
    (hclaimed : ∀ c key, phase ≠ .claimed c key) (hret : ∀ o, phase = .returned o → SaltPlain o) :
    ExecOk W D t { e with phase := phase } where
  names := h.names
  counted := hcount
  read := hread
  took := h.took
  claimed c key he := absurd he (hclaimed c key)
  committed := h.committed
  returned := hret

theorem sealedRow_of_no_refusal {req : Request} {a : Approval} {dry : Option JobRow}
    {row : Option TenantRow} {now : Int} {env : Env} (h : applyRefusals req a dry row now env = some [])
    (hdry : ∀ r, dry = some r → RowOk W D r) : ∃ r, dry = some r ∧ SealedRow req.subject.isTraveller r := by
  unfold applyRefusals at h
  cases dry with
  | none => simp at h
  | some r =>
    simp only [Option.bind_eq_bind, Option.bind_eq_some_iff, Option.map_eq_some_iff, Option.pure_def,
      Option.some.injEq, append_eq_nil_iff] at h
    obtain ⟨_, ⟨res, hres, rfl⟩, ⟨-, hdr⟩, -⟩ := h
    unfold dryRunRefusals at hdr
    simp only [append_eq_nil_iff] at hdr
    obtain ⟨⟨⟨⟨⟨⟨hdone, -⟩, -⟩, hsalt⟩, -⟩, -⟩, -⟩ := hdr
    have hdone : r.kind = erasureKind ∧ r.status = .succeeded ∧ isText (res.at? "mode") "dry_run" = true := by
      unfold refuse at hdone
      split at hdone
      · cases hdone
      · next hn => simpa [and_assoc] using hn
    have hobj : r.result = some (.obj res) := by
      unfold resultFields at hres
      split at hres
      · next o ho => rw [ho, Option.some.inj hres]
      · split at hres
        · cases hres
        · cases hres
          simp [isText, JObj.at?] at hdone
    refine ⟨r, rfl, hdone.1, hdone.2.1, res, hobj, fun ht => ?_⟩
    refine (hdry r rfl).salt hdone.1 res hobj ?_
    have hhex : hexes 32 (pyText (res.at? "subject_salt")).toList = true := by
      split at hsalt
      · cases hsalt
      · unfold refuse at hsalt
        split at hsalt
        · cases hsalt
        · next hn => simpa [ht] using hn
    cases hs : res.at? "subject_salt" with
    | some v => rfl
    | none =>
      rw [hs] at hhex
      simp [pyText, hexes] at hhex

theorem update_eq_self {p : JobId → JobRow → Bool} {f : JobId → JobRow → JobRow}
    (h : ∀ k r, t.get? k = some r → p k r = false) : t.update p f = t := by
  unfold Table.update
  congr 1
  conv_rhs => rw [← map_id t.rows]
  refine map_congr_left fun x hx => ?_
  rw [if_neg (by simp [h x.1 x.2 ((Table.get?_eq_some_iff t x.1 x.2).2 hx)])]
  rfl

theorem claimDry_spec (now : Int) (job : Plain) {plain : Bool} (h : SealedAt D plain t) :
    ((claimDry t now D job).2 = true → TakenAt D plain (claimDry t now D job).1) ∧
    (∀ p, TakenAt D p t → claimDry t now D job = (t, false)) := by
  obtain ⟨r, hr, hs⟩ := h
  constructor
  · intro hc
    have hu : isUsed r = false := by simpa [claimDry, hr] using hc
    refine ⟨claimDryRow now job r, ?_, (lasting_claimDryRow now job r plain hs).1, isUsed_claimDryRow now job hs⟩
    show (t.update _ _).get? D = _
    rw [get?_update_some hr]
    simp [hu]
  · rintro p ⟨r', hr', -, hu⟩
    obtain rfl : r = r' := Option.some.inj (hr.symm.trans hr')
    unfold claimDry
    simp only [hr, hu, Bool.not_true, Prod.mk.injEq, and_true]
    refine update_eq_self fun k x hx => ?_
    by_cases hk : k = D
    · obtain rfl : r = x := Option.some.inj ((hk ▸ hr).symm.trans hx)
      simp [hu]
    · simp [hk]

end executions

/-! ## One step of the history -/

/-- What a step of the execution `e` may do: the rows stay as they are meant to be, the DRY RUN
`D` lasts, the execution is known of as before, and it takes `D` only where no one did. -/
structure ActOk (W : World σ) (D : JobId) (s : State σ) (e : Exec) (x : State σ × Exec) : Prop where
  rows : RowsOk W D x.1.jobs
  lasts : Lasts D s.jobs x.1.jobs
  exec : ExecOk W D x.1.jobs x.2
  first : x.2.tookDry = true → e.tookDry = true ∨ ∀ p, ¬ TakenAt D p s.jobs

section steps

variable {W : World σ} {D : JobId} {s : State σ} {e : Exec}

theorem actOk_move (hrows : RowsOk W D s.jobs) {phase : Phase}
    (he : ExecOk W D s.jobs { e with phase := phase }) : ActOk W D s e (s, { e with phase := phase }) :=
  ⟨hrows, .refl D _, he, Or.inl⟩

variable {c : Counted}

theorem plain_salted {email : String} {fp salt : Plain} {env : Env} (h : PlainCount c) :
    plainPairs (dryResult (.traveller email) fp c env ++ [("subject_salt", .str salt.text)]) = true := by
  have hplain := plain_dryResult email fp env h
  rw [plainPairs_iff] at hplain ⊢
  intro x hx
  rcases mem_append.1 hx with hx | hx
  · exact hplain x hx
  · rw [mem_singleton] at hx
    subst hx
    exact ⟨by simp, by simp [Json.plain, salt.noAt]⟩

variable {row : Option TenantRow}

theorem actOk_finishDry (hrows : RowsOk W D s.jobs) (he : ExecOk W D s.jobs e)
    {verify : Bool} (hphase : e.phase = .counted row c) (hmode : e.req.mode = .dryRun verify)
    (now : Int) (env : Env) (salt : Plain) : ActOk W D s e (W.perform s e (.finishDry now env salt)) := by
  unfold World.perform
  rw [hphase, hmode]
  dsimp only
  split
  · have hl : Lasts D s.jobs (stripHash s.jobs now [e.job] none "stripped-after-verify") :=
      lasts_stripHash D s.jobs now _ _ _
    refine ⟨hrows.stripHash now _ _ _, hl, (he.lasts hl).move (by simp) (by simp) (by simp) ?_, Or.inl⟩
    intro o ho
    cases ho
    refine .of_none ?_
    rw [at?_append, noSalt_dryResult]
    simp [JObj.at?, List.lookup]
  · split
    · next ht =>
      refine actOk_move hrows (he.move (by simp) (by simp) (by simp) ?_)
      intro o ho
      cases ho
      intro _
      have hc : PlainCount c := he.counted row c hphase ht
      cases hsub : e.req.subject with
      | tenant tid =>
        rw [hsub] at ht
        cases ht
      | traveller email => exact plain_salted hc
    · refine actOk_move hrows (he.move (by simp) (by simp) (by simp) ?_)
      intro o ho
      cases ho
      exact .of_none (noSalt_dryResult _ _ _ _)

variable {a : Approval}

theorem actOk_readDry (hrows : RowsOk W D s.jobs) (he : ExecOk W D s.jobs e)
    (hphase : e.phase = .counted row c) (hmode : e.req.mode = .apply a) : ActOk W D s e (W.perform s e .readDry) := by
  unfold World.perform
  rw [hphase, hmode]
  dsimp only
  rw [he.names a hmode]
  refine actOk_move hrows (he.move (by simp) ?_ (by simp) (by simp))
  intro row' c' r heq
  have hr : s.jobs.get? D = some r := (Phase.readDry.inj heq).2.2
  exact ⟨hrows D r hr, fun plain hs => ⟨r, hr, hs⟩⟩

theorem perform_claim {dry : Option JobRow}
    (he : ExecOk W D s.jobs e) (hphase : e.phase = .readDry row c dry) (hmode : e.req.mode = .apply a)
    (now : Int) (env : Env) :
    W.perform s e (.claim now env) = (s, { e with phase := .raised }) ∨
    (SealedAt D e.req.subject.isTraveller s.jobs ∧ ∃ key, W.perform s e (.claim now env) =
      ({ s with jobs := (claimDry s.jobs now D (W.idText e.job)).1 },
        if (claimDry s.jobs now D (W.idText e.job)).2 then
          { e with phase := .claimed c key, tookDry := true }
        else { e with phase := .raised })) := by
  unfold World.perform
  rw [hphase, hmode]
  dsimp only
  rw [he.names a hmode]
  split
  · next id hno hid =>
    cases hid
    right
    obtain ⟨r, rfl, hs⟩ := sealedRow_of_no_refusal hno fun r hr => (he.read row c r (hr ▸ hphase)).1
    exact ⟨(he.read row c r hphase).2 _ hs, _, rfl⟩
  · exact Or.inl rfl

theorem actOk_claim (hrows : RowsOk W D s.jobs) (he : ExecOk W D s.jobs e)
    {dry : Option JobRow} (hphase : e.phase = .readDry row c dry)
    (hmode : e.req.mode = .apply a) (now : Int) (env : Env) : ActOk W D s e (W.perform s e (.claim now env)) := by
  rcases perform_claim he hphase hmode now env with heq | ⟨hs, key, heq⟩
  · rw [heq]
    exact actOk_move hrows (he.move (by simp) (by simp) (by simp) (by simp))
  · rw [heq]
    have hl := lasts_claimDry D s.jobs now D (W.idText e.job)
    obtain ⟨htaken, hfree⟩ := claimDry_spec now (W.idText e.job) hs
    refine ⟨hrows.claimDry now D _, hl, ?_, ?_⟩
    · split
      · next hc =>
        exact
          { names := he.names
            counted := by simp
            read := by simp
            took := fun _ => htaken hc
            claimed := fun _ _ _ => rfl
            committed := fun _ => rfl
            returned := by simp }
      · exact (he.lasts hl).move (by simp) (by simp) (by simp) (by simp)
    · split
      · next hc =>
        refine fun _ => Or.inr fun p hp => ?_
        rw [hfree p hp] at hc
        cases hc
      · exact Or.inl

theorem actOk_apply (hrows : RowsOk W D s.jobs) (he : ExecOk W D s.jobs e) {key : String}
    (hphase : e.phase = .claimed c key) (hmode : e.req.mode = .apply a) (now : Int)
    (env : Env) : ActOk W D s e (W.perform s e (.apply now env)) := by
  have htook : e.tookDry = true := he.claimed c key hphase
  unfold World.perform
  rw [hphase, hmode]
  dsimp only
  split
  · exact actOk_move hrows (he.move (by simp) (by simp) (by simp) (by simp))
  · next t rest done htx =>
    have hl : Lasts D s.jobs t := lasts_applyTx (he.took htook).sealedAt htx
    exact ⟨hrows.applyTx htx, hl,
      { names := he.names
        counted := by simp
        read := by simp
        took := fun _ => hl.takenAt (he.took htook)
        claimed := by simp
        committed := fun _ => htook
        returned := by simp }, fun _ => Or.inl htook⟩

theorem perform_ok (hrows : RowsOk W D s.jobs) (he : ExecOk W D s.jobs e) (act : Act) :
    ActOk W D s e (W.perform s e act) := by
  have hstay : ActOk W D s e (s, e) := ⟨hrows, .refl D _, he, Or.inl⟩
  cases act with
  | readTenant =>
    cases hphase : e.phase with
    | started =>
      simp only [World.perform, hphase]
      exact actOk_move hrows (he.move (by simp) (by simp) (by simp) (by simp))
    | _ => simpa only [World.perform, hphase] using hstay
  | count =>
    cases hphase : e.phase with
    | readTenant row =>
      simp only [World.perform, hphase]
      refine actOk_move hrows (he.move ?_ (by simp) (by simp) (by simp))
      intro row' c heq ht
      cases heq
      cases hsub : e.req.subject with
      | tenant tid =>
        rw [hsub] at ht
        cases ht
      | traveller email => exact plainCount_traveller W s email
    | _ => simpa only [World.perform, hphase] using hstay
  | finishDry now env salt =>
    cases hphase : e.phase with
    | counted row c =>
      cases hmode : e.req.mode with
      | dryRun verify => exact actOk_finishDry hrows he hphase hmode now env salt
      | apply a => simpa only [World.perform, hphase, hmode] using hstay
    | _ => simpa only [World.perform, hphase] using hstay
  | readDry =>
    cases hphase : e.phase with
    | counted row c =>
      cases hmode : e.req.mode with
      | dryRun verify => simpa only [World.perform, hphase, hmode] using hstay
      | apply a => exact actOk_readDry hrows he hphase hmode
    | _ => simpa only [World.perform, hphase] using hstay
  | claim now env =>
    cases hphase : e.phase with
    | readDry row c dry =>
      cases hmode : e.req.mode with
      | dryRun verify => simpa only [World.perform, hphase, hmode] using hstay
      | apply a => exact actOk_claim hrows he hphase hmode now env
    | _ => simpa only [World.perform, hphase] using hstay
  | apply now env =>
    cases hphase : e.phase with
    | claimed c key =>
      cases hmode : e.req.mode with
      | dryRun verify => simpa only [World.perform, hphase, hmode] using hstay
      | apply a => exact actOk_apply hrows he hphase hmode now env
    | _ => simpa only [World.perform, hphase] using hstay
  | finishApply env =>
    cases hphase : e.phase with
    | applied c key done =>
      simp only [World.perform, hphase]
      refine actOk_move hrows (he.move (by simp) (by simp) (by simp) ?_)
      intro o ho
      cases ho
      exact .of_none (noSalt_applyResult _ _ _ _ _ _)
    | _ => simpa only [World.perform, hphase] using hstay

end steps

/-! ## A whole history -/

/-- The applies of the history name the DRY RUN `D`. -/
def Names (W : World σ) (D : JobId) : Op → Prop
  | .queue (.enqueue _ _ kind payload _ _ _ _ _) => kind = erasureKind → isApply payload = true →
      W.castUuid (pyText (payload.at? "dry_run_job_id")) = some D
  | _ => True

def history (W : World σ) (rest : σ) (ops : List Op) : State σ :=
  run (State.step W) (State.init rest) ops

def State.tables (s : State σ) : JobTable × σ × List AuditEntry := (s.jobs, s.rest, s.audit)

structure HistoryInv (W : World σ) (D : JobId) (s : State σ) : Prop where
  rows : RowsOk W D s.jobs
  execs : ∀ e ∈ s.execs, ExecOk W D s.jobs e
  once : ∀ (i j : Nat) (e e' : Exec), s.execs[i]? = some e → s.execs[j]? = some e' → e.tookDry = true →
    e'.tookDry = true → i = j

section history

variable {W : World σ} {D : JobId}

theorem HistoryInv.init (rest : σ) : HistoryInv W D (State.init rest) :=
  ⟨Table.All.empty, by simp [State.init], by simp [State.init]⟩

theorem HistoryInv.of_lasts {s : State σ} (h : HistoryInv W D s) {t : JobTable} (hrows : RowsOk W D t)
    (hl : Lasts D s.jobs t) : HistoryInv W D { s with jobs := t } :=
  ⟨hrows, fun e he => (h.execs e he).lasts hl, h.once⟩

theorem HistoryInv.act {s : State σ} (h : HistoryInv W D s) (i : Nat) (a : Act) : HistoryInv W D (s.step W (.act i a)) := by
  unfold State.step
  dsimp only
  cases hi : s.execs[i]? with
  | none => exact h
  | some e =>
    have hok := perform_ok h.rows (h.execs e (mem_of_getElem? hi)) a
    refine ⟨hok.rows, fun e' he' => ?_, ?_⟩
    · rcases mem_or_eq_of_mem_set he' with he' | rfl
      · exact (h.execs e' he').lasts hok.lasts
      · exact hok.exec
    · -- the execution that moved took `D` before, or takes it where no one had
      have hnew : ∀ j e', j ≠ i → s.execs[j]? = some e' → e'.tookDry = true →
          (W.perform s e a).2.tookDry = true → False := by
        intro j e' hj he' ht ht'
        rcases hok.first ht' with hold | hfree
        · exact hj (h.once j i e' e he' hi ht hold)
        · exact hfree _ ((h.execs e' (mem_of_getElem? he')).took ht)
      have hset : ∀ k x, (s.execs.set i (W.perform s e a).2)[k]? = some x →
          (k = i ∧ x = (W.perform s e a).2) ∨ (k ≠ i ∧ s.execs[k]? = some x) := by
        intro k x hx
        rw [List.getElem?_set] at hx
        split at hx
        · next hk =>
          split at hx
          · exact Or.inl ⟨hk.symm, (Option.some.inj hx).symm⟩
          · cases hx
        · next hk => exact Or.inr ⟨Ne.symm hk, hx⟩
      intro j k x y hj hk hx hy
      rcases hset j x hj with ⟨rfl, rfl⟩ | ⟨hji, hj'⟩
      · rcases hset k y hk with ⟨rfl, rfl⟩ | ⟨hki, hk'⟩
        · rfl
        · exact (hnew k y hki hk' hy hx).elim
      · rcases hset k y hk with ⟨rfl, rfl⟩ | ⟨hki, hk'⟩
        · exact (hnew j x hji hj' hx hy).elim
        · exact h.once j k x y hj' hk' hx hy

theorem bind_ok {α β : Type} {x : Except String α} {f : α → Except String β} {b : β} :
    (x >>= f) = .ok b ↔ ∃ a, x = .ok a ∧ f a = .ok b := by
  cases x <;> simp [bind, Except.bind]

theorem dryRunJobId_of_valid {p : JObj} {req : Request} {a : Approval}
    (h : validatePayload p = .ok req) (ha : req.mode = .apply a) :
    isApply p = true ∧ a.dryRunJobId = pyText (p.at? "dry_run_job_id") := by
  unfold validatePayload at h
  simp only [bind_ok] at h
  obtain ⟨_, -, _, -, _, -, subject, -, h⟩ := h
  split at h
  · next happly =>
    obtain ⟨a', ha', h⟩ := bind_ok.1 h
    cases h
    cases ha
    unfold validateApproval at ha'
    simp only [bind_ok] at ha'
    obtain ⟨v, hv, _, -, _, -, _, -, _, -, _, -, h⟩ := ha'
    cases h
    refine ⟨happly, ?_⟩
    unfold needed at hv
    dsimp only at hv
    split at hv
    · cases hv
    · exact (Except.ok.inj hv).symm
  · cases h
    cases ha

theorem execOk_started {t : JobTable} (hrows : RowsOk W D t) (now : Int) (worker : String)
    (caps : List (String × Int)) (lease : Int) (locked : List JobId) :
    ∀ e ∈ started (claim t now worker caps lease locked).2, e.tookDry = false ∧ ∀ t', ExecOk W D t' e := by
  intro e he
  unfold started at he
  split at he
  · cases he
  · next j hj =>
    split at he
    · next hkind =>
      split at he
      · next req hreq =>
        rw [mem_singleton] at he
        subst he
        refine ⟨rfl, fun t' => ⟨fun a ha => ?_, by simp, by simp, by simp, by simp, by simp, by simp⟩⟩
        obtain ⟨happly, hid⟩ := dryRunJobId_of_valid hreq ha
        unfold claim at hj
        split at hj
        · cases hj
        · next id r hc =>
          cases hj
          rw [hid]
          exact (hrows id r (claimable_spec hc).1).names hkind happly
      · cases he
    · cases he

theorem HistoryInv.queue {s : State σ} (h : HistoryInv W D s) {op : QueueOp} (hop : Names W D (.queue op)) :
    HistoryInv W D (s.step W (.queue op)) := by
  unfold State.step queueStep
  dsimp only
  split
  · exact h
  · next hno =>
    simp only [Bool.or_eq_true, not_or, Bool.not_eq_true] at hno
    have hstore : ∀ k r, storesFor op = some k → s.jobs.get? k = some r → r.kind ≠ erasureKind := by
      intro k r hk hr hkind
      have := hno.2
      simp [hk, isErasure, hr, hkind] at this
    have hnew : ∀ k r', Inserted s.jobs k op r' → RowOk W D r' := by
      intro k r' hins
      cases hins with
      | enqueue hmax hkind hkey hfree =>
        exact ⟨fun _ _ ho => absurd ho (by simp [newRow]), hop⟩
    have hrows : RowsOk W D (Jobs.step s.jobs op) := h.rows.step hstore hnew
    have hl : Lasts D s.jobs (Jobs.step s.jobs op) := lasts_step D s.jobs op
    split
    · next now worker caps lease locked =>
      have hstart := execOk_started h.rows now worker caps lease locked
      refine ⟨hrows, fun e he => ?_, ?_⟩
      · rcases mem_append.1 he with he | he
        · exact (h.execs e he).lasts hl
        · exact (hstart e he).2 _
      · have hold : ∀ (i : Nat) (e : Exec), (s.execs ++ started (claim s.jobs now worker caps lease locked).2)[i]? = some e →
            e.tookDry = true → s.execs[i]? = some e := by
          intro i e he ht
          rw [List.getElem?_append] at he
          split at he
          · exact he
          · have := (hstart e (mem_of_getElem? he)).1
            rw [ht] at this
            cases this
        intro i j e e' hi hj ht ht'
        exact h.once i j e e' (hold i e hi ht) (hold j e' hj ht') ht ht'
    · exact h.of_lasts hrows hl

theorem HistoryInv.store {s : State σ} (h : HistoryInv W D s) (i : Nat) (op : QueueOp) :
    HistoryInv W D (s.step W (.store i op)) := by
  unfold State.step
  dsimp only
  split
  · exact h
  · next e he =>
    split
    · next result hphase =>
      split
      · next op' hop =>
        have hret : SaltPlain result := (h.execs e (mem_of_getElem? he)).returned result hphase
        exact h.of_lasts (h.rows.store hret hop) (lasts_step D s.jobs op')
      · exact h
    · exact h

theorem HistoryInv.step {s : State σ} (h : HistoryInv W D s) {op : Op} (hop : Names W D op) :
    HistoryInv W D (s.step W op) := by
  cases op with
  | queue op => exact h.queue hop
  | act i a => exact h.act i a
  | store i op => exact h.store i op
  | terminal now job payload status =>
    exact h.of_lasts (h.rows.onTerminal now job payload status) (lasts_onTerminal D s.jobs now job payload status)

theorem history_inv (rest : σ) {ops : List Op} (h : ∀ op ∈ ops, Names W D op) : HistoryInv W D (history W rest ops) :=
  (Along.always (G := fun _ op => Names W D op) (fun _ _ hs hop => hs.step hop) (HistoryInv.init rest)
    (along_of_forall h)).run

theorem perform_frozen {s : State σ} {e : Exec} {a : Approval} {p : Bool} (he : ExecOk W D s.jobs e)
    (hmode : e.req.mode = .apply a) (htook : e.tookDry = false) (hD : TakenAt D p s.jobs) (act : Act) :
    (W.perform s e act).1 = s := by
  cases act with
  | readTenant => cases hphase : e.phase <;> simp only [World.perform, hphase]
  | count => cases hphase : e.phase <;> simp only [World.perform, hphase]
  | finishDry now env salt => cases hphase : e.phase <;> simp only [World.perform, hphase, hmode]
  | readDry =>
    cases hphase : e.phase <;> simp only [World.perform, hphase, hmode]
    split <;> rfl
  | claim now env =>
    cases hphase : e.phase with
    | readDry row c dry =>
      rcases perform_claim he hphase hmode now env with heq | ⟨hs, key, heq⟩
      · rw [heq]
      · rw [heq]
        rw [(claimDry_spec now _ hs).2 p hD]
    | _ => simp only [World.perform, hphase]
  | apply now env =>
    cases hphase : e.phase with
    | claimed c key =>
      have := he.claimed c key hphase
      rw [htook] at this
      cases this
    | _ => simp only [World.perform, hphase]
  | finishApply env => cases hphase : e.phase <;> simp only [World.perform, hphase]

theorem perform_tookDry (s : State σ) {e : Exec} (act : Act) (ht : e.tookDry = true) :
    (W.perform s e act).2.tookDry = true := by
  unfold World.perform
  split
  · exact ht
  · exact ht
  · split
    · exact ht
    · split <;> exact ht
  · split <;> exact ht
  · split
    · dsimp only
      split
      · rfl
      · exact ht
    · exact ht
  · split <;> exact ht
  · exact ht
  · exact ht

theorem tookDry_step (op : Op) {s : State σ} {i : Nat} {e : Exec} (he : s.execs[i]? = some e)
    (ht : e.tookDry = true) : ∃ e', (s.step W op).execs[i]? = some e' ∧ e'.tookDry = true := by
  cases op with
  | queue op =>
    unfold State.step queueStep
    dsimp only
    split
    · exact ⟨e, he, ht⟩
    · split
      · refine ⟨e, ?_, ht⟩
        rw [List.getElem?_append_left (List.getElem?_eq_some_iff.1 he).1]
        exact he
      · exact ⟨e, he, ht⟩
  | act j a =>
    unfold State.step
    dsimp only
    cases hj : s.execs[j]? with
    | none => exact ⟨e, he, ht⟩
    | some x =>
      by_cases hij : j = i
      · subst hij
        obtain rfl : x = e := Option.some.inj (hj.symm.trans he)
        refine ⟨(W.perform s x a).2, ?_, perform_tookDry s a ht⟩
        rw [List.getElem?_set_self (List.getElem?_eq_some_iff.1 he).1]
      · exact ⟨e, by rw [List.getElem?_set_ne hij, he], ht⟩
  | store j op =>
    unfold State.step
    dsimp only
    split
    · exact ⟨e, he, ht⟩
    · split
      · split <;> exact ⟨e, he, ht⟩
      · exact ⟨e, he, ht⟩
  | terminal now job payload status => exact ⟨e, he, ht⟩

theorem tookDry_run (ops : List Op) {s : State σ} {i : Nat} {e : Exec} (he : s.execs[i]? = some e)
    (ht : e.tookDry = true) : ∃ e', (run (State.step W) s ops).execs[i]? = some e' ∧ e'.tookDry = true := by
  induction ops generalizing s e with
  | nil => exact ⟨e, he, ht⟩
  | cons op ops ih =>
    obtain ⟨e', he', ht'⟩ := tookDry_step (W := W) op he ht
    exact ih he' ht'

/-- **One approval, one apply.**  In every history whose applies name the DRY RUN `D`, at most
one apply transaction is committed; and once an execution took `D`, no step of another apply
changes a table. -/
theorem one_apply_per_dry_run (W : World σ) (D : JobId) (rest : σ) (ops : List Op) (h : ∀ op ∈ ops, Names W D op) :
    (∀ (i j : Nat) (e e' : Exec), (history W rest ops).execs[i]? = some e →
      (history W rest ops).execs[j]? = some e' → e.committed = true → e'.committed = true → i = j) ∧
    ∀ (before middle after : List Op) (i j : Nat) (act : Act) (e e' : Exec) (a : Approval),
      ops = before ++ middle ++ .act j act :: after →
      (history W rest before).execs[i]? = some e → e.tookDry = true → j ≠ i →
      (history W rest (before ++ middle)).execs[j]? = some e' → e'.req.mode = .apply a →
      ((history W rest (before ++ middle)).step W (.act j act)).tables = (history W rest (before ++ middle)).tables := by
  constructor
  · have hinv := history_inv rest h
    intro i j e e' hi hj hc hc'
    exact hinv.once i j e e' hi hj ((hinv.execs e (mem_of_getElem? hi)).committed hc)
      ((hinv.execs e' (mem_of_getElem? hj)).committed hc')
  · rintro before middle after i j act e e' a rfl hi ht hij hj hmode
    have hinv : HistoryInv W D (history W rest (before ++ middle)) :=
      history_inv rest fun op hop => h op (mem_append_left _ hop)
    obtain ⟨e₁, hi₁, ht₁⟩ := tookDry_run (W := W) middle hi ht
    have hi₁ : (history W rest (before ++ middle)).execs[i]? = some e₁ := by
      rw [history, run_append]
      exact hi₁
    have htaken := (hinv.execs e₁ (mem_of_getElem? hi₁)).took ht₁
    have hnot : e'.tookDry = false := by
      rw [Bool.eq_false_iff]
      intro ht'
      exact hij (hinv.once j i e' e₁ hj hi₁ ht' ht₁)
    have hfrozen := perform_frozen (hinv.execs e' (mem_of_getElem? hj)) hmode hnot htaken act
    generalize history W rest (before ++ middle) = s at hj hfrozen ⊢
    simp only [State.step, hj, hfrozen, State.tables]

end history

/-! A history in which two applies read the same DRY RUN: the first one's lease has ended and its
job is marked failed when it comes to the claim, still ahead of the second. -/

def jobIdText (k : JobId) : Plain :=
  if k = 1 then ⟨"00000000-0000-4000-8000-000000000001", by decide⟩
  else if k = 2 then ⟨"00000000-0000-4000-8000-000000000002", by decide⟩
  else ⟨"00000000-0000-4000-8000-000000000003", by decide⟩

/-- One offboarded tenant with one row; the state says whether it is there. -/
def oneTenant : World Bool where
  castUuid s := [1, 2, 3].find? fun k => (jobIdText k).text == s
  idText := jobIdText
  hash t := t
  fingerprint _ _ rows :=
    if rows.isEmpty then ⟨"b2", by decide⟩
    else ⟨"a1a1a1a1a1a1a1a1a1a1a1a1a1a1a1a1a1a1a1a1a1a1a1a1a1a1a1a1a1a1a1a1", by decide⟩
  tenantRow there _ := if there then some ⟨false, some 0⟩ else none
  countTenant there _ _ := (if there then [⟨"shared.tenants", "delete", 1, "the account", []⟩] else [], [])
  s3Blockers _ _ := []
  tenantReport _ _ _ :=
    ⟨.null, .null, .null, .null, .null, .null, .null, .null, .null, .null, .null, none, none⟩
  found _ _ _ _ := none
  eraseTenant there _ _ := if there then some (false, [⟨"shared.tenants", "delete", 1, "", []⟩]) else none
  eraseTraveller _ _ _ := none
  left _ _ _ := []

def dryRunPayload : JObj :=
  [("subject", .str "tenant"), ("tenant", .str "00000000-0000-4000-8000-00000000000a"),
    ("mode", .str "dry_run")]

def applyPayload : JObj :=
  [("subject", .str "tenant"), ("tenant", .str "00000000-0000-4000-8000-00000000000a"),
    ("mode", .str "apply"), ("dry_run_job_id", .str "00000000-0000-4000-8000-000000000001"),
    ("approved_fingerprint", .str "a1a1a1a1a1a1a1a1a1a1a1a1a1a1a1a1a1a1a1a1a1a1a1a1a1a1a1a1a1a1a1a1"),
    ("approved_by", .str "approver"), ("snapshot_id", .str "before-erasure")]

def applyOn : Env := ⟨true, 30, 24⟩

def day (n : Int) : Int := secs (86400 * n)

def twoApplies : List Op :=
  [.queue (.enqueue (day 40) 1 erasureKind dryRunPayload none 1 none none none),
    .queue (.claim (day 40) "w1" [(erasureKind, 1)] 60 []),
    .act 0 .readTenant, .act 0 .count, .act 0 (.finishDry (day 40) applyOn ⟨"c3", by decide⟩),
    .store 0 (.complete (day 40) 1 "w1" none none),
    .queue (.enqueue (day 40) 2 erasureKind applyPayload none 1 none none none),
    .queue (.claim (day 40) "w1" [(erasureKind, 1)] 60 []),
    .act 1 .readTenant, .act 1 .count, .act 1 .readDry,
    .queue (.reapFail (day 40 + secs 90)),
    .queue (.enqueue (day 40) 3 erasureKind applyPayload none 1 none none none),
    .queue (.claim (day 40 + secs 100) "w2" [(erasureKind, 1)] 60 []),
    .act 2 .readTenant, .act 2 .count, .act 2 .readDry,
    .act 1 (.claim (day 40 + secs 110) applyOn), .act 2 (.claim (day 40 + secs 120) applyOn),
    .act 1 (.apply (day 40 + secs 130) applyOn)]

theorem twoApplies_names : ∀ op ∈ twoApplies, Names oneTenant 1 op := by
  simp [twoApplies, Names, oneTenant, dryRunPayload, applyPayload, isApply, isText, JObj.at?, List.lookup,
    pyText, jobIdText]

theorem one_apply_twoApplies : (history oneTenant true twoApplies).execs.map (fun e => (e.tookDry, e.committed)) =
      [(false, false), (true, true), (false, false)] ∧
    ∀ (i j : Nat) (e e' : Exec), (history oneTenant true twoApplies).execs[i]? = some e →
      (history oneTenant true twoApplies).execs[j]? = some e' → e.committed = true → e'.committed = true → i = j :=
  ⟨by decide +kernel, (one_apply_per_dry_run oneTenant 1 true twoApplies twoApplies_names).1⟩

end CisApp.Erasure
