import CisApp.Lifecycle.Alive

/-!
# One action with nobody else on the key

`perform` runs the statements of an action to their end.  `Performed` says what came
of it in the terms of the served state: the state before, the state after, and the
events and notices that `_cascade` made of the two (`perform_performed`).  What is
particular to `supersede` and `set_active`, the two actions that supersede versions,
is in `supersede_after` and `setActive_after`.
-/

namespace CisApp.Lifecycle

open Lib List

variable {d : Record} {rows rows' : Rows} {out out' : Outcome} {st : Statement}
  {e : StatementEffect} {todo : List Statement}

variable {req : Request}

theorem perform_eq_ok {k k' : Key} (h : perform k req = .ok k') :
    ∃ rows' out, lifecycle.Does k.record k.rows (lifecycle.data req) (program req.action) rows' out ∧
      k' = ⟨rows', commitRecord k.record k.clock out, k.clock + 1⟩ := by
  unfold perform at h
  split at h
  · cases h
  · next w hw =>
    cases h
    exact ⟨w.1, w.2, does_of_finish lifecycle_shallow hw, rfl⟩

/-! ## What statements leave alone -/

theorem exec_action (h : exec d rows out st = .ok e) : e.data.action = out.action ∧ e.data.derivs = out.derivs := by
  cases st <;> simp only [exec] at h <;> (repeat' split at h) <;> cases h <;> exact ⟨rfl, rfl⟩

theorem exec_before (h : exec d rows out st = .ok e) (hst : st ≠ .servedBefore) : e.data.before = out.before := by
  cases st <;> simp only [exec] at h <;> (repeat' split at h) <;> cases h <;>
    first
    | rfl
    | exact absurd rfl hst

theorem exec_superseded (h : exec d rows out st = .ok e) (hst : ∀ t, st ≠ .supersedeRow t) :
    e.data.superseded = out.superseded := by
  cases st <;> simp only [exec] at h <;> (repeat' split at h) <;> cases h <;>
    first
    | rfl
    | exact absurd rfl (hst _)

/-- The statements that only read and lock. -/
def Statement.reads : Statement → Bool
  | .version _ _ => true
  | .lockedSourceState _ => true
  | .requireLive => true
  | .master _ _ => true
  | .requireNotDeleted => true
  | .lockGroup => true
  | .lockRow _ => true
  | .nextVersion => true
  | _ => false

theorem exec_reads (h : exec d rows out st = .ok e) (hst : st.reads = true) : e.writes = [] := by
  cases st <;> cases hst <;> simp only [exec] at h <;> (repeat' split at h) <;> cases h <;> rfl

theorem does_action (h : lifecycle.Does d rows out todo rows' out') :
    out'.action = out.action ∧ out'.derivs = out.derivs := by
  refine h.invariant (fun _ => True) (fun _ o => o.action = out.action ∧ o.derivs = out.derivs)
    (fun _ _ _ _ _ _ _ _ => trivial) ?_ (fun _ _ => trivial) ⟨rfl, rfl⟩
  intro rows o st e _ hexec ⟨haction, hderivs⟩
  obtain ⟨h₁, h₂⟩ := exec_action hexec
  exact ⟨h₁.trans haction, h₂.trans hderivs⟩

theorem does_reads (h : lifecycle.Does d rows out todo rows' out')
    (htodo : ∀ st ∈ todo, st.reads = true) : rows' = rows ∧ out'.superseded = out.superseded := by
  refine h.invariant (fun st => st.reads = true)
    (fun r o => r = rows ∧ o.superseded = out.superseded) ?_ ?_ htodo ⟨rfl, rfl⟩
  · intro rows o st e hst hexec st' hst'
    rcases exec_more hexec hst' with ⟨-, t, rfl⟩ | ⟨keep, t, rfl, -⟩ | ⟨t, why, rfl, -⟩ | ⟨rfl, -⟩
    · rfl
    · cases hst
    · cases hst
    · cases hst
  · rintro r o st e hst hexec ⟨rfl, hsup⟩
    have hne : ∀ t, st ≠ .supersedeRow t := by
      rintro t rfl
      cases hst
    refine ⟨?_, (exec_superseded hexec hne).trans hsup⟩
    rw [exec_reads hexec hst]
    rfl

theorem does_before (h : lifecycle.Does d rows out todo rows' out')
    (htodo : ∀ st ∈ todo, st ≠ .servedBefore) : out'.before = out.before := by
  refine h.invariant (fun st => st ≠ .servedBefore) (fun _ o => o.before = out.before) ?_ ?_ htodo rfl
  · intro rows o st e _ hexec st' hst'
    rcases exec_more hexec hst' with ⟨-, t, rfl⟩ | ⟨keep, t, -, rfl⟩ | ⟨t, why, -, rfl⟩ |
      ⟨-, t, why, rfl⟩ <;> exact nofun
  · intro rows o st e hst hexec hbefore
    exact (exec_before hexec hst).trans hbefore

theorem does_superseded (h : lifecycle.Does d rows out todo rows' out')
    (htodo : ∀ st ∈ todo, (∀ t, st ≠ .supersedeRow t) ∧ ∀ keep, st ≠ .supersedeActive keep) :
    out'.superseded = out.superseded := by
  refine h.invariant (fun st => (∀ t, st ≠ .supersedeRow t) ∧ ∀ keep, st ≠ .supersedeActive keep)
    (fun _ o => o.superseded = out.superseded) ?_ ?_ htodo rfl
  · intro rows o st e hst hexec st' hst'
    rcases exec_more hexec hst' with ⟨-, t, rfl⟩ | ⟨keep, t, rfl, -⟩ | ⟨t, why, -, rfl⟩ |
      ⟨-, t, why, rfl⟩
    · exact ⟨nofun, nofun⟩
    · exact absurd rfl (hst.2 keep)
    · exact ⟨nofun, nofun⟩
    · exact ⟨nofun, nofun⟩
  · intro rows o st e hst hexec hsup
    exact (exec_superseded hexec hst.1).trans hsup

theorem does_persist (h : lifecycle.Does d rows out todo rows' out') :
    (∀ t, (source? rows t).isSome → (source? rows' t).isSome) ∧
      ∀ t, (master? rows t).isSome → (master? rows' t).isSome := by
  refine h.invariant (fun _ => True) (fun r _ => (∀ t, (source? rows t).isSome → (source? r t).isSome) ∧
      ∀ t, (master? rows t).isSome → (master? r t).isSome) (fun _ _ _ _ _ _ _ _ => trivial) ?_
    (fun _ _ => trivial) ⟨fun _ h => h, fun _ h => h⟩
  intro r o st e _ hexec ⟨hs, hm⟩
  refine ⟨fun t ht => source?_isSome_written hexec (hs t ht), fun t ht => ?_⟩
  rcases exec_writes hexec with hnil | ⟨k, row, hwrites, -, hwrote⟩
  · rw [hnil]
    exact hm t ht
  · rw [hwrites]
    show (master? (r.upsert k row) t).isSome
    cases hwrote with
    | source u v => rw [master?_upsert_source]; exact hm t ht
    | activated u v => rw [master?_upsert_source]; exact hm t ht
    | master u m => rw [master?_upsert]; split; rfl; exact hm t ht
    | raised u m => rw [master?_upsert]; split; rfl; exact hm t ht

theorem does_keyInv (h : KeyInv rows)
    (hdoes : lifecycle.Does d rows (lifecycle.data req) (program req.action) rows' out) : KeyInv rows' := by
  obtain ⟨y, hy, hdone, hsees, -⟩ := hdoes.alone rows (lifecycle.first req 0) rfl rfl rfl
  have hinv : TxnInv rows y := by
    clear hdone hsees hdoes
    induction hy with
    | refl => exact h.txn_first req 0
    | tail _ hstep ih =>
      obtain ⟨st, rest, e, htodo, hexec, rfl⟩ := hstep
      exact ih.apply htodo hexec
  rw [← hsees]
  exact h.commit hinv hdone

/-! ## The cascade -/

/-- The outcome when `_cascade` is through with the rows. -/
def Outcome.cascaded (out : Outcome) (rows : Rows) (notes : List Note) : Outcome :=
  let told := { out with
    after := servedState rows
    events := out.recorded (servedState rows)
    tours := (versions rows).map Prod.fst }
  { told with notes := told.notices notes }

theorem does_switchOff {l : List (Tour × MasterReason)}
    (h : lifecycle.Does d rows out (l.map fun e => .switchOffRow e.1 e.2) rows' out') :
    out' = out ∧ (∀ t, source? rows' t = source? rows t) ∧ ∀ t, t ∉ l.map Prod.fst → master? rows' t = master? rows t := by
  induction l generalizing rows with
  | nil =>
    obtain ⟨rfl, rfl⟩ := h.done
    exact ⟨rfl, fun _ => rfl, fun _ _ => rfl⟩
  | cons p l ih =>
    obtain ⟨e, hexec, hrest⟩ := h.next
    have hone : e.data = out ∧ e.more = [] ∧
        (∀ t, source? (overlay rows e.writes) t = source? rows t) ∧
        ∀ t, t ≠ p.1 → master? (overlay rows e.writes) t = master? rows t := by
      have hexec : exec d rows out (.switchOffRow p.1 p.2) = .ok e := hexec
      simp only [exec] at hexec
      split at hexec
      · cases hexec
        exact ⟨rfl, rfl, fun _ => rfl, fun _ _ => rfl⟩
      · next m hm =>
        split at hexec
        · cases hexec
          refine ⟨rfl, rfl, fun t => source?_upsert_master _ _, fun t ht => ?_⟩
          exact (master?_upsert _ _).trans (if_neg ht)
        · cases hexec
          exact ⟨rfl, rfl, fun _ => rfl, fun _ _ => rfl⟩
    obtain ⟨hdata, hmore, hsource, hmaster⟩ := hone
    rw [hdata, hmore] at hrest
    obtain ⟨hout, hs, hm⟩ := ih hrest
    refine ⟨hout, fun t => (hs t).trans (hsource t), fun t ht => ?_⟩
    rw [map_cons, mem_cons, not_or] at ht
    exact (hm t ht.2).trans (hmaster t ht.1)

theorem not_mem_deadMasters {t : Tour} {r : Source} (hr : source? rows t = some r)
    (hlive : r.live = true) : t ∉ (deadMasters rows).map Prod.fst := by
  intro hmem
  obtain ⟨⟨u, why⟩, hu, rfl⟩ := mem_map.1 hmem
  obtain ⟨⟨v, r'⟩, hv, heq⟩ := mem_filterMap.1 hu
  split at heq
  · next hdead =>
    cases heq
    rw [mem_versions.1 hv] at hr
    cases hr
    simp [hlive] at hdead
  · cases heq

theorem does_cascade (h : lifecycle.Does d rows out cascade rows' out') : (∀ t, source? rows' t = source? rows t) ∧
      (∀ t r, source? rows t = some r → r.live = true → master? rows' t = master? rows t) ∧
      out' = out.cascaded rows' d.notes := by
  obtain ⟨e₁, hsweep, h₁⟩ := h.next
  cases hsweep
  obtain ⟨rows₁, out₁, hvisits, h₂⟩ := h₁.append _ _ rfl
  obtain ⟨rfl, hsource, hmaster⟩ := does_switchOff hvisits
  obtain ⟨e₂, hafter, h₃⟩ := h₂.next
  cases hafter
  obtain ⟨e₃, htours, h₄⟩ := h₃.next
  cases htours
  obtain ⟨e₄, hnotify, h₅⟩ := h₄.next
  cases hnotify
  obtain ⟨rfl, rfl⟩ := h₅.done
  exact ⟨hsource, fun t r hr hlive => hmaster t (not_mem_deadMasters hr hlive), rfl⟩

/-! ## The whole action -/

/-- What an action has done: it read the state before, and the cascade saw the state after. -/
structure Performed (d : Record) (rows rows' : Rows) (req : Request) (out : Outcome) : Prop where
  action : out.action = req.action
  derivs : out.derivs = req.derivs
  before : out.before = servedState rows
  after : out.after = servedState rows'
  tours : out.tours = (versions rows').map Prod.fst
  events : out.events = out.recorded out.after
  notes : out.notes = out.notices d.notes

theorem program_split (a : Action) : ∃ reads writes,
    program a = reads ++ (.servedBefore :: (writes ++ cascade)) ∧ (∀ st ∈ reads, st.reads = true) ∧
      ∀ st ∈ writes, st ≠ .servedBefore := by
  cases a with
  | retireSource t => exact ⟨[_], [_], rfl, by simp [Statement.reads], by simp⟩
  | restoreSource t => exact ⟨[_], [_, _], rfl, by simp [Statement.reads], by simp⟩
  | supersede decision new =>
    cases decision with
    | keepBoth => exact ⟨[_, _, _], [_], rfl, by simp [Statement.reads], by simp⟩
    | replace => exact ⟨[_, _, _], [_, _], rfl, by simp [Statement.reads], by simp⟩
    | update => exact ⟨[_, _, _], [_, _], rfl, by simp [Statement.reads], by simp⟩
  | setActive t => exact ⟨[_], [_, _, _], rfl, by simp [Statement.reads], by simp⟩
  | pauseMaster t => exact ⟨[_], [_], rfl, by simp [Statement.reads], by simp⟩
  | activateMaster t => exact ⟨[_, _], [_, _], rfl, by simp [Statement.reads], by simp⟩
  | trashMaster t => exact ⟨[_], [_], rfl, by simp [Statement.reads], by simp⟩
  | restoreMaster t => exact ⟨[_], [_], rfl, by simp [Statement.reads], by simp⟩
  | publish t => exact ⟨[_, _], [_], rfl, by simp [Statement.reads], by simp⟩

theorem does_performed (h : lifecycle.Does d rows (lifecycle.data req) (program req.action) rows' out) :
    Performed d rows rows' req out := by
  obtain ⟨haction, hderivs⟩ := does_action h
  obtain ⟨reads, writes, hprog, hreads, hwrites⟩ := program_split req.action
  rw [hprog] at h
  obtain ⟨rows₁, out₁, hread, h₁⟩ := h.append _ _ rfl
  obtain ⟨rfl, -⟩ := does_reads hread hreads
  obtain ⟨e, hbefore, h₂⟩ := h₁.next
  cases hbefore
  obtain ⟨rows₂, out₂, hwrite, h₃⟩ := h₂.append writes cascade rfl
  have hb : out₂.before = servedState rows₁ := does_before hwrite hwrites
  obtain ⟨-, -, rfl⟩ := does_cascade h₃
  exact ⟨haction, hderivs, hb, rfl, rfl, rfl, rfl⟩

/-! ## The actions that supersede versions -/

theorem does_supersede {l : List Tour} (h : lifecycle.Does d rows out (l.map .supersedeRow) rows' out') :
    (∀ t, master? rows' t = master? rows t) ∧ (∀ t, t ∉ l → source? rows' t = source? rows t) ∧
      (∀ t v, source? rows' t = some v → v.status = .active → t ∉ l ∧ source? rows t = some v) ∧
      ∀ t, t ∈ out'.superseded ↔ t ∈ out.superseded ∨ t ∈ l ∧ ∃ v, source? rows t = some v ∧ v.status = .active := by
  induction l generalizing rows out with
  | nil =>
    obtain ⟨rfl, rfl⟩ := h.done
    exact ⟨fun _ => rfl, fun _ _ => rfl, fun t v hv _ => ⟨not_mem_nil, hv⟩, by simp⟩
  | cons p l ih =>
    obtain ⟨e, hexec, hrest⟩ := h.next
    have hone : e.more = [] ∧ (∀ t, master? (overlay rows e.writes) t = master? rows t) ∧
        (∀ t, t ≠ p → source? (overlay rows e.writes) t = source? rows t) ∧
        (∀ v, source? (overlay rows e.writes) p = some v → v.status ≠ .active) ∧
        ∀ t, t ∈ e.data.superseded ↔
          t ∈ out.superseded ∨ t = p ∧ ∃ v, source? rows t = some v ∧ v.status = .active := by
      have hexec : exec d rows out (.supersedeRow p) = .ok e := hexec
      simp only [exec] at hexec
      split at hexec
      · next hnone =>
        cases hexec
        refine ⟨rfl, fun _ => rfl, fun _ _ => rfl, fun v hv => ?_, fun t => ?_⟩
        · rw [show source? rows p = some v from hv] at hnone
          cases hnone
        · constructor
          · exact Or.inl
          · rintro (ht | ⟨rfl, v, hv, -⟩)
            · exact ht
            · rw [hnone] at hv
              cases hv
      · next v hv =>
        split at hexec
        · next hact =>
          cases hexec
          refine ⟨rfl, fun t => master?_upsert_source _ _,
            fun t ht => (source?_upsert _ _).trans (if_neg ht), fun v' hv' => ?_, fun t => ?_⟩
          · have hv' := hv'.symm.trans ((source?_upsert _ _).trans (if_pos rfl))
            cases hv'
            intro hactive
            cases hactive
          · show t ∈ out.superseded ++ [p] ↔ _
            rw [mem_append, mem_singleton]
            constructor
            · rintro (ht | rfl)
              · exact Or.inl ht
              · exact Or.inr ⟨rfl, v, hv, hact⟩
            · rintro (ht | ⟨rfl, -⟩)
              · exact Or.inl ht
              · exact Or.inr rfl
        · next hoff =>
          cases hexec
          refine ⟨rfl, fun _ => rfl, fun _ _ => rfl, fun v' hv' => ?_, fun t => ?_⟩
          · rw [show source? rows p = some v' from hv'] at hv
            cases hv
            exact hoff
          · constructor
            · exact Or.inl
            · rintro (ht | ⟨rfl, v', hv', hact⟩)
              · exact ht
              · rw [hv] at hv'
                cases hv'
                exact absurd hact hoff
    obtain ⟨hmore, hmaster, hother, hself, hsup⟩ := hone
    rw [hmore, nil_append] at hrest
    obtain ⟨hm, hs, hact, hmem⟩ := ih hrest
    refine ⟨fun t => (hm t).trans (hmaster t), fun t ht => ?_, fun t v hv hvact => ?_, fun t => ?_⟩
    · rw [mem_cons, not_or] at ht
      exact (hs t ht.2).trans (hother t ht.1)
    · obtain ⟨htl, hv'⟩ := hact t v hv hvact
      have htp : t ≠ p := by
        rintro rfl
        exact hself v hv' hvact
      rw [mem_cons, not_or]
      exact ⟨⟨htp, htl⟩, (hother t htp) ▸ hv'⟩
    · rw [hmem, hsup, mem_cons]
      constructor
      · rintro ((ht | ⟨rfl, hv⟩) | ⟨htl, v, hv, hvact⟩)
        · exact Or.inl ht
        · exact Or.inr ⟨Or.inl rfl, hv⟩
        · have htp : t ≠ p := by
            rintro rfl
            exact hself v hv hvact
          exact Or.inr ⟨Or.inr htl, v, (hother t htp) ▸ hv, hvact⟩
      · rintro (ht | ⟨rfl | htl, v, hv, hvact⟩)
        · exact Or.inl (Or.inl ht)
        · exact Or.inl (Or.inr ⟨rfl, v, hv, hvact⟩)
        · by_cases htp : t = p
          · exact Or.inl (Or.inr ⟨htp, v, hv, hvact⟩)
          · exact Or.inr ⟨htl, v, (hother t htp).symm ▸ hv, hvact⟩

theorem does_supersedeActive {keep : Option Tour} {rest : List Statement}
    (h : lifecycle.Does d rows out (.supersedeActive keep :: rest) rows' out') :
    ∃ rows₁ out₁, lifecycle.Does d rows₁ out₁ rest rows' out' ∧ (∀ t, master? rows₁ t = master? rows t) ∧
      (∀ t, some t = keep → source? rows₁ t = source? rows t) ∧
      (∀ t v, source? rows₁ t = some v → v.status = .active → some t = keep) ∧
      (∀ t, (source? rows t).isSome → (source? rows₁ t).isSome) ∧ ∀ t, t ∈ out₁.superseded ↔ t ∈ out.superseded ∨
        some t ≠ keep ∧ ∃ v, source? rows t = some v ∧ v.status = .active := by
  obtain ⟨e, hexec, h₁⟩ := h.next
  cases hexec
  obtain ⟨rows₁, out₁, hvisits, h₂⟩ := h₁.append _ _ rfl
  have hpersist := (does_persist hvisits).1
  have hl : ((versions rows).filter fun v => v.2.status = .active && some v.1 ≠ keep).map
      (fun v => Statement.supersedeRow v.1) =
      (((versions rows).filter fun v => v.2.status = .active && some v.1 ≠ keep).map
        Prod.fst).map .supersedeRow := by
    rw [map_map]
    rfl
  have hmem : ∀ t, t ∈ ((versions rows).filter fun v =>
      v.2.status = .active && some v.1 ≠ keep).map Prod.fst ↔
      some t ≠ keep ∧ ∃ v, source? rows t = some v ∧ v.status = .active := by
    intro t
    rw [mem_map]
    constructor
    · rintro ⟨⟨u, v⟩, huv, rfl⟩
      rw [mem_filter, Bool.and_eq_true, decide_eq_true_eq, decide_eq_true_eq] at huv
      exact ⟨huv.2.2, v, mem_versions.1 huv.1, huv.2.1⟩
    · rintro ⟨hkeep, v, hv, hact⟩
      refine ⟨(t, v), ?_, rfl⟩
      rw [mem_filter, Bool.and_eq_true, decide_eq_true_eq, decide_eq_true_eq]
      exact ⟨mem_versions.2 hv, hact, hkeep⟩
  rw [hl] at hvisits
  obtain ⟨hm, hs, hact, hsup⟩ := does_supersede hvisits
  refine ⟨rows₁, out₁, h₂, hm, fun t ht => ?_, fun t v hv hvact => ?_, hpersist, fun t => ?_⟩
  · exact hs t fun hin => ((hmem t).1 hin).1 ht
  · by_contra hne
    obtain ⟨hnot, hv'⟩ := hact t v hv hvact
    exact hnot ((hmem t).2 ⟨hne, v, hv', hvact⟩)
  · rw [hsup, hmem]
    constructor
    · rintro (ht | ⟨hin, -⟩)
      · exact Or.inl ht
      · exact Or.inr hin
    · rintro (ht | hin)
      · exact Or.inl ht
      · exact Or.inr ⟨hin, hin.2⟩

def Master.revived (why : MasterReason) (m : Master) : Master := if m.waitsFor why then m.activate else m

theorem does_reviveMaster {t : Tour} {why : MasterReason} {rest : List Statement}
    (h : lifecycle.Does d rows out (.reviveMaster t why :: rest) rows' out') :
    ∃ rows₁, lifecycle.Does d rows₁ out rest rows' out' ∧ (∀ u, source? rows₁ u = source? rows u) ∧
      master? rows₁ t = (master? rows t).map (Master.revived why) := by
  obtain ⟨e, hexec, h₁⟩ := h.next
  have hexec : exec d rows out (.reviveMaster t why) = .ok e := hexec
  simp only [exec] at hexec
  split at hexec
  · next hwaits =>
    cases hexec
    obtain ⟨e₂, hexec₂, h₂⟩ := h₁.next
    have hexec₂ : exec d rows out (.reviveRow t why) = .ok e₂ := hexec₂
    simp only [exec] at hexec₂
    split at hexec₂
    · next hnone =>
      rw [hnone] at hwaits
      cases hwaits
    · next m hm =>
      rw [hm] at hwaits
      rw [if_pos (by simpa using hwaits)] at hexec₂
      cases hexec₂
      refine ⟨_, h₂, fun u => source?_upsert_master _ _, ?_⟩
      rw [hm, Option.map_some, Master.revived, if_pos (by simpa using hwaits)]
      exact (master?_upsert _ _).trans (if_pos rfl)
  · next hwaits =>
    cases hexec
    refine ⟨rows, h₁, fun _ => rfl, ?_⟩
    cases hm : master? rows t with
    | none => rfl
    | some m =>
      rw [hm] at hwaits
      rw [Option.map_some, Master.revived, if_neg (by simpa using hwaits)]

theorem setActive_after {t : Tour} (hreq : req.action = .setActive t) (hkey : KeyInv rows)
    (h : lifecycle.Does d rows (lifecycle.data req) (program req.action) rows' out) :
    servedState rows' = (if everMaster rows' then
        some (stateOf ((master? rows t).map (Master.revived .superseded))) else none) ∧
      (out.superseded ≠ [] ↔ ∃ u v, u ≠ t ∧ source? rows u = some v ∧ v.status = .active) ∧
      ∃ r, source? rows t = some r ∧ r.gone = false := by
  have hkey' := does_keyInv hkey h
  rw [hreq] at h
  obtain ⟨e₁, hversion, h₁⟩ := h.next
  have hversion : exec d rows (lifecycle.data req) (.version t fun v =>
    if v.gone then some .sourceTrashed else none) = .ok e₁ := hversion
  simp only [exec] at hversion
  split at hversion
  · cases hversion
  · next r hr =>
    split at hversion
    · cases hversion
    · next hgone =>
      have hgone : r.gone = false := by
        cases hg : r.gone with
        | false => rfl
        | true => simp [hg] at hgone
      cases hversion
      obtain ⟨e₂, hbefore, h₂⟩ := h₁.next
      cases hbefore
      obtain ⟨rows₁, out₁, h₃, hmaster₁, hsource₁, hact₁, -, hsup⟩ := does_supersedeActive h₂
      obtain ⟨e₃, hupdate, h₄⟩ := h₃.next
      have hupdate : exec d rows₁ out₁ (.updateSource t .activate) = .ok e₃ := hupdate
      have hr₁ : source? rows₁ t = some r := (hsource₁ t rfl).trans hr
      have hother : otherActive rows₁ t = false := by
        rw [otherActive_eq_false]
        intro u v hv hact
        exact Option.some.inj (hact₁ u v hv hact)
      simp only [exec, hr₁, hother, Bool.and_false] at hupdate
      cases hupdate
      obtain ⟨rows₂, h₅, hsource₂, hmaster₂⟩ := does_reviveMaster h₄
      have hr₂ : source? rows₂ t = some r.activate :=
        (hsource₂ t).trans ((source?_upsert _ _).trans (if_pos rfl))
      have hlive : r.activate.live = true := by
        unfold Source.gone at hgone
        unfold Source.activate Source.live
        simp_all
      have hm₂ : master? rows₂ t = (master? rows t).map (Master.revived .superseded) := by
        have hkeep : master? (overlay rows₁ [(.source t, .source r.activate)]) t = master? rows t :=
          (master?_upsert_source _ _).trans (hmaster₁ t)
        exact hmaster₂.trans (congrArg _ hkeep)
      obtain ⟨hsource', hmaster', hout⟩ := does_cascade h₅
      refine ⟨?_, ?_, r, hr, hgone⟩
      · rw [servedState_of_live hkey'.one ((hsource' t).trans hr₂) hlive, hmaster' t _ hr₂ hlive, hm₂]
      · have hsup' : out.superseded = out₁.superseded := by rw [hout]; rfl
        rw [hsup']
        constructor
        · intro hne
          obtain ⟨u, hu⟩ := exists_mem_of_ne_nil _ hne
          rcases (hsup u).1 hu with hu | ⟨hut, v, hv⟩
          · cases hu
          · exact ⟨u, v, fun heq => hut (congrArg some heq), hv⟩
        · rintro ⟨u, v, hut, hv⟩
          exact ne_nil_of_mem ((hsup u).2 (Or.inr ⟨fun heq => hut (Option.some.inj heq), v, hv⟩))

theorem supersede_after {decision : Decision} {new : Tour}
    (hreq : req.action = .supersede decision new) (hdecision : decision ≠ .keepBoth) (hkey : KeyInv rows)
    (h : lifecycle.Does d rows (lifecycle.data req) (program req.action) rows' out) :
    servedState rows' = if everMaster rows' then some .supersededPending else none := by
  have hkey' := does_keyInv hkey h
  rw [hreq] at h
  have hprog : program (.supersede decision new) =
      [.requireNotDeleted, .lockGroup, .nextVersion] ++ (.servedBefore :: .supersedeActive none ::
        .insertVersion new .active :: cascade) := by
    cases decision with
    | keepBoth => exact absurd rfl hdecision
    | replace => rfl
    | update => rfl
  rw [hprog] at h
  obtain ⟨rows₁, out₁, hread, h₁⟩ := h.append _ _ rfl
  obtain ⟨rfl, -⟩ := does_reads hread (by simp [Statement.reads])
  obtain ⟨e₂, hbefore, h₂⟩ := h₁.next
  cases hbefore
  obtain ⟨rows₂, out₂, h₃, hmaster₂, -, -, hpersist, -⟩ := does_supersedeActive h₂
  obtain ⟨e₃, hinsert, h₄⟩ := h₃.next
  have hinsert : exec d rows₂ out₂ (.insertVersion new .active) = .ok e₃ := hinsert
  simp only [exec] at hinsert
  split at hinsert
  · cases hinsert
  · next hfree =>
    cases hinsert
    rw [Bool.or_eq_true, not_or] at hfree
    have hnone : master? rows₁ new = none := by
      by_contra hne
      exact hfree.1 (hpersist new (hkey.based new (Option.isSome_iff_ne_none.2 hne)))
    obtain ⟨hsource', hmaster', -⟩ := does_cascade h₄
    have hnew : source? (overlay rows₂ [(.source new, .source ⟨.active, false, out₂.version⟩)]) new =
        some ⟨.active, false, out₂.version⟩ := (source?_upsert _ _).trans (if_pos rfl)
    have hm' : master? rows' new = none :=
      (hmaster' new _ hnew rfl).trans ((master?_upsert_source _ _).trans ((hmaster₂ new).trans hnone))
    rw [servedState_of_live hkey'.one ((hsource' new).trans hnew) rfl, hm']
    rfl

end CisApp.Lifecycle
