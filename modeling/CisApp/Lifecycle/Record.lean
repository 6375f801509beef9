import CisApp.Lifecycle.Perform

/-!
# What the lifecycle record tells

`_cascade` writes an event for a change of the served state, and a `superseded`
event for each version that the action superseded.  The latest event is meant to
tell the state (`Tells`).

It does not after a `set_active` that hands a key over from one version to another
whose Master leaves the key as it was, paused or retired (`silentHandover`): the
`superseded` event is written, and the event of the state is not, because the state
did not change.  Where the state is served the code does write `restored` behind
`superseded`.  `record_tells_iff` says that this is the only case.
-/

namespace CisApp.Lifecycle

open Lib List

/-- The state that an event of the kind leaves behind. -/
def EventKind.agrees : EventKind → Option Liveness → Bool
  | .retired, s => s.map Liveness.state = some .retired
  | .paused, s => s.map Liveness.state = some .paused
  | .restored, s => s.map Liveness.state = some .served
  | .superseded, s => s = some .supersededPending

def LatestAgrees (events : List Event) (s : Option Liveness) : Prop :=
  ∀ e, events.getLast? = some e → e.kind.agrees s = true

/-- The record across an action. -/
structure Tells (k : Key) (req : Request) : Prop where
  change : ∀ a b, servedState k.rows = some b → servedState (act k req).rows = some a → a ≠ b →
    k.record.events.length < (act k req).record.events.length
  latest : LatestAgrees (act k req).record.events (servedState (act k req).rows)

/-- The live version is replaced by one whose Master leaves the key in the same state, paused or
retired. -/
def silentHandover (rows : Rows) : Action → Bool
  | .setActive t =>
    (source? rows t).any (fun r => !r.gone) && (versions rows).any fun v =>
      v.1 ≠ t && v.2.live &&
        match master? rows v.1, master? rows t with
        | some m, some n =>
          stateOf (some m) = stateOf (some (n.revived .superseded)) && stateOf (some m) ≠ .served
        | _, _ => false
  | _ => false

/-! ## The events of one action -/

theorem latestAgrees_append_singleton {l : List Event} {e : Event} {s : Option Liveness} :
    LatestAgrees (l ++ [e]) s ↔ e.kind.agrees s = true := by
  unfold LatestAgrees
  simp

theorem latestAgrees_superseded {l : List Event} {sup : List Tour} (hsup : sup ≠ [])
    (f : Tour → Event) (hf : ∀ t, (f t).kind = .superseded) {s : Option Liveness} :
    LatestAgrees (l ++ sup.map f) s ↔ s = some .supersededPending := by
  obtain ⟨init, last, rfl⟩ := (eq_nil_or_concat' sup).resolve_left hsup
  rw [map_append, map_singleton, ← append_assoc, latestAgrees_append_singleton, hf]
  simp [EventKind.agrees]

theorem state_eq_served {s : Liveness} : s.state = .served ↔ s = .served := by
  cases s <;> simp [Liveness.state]

theorem agrees_kind {s : Liveness} : s.state.kind.agrees (some s) = true := by
  cases s <;> rfl

theorem stateEvents_cases (out : Outcome) (wrote : Bool) (a : Liveness) :
    (∃ e, out.stateEvents wrote a = [e] ∧ e.kind.agrees (some a) = true ∧
      (wrote = false ∨ some a ≠ out.before ∨ a = .served)) ∨
    out.stateEvents wrote a = [] ∧ (wrote = true → a ≠ .served) ∧
      (some a = out.before ∨ out.before = none ∧ a = .served ∨ wrote = true ∧ a = .supersededPending) := by
  unfold Outcome.stateEvents
  by_cases hserved : a = .served
  · subst hserved
    by_cases hwrites : ((out.before.any fun b => b.state ≠ .served) || wrote) = true
    · rw [if_pos hwrites]
      exact Or.inl ⟨_, rfl, rfl, Or.inr (Or.inr rfl)⟩
    · rw [if_neg hwrites]
      rw [Bool.or_eq_true, not_or, Bool.not_eq_true, Bool.not_eq_true] at hwrites
      refine Or.inr ⟨rfl, fun h => absurd h (by rw [hwrites.2]; exact nofun), ?_⟩
      cases hb : out.before with
      | none => exact Or.inr (Or.inl ⟨rfl, rfl⟩)
      | some b =>
        left
        have hbs : b.state = .served := by simpa [hb] using hwrites.1
        rw [state_eq_served.1 hbs]
  · rw [if_neg (fun h => hserved (state_eq_served.1 h))]
    by_cases hb : some a = out.before
    · right
      rw [if_neg (by simp [hb])]
      exact ⟨rfl, fun _ => hserved, Or.inl hb⟩
    · by_cases hpending : wrote = true ∧ a = .supersededPending
      · right
        rw [if_neg (by simp [hpending.1, hpending.2])]
        exact ⟨rfl, fun _ => hserved, Or.inr (Or.inr hpending)⟩
      · left
        have hcond : (some a ≠ out.before && !(wrote && a = .supersededPending)) = true := by
          rw [Bool.and_eq_true, decide_eq_true_eq, Bool.not_eq_true', Bool.and_eq_false_iff,
            decide_eq_false_iff_not, ← Bool.not_eq_true]
          exact ⟨hb, not_and_or.1 hpending⟩
        rw [if_pos hcond]
        exact ⟨_, rfl, agrees_kind, Or.inr (Or.inl hb)⟩

variable {out : Outcome}

theorem latestAgrees_recorded {events : List Event} {a : Option Liveness}
    (hbefore : LatestAgrees events out.before) (hfresh : out.before = none → events = [])
    (hnone : a = none → out.before = none) : LatestAgrees (events ++ out.recorded a) a ↔
      ¬ (out.superseded ≠ [] ∧ ∃ s, a = some s ∧ a = out.before ∧ s ≠ .served ∧ s ≠ .supersededPending) := by
  cases a with
  | none =>
    have hb := hnone rfl
    have hrec : out.recorded none = [] := by simp [Outcome.recorded, Outcome.wroteSuperseded, hb]
    rw [hrec, hfresh hb]
    refine ⟨fun _ h => ?_, fun _ e he => by cases he⟩
    obtain ⟨-, s, hs, -⟩ := h
    cases hs
  | some s =>
    have hwrote : out.wroteSuperseded (some s) = !out.superseded.isEmpty := by
      simp [Outcome.wroteSuperseded]
    have hrec : out.recorded (some s) = out.superseded.map out.replacedEvent ++
        out.stateEvents (!out.superseded.isEmpty) s := by
      unfold Outcome.recorded
      rw [hwrote]
      cases out.superseded <;> simp
    rw [hrec, ← append_assoc]
    rcases stateEvents_cases out (!out.superseded.isEmpty) s with
      ⟨e, he, hagrees, hwhy⟩ | ⟨hnil, hserved, hwhy⟩
    · rw [he, latestAgrees_append_singleton]
      refine ⟨fun _ h => ?_, fun _ => hagrees⟩
      obtain ⟨hsup, s', hs', hsame, hne, -⟩ := h
      cases hs'
      rcases hwhy with hwhy | hwhy | hwhy
      · exact hsup (by simpa using hwhy)
      · exact hwhy hsame
      · exact hne hwhy
    · rw [hnil, append_nil]
      by_cases hsup : out.superseded = []
      · rw [hsup, map_nil, append_nil]
        refine ⟨fun _ h => h.1 rfl, fun _ => ?_⟩
        rcases hwhy with hwhy | ⟨hb, -⟩ | ⟨hwrites, -⟩
        · rw [hwhy]
          exact hbefore
        · rw [hfresh hb]
          intro e he
          cases he
        · simp [hsup] at hwrites
      · have hwrites : (!out.superseded.isEmpty) = true := by simpa using hsup
        rw [latestAgrees_superseded hsup out.replacedEvent fun _ => rfl]
        constructor
        · rintro heq ⟨-, s', hs', -, -, hpending⟩
          rw [heq] at hs'
          exact hpending (Option.some.inj hs').symm
        · intro h
          by_contra hpending
          have hpending : s ≠ .supersededPending := fun heq => hpending (congrArg some heq)
          refine h ⟨hsup, s, rfl, ?_, hserved hwrites, hpending⟩
          rcases hwhy with hwhy | ⟨-, hs⟩ | ⟨-, hs⟩
          · exact hwhy
          · exact absurd hs (hserved hwrites)
          · exact absurd hs hpending

theorem recorded_ne_nil {a b : Liveness} (hb : out.before = some b) (hab : a ≠ b) : out.recorded (some a) ≠ [] := by
  intro hnil
  unfold Outcome.recorded at hnil
  rw [append_eq_nil_iff] at hnil
  have hstate : out.stateEvents (out.wroteSuperseded (some a)) a = [] := hnil.2
  rcases stateEvents_cases out (out.wroteSuperseded (some a)) a with
    ⟨e, he, -⟩ | ⟨-, -, hwhy⟩
  · rw [he] at hstate
    cases hstate
  · rcases hwhy with hwhy | ⟨hwhy, -⟩ | ⟨hwrote, -⟩
    · rw [hb] at hwhy
      exact hab (Option.some.inj hwhy)
    · rw [hb] at hwhy
      cases hwhy
    · rw [if_pos hwrote] at hnil
      have hempty := List.map_eq_nil_iff.1 hnil.1
      simp [Outcome.wroteSuperseded, hempty] at hwrote

/-! ## The actions -/

variable {k : Key} {req : Request}

theorem act_of_error {err : LifecycleError} (h : perform k req = .error err) : act k req = k := by
  unfold act
  rw [h]

theorem act_of_ok {k' : Key} (h : perform k req = .ok k') : act k req = k' := by
  unfold act
  rw [h]

/-- The key with its record, between actions. -/
structure RecordInv (k : Key) : Prop where
  key : KeyInv k.rows
  latest : LatestAgrees k.record.events (servedState k.rows)
  fresh : servedState k.rows = none → k.record.events = []

variable {rows : Rows}

theorem servedState_eq_none : servedState rows = none ↔ everMaster rows = false := by
  unfold servedState
  cases everMaster rows <;> simp

theorem servedState_none_of_does {d : Record} {rows' : Rows} {out' : Outcome}
    {todo : List Statement} (h : lifecycle.Does d rows out todo rows' out')
    (hnone : servedState rows' = none) : servedState rows = none := by
  rw [servedState_eq_none, Bool.eq_false_iff] at *
  intro hever
  apply hnone
  obtain ⟨t, hs, hm⟩ := everMaster_iff.1 hever
  obtain ⟨hsource, hmaster⟩ := does_persist h
  exact everMaster_iff.2 ⟨t, hsource t hs, hmaster t hm⟩

theorem stateOf_some_ne (m : Master) : stateOf (some m) ≠ .supersededPending := by
  unfold stateOf
  dsimp only
  split
  · exact nofun
  · split <;> exact nofun

theorem servedState_eq_stateOf {u : Tour} {v : Source} {m : Master}
    (hone : OneActive rows) (hv : source? rows u = some v) (hact : v.status = .active)
    (h : servedState rows = some (stateOf (some m))) : v.live = true ∧ stateOf (master? rows u) = stateOf (some m) := by
  by_cases hlive : v.live = true
  · rw [servedState_of_live hone hv hlive] at h
    split at h
    · exact ⟨hlive, Option.some.inj h⟩
    · cases h
  · -- no other version is live, and without a live version the state is another
    have hno : hasLive rows = false := by
      rw [Bool.eq_false_iff]
      intro hhas
      obtain ⟨t, r, hr, hrlive⟩ := hasLive_iff.1 hhas
      have hract : r.status = .active := by
        unfold Source.live at hrlive
        rw [Bool.and_eq_true, decide_eq_true_eq] at hrlive
        exact hrlive.1
      have htu := hone t u r v hr hv hract hact
      subst htu
      rw [hr] at hv
      cases hv
      exact hlive hrlive
    rw [servedState_of_noLive hno] at h
    split at h
    · have hstate := Option.some.inj h
      unfold stateOf at hstate
      exfalso
      repeat' split at hstate
      all_goals cases hstate
    · cases h

theorem setActive_silent {d : Record} {rows' : Rows} {t : Tour}
    (hreq : req.action = .setActive t) (hkey : KeyInv rows)
    (h : lifecycle.Does d rows (lifecycle.data req) (program req.action) rows' out) :
    (out.superseded ≠ [] ∧ ∃ s, servedState rows' = some s ∧ servedState rows' = servedState rows ∧
      s ≠ .served ∧ s ≠ .supersededPending) ↔ silentHandover rows (.setActive t) = true := by
  obtain ⟨hafter, hsup, r, hr, hgone⟩ := setActive_after hreq hkey h
  unfold silentHandover
  rw [Bool.and_eq_true, hr, any_eq_true]
  constructor
  · rintro ⟨hne, s, hs, hsame, hserved, hpending⟩
    refine ⟨by simp [hgone], ?_⟩
    obtain ⟨u, v, hut, hv, hact⟩ := hsup.1 hne
    rw [hafter] at hs
    split at hs
    · next hever =>
      rw [if_pos hever] at hafter
      cases hn : master? rows t with
      | none =>
        rw [hn] at hs
        exact absurd (Option.some.inj hs).symm hpending
      | some n =>
        rw [hn, Option.map_some] at hs hafter
        have hbefore : servedState rows = some (stateOf (some (n.revived .superseded))) :=
          hsame.symm.trans hafter
        obtain ⟨hlive, hm⟩ := servedState_eq_stateOf hkey.one hv hact hbefore
        refine ⟨(u, v), mem_versions.2 hv, ?_⟩
        cases hmu : master? rows u with
        | none =>
          rw [hmu] at hm
          exact absurd hm.symm (stateOf_some_ne _)
        | some m =>
          rw [hmu] at hm
          have hs' := Option.some.inj hs
          simp [hut, hlive, hm, hs', hserved]
    · cases hs
  · rintro ⟨-, ⟨u, v⟩, hmem, hcond⟩
    have hv := mem_versions.1 hmem
    cases hmu : master? rows u with
    | none => simp [hmu] at hcond
    | some m =>
      cases hn : master? rows t with
      | none => simp [hmu, hn] at hcond
      | some n =>
        simp only [hmu, hn, Bool.and_eq_true, decide_eq_true_eq] at hcond
        obtain ⟨⟨hut, hlive⟩, hsame, hserved⟩ := hcond
        have hact : v.status = .active := by
          unfold Source.live at hlive
          rw [Bool.and_eq_true, decide_eq_true_eq] at hlive
          exact hlive.1
        have hever : everMaster rows = true :=
          everMaster_iff.2 ⟨u, by rw [hv]; rfl, by rw [hmu]; rfl⟩
        have hever' : everMaster rows' = true := by
          by_contra hno
          have := servedState_none_of_does h (servedState_eq_none.2 (by simpa using hno))
          rw [servedState_eq_none, hever] at this
          cases this
        refine ⟨hsup.2 ⟨u, v, hut, hv, hact⟩, stateOf (some m), ?_, ?_, hserved, stateOf_some_ne m⟩
        · rw [hafter, if_pos hever', hn, Option.map_some, hsame]
        · rw [hafter, if_pos hever', hn, Option.map_some, servedState_of_live hkey.one hv hlive,
            if_pos hever, hmu, hsame]

theorem silent_iff {d : Record} {rows' : Rows} (hkey : KeyInv rows)
    (h : lifecycle.Does d rows (lifecycle.data req) (program req.action) rows' out) :
    (out.superseded ≠ [] ∧ ∃ s, servedState rows' = some s ∧ servedState rows' = servedState rows ∧
      s ≠ .served ∧ s ≠ .supersededPending) ↔ silentHandover rows req.action = true := by
  -- all but two actions supersede nothing
  have hquiet : (∀ st ∈ program req.action, (∀ t, st ≠ .supersedeRow t) ∧
      ∀ keep, st ≠ .supersedeActive keep) → silentHandover rows req.action = false →
      ((out.superseded ≠ [] ∧ ∃ s, servedState rows' = some s ∧ servedState rows' = servedState rows ∧
        s ≠ .served ∧ s ≠ .supersededPending) ↔ silentHandover rows req.action = true) := by
    intro hprog hsilent
    rw [hsilent]
    constructor
    · rintro ⟨hne, -⟩
      exact absurd (does_superseded h hprog) hne
    · intro htrue
      cases htrue
  cases hreq : req.action with
  | setActive t => exact setActive_silent hreq hkey h
  | supersede decision new =>
    by_cases hdecision : decision = .keepBoth
    · subst hdecision
      rw [hreq] at hquiet
      exact hquiet (by simp [program, cascade]) rfl
    · constructor
      · rintro ⟨-, s, hs, -, -, hpending⟩
        rw [supersede_after hreq hdecision hkey h] at hs
        split at hs
        · exact absurd (Option.some.inj hs).symm hpending
        · cases hs
      · intro htrue
        cases htrue
  | retireSource t | restoreSource t | pauseMaster t | activateMaster t | trashMaster t
  | restoreMaster t | publish t =>
    rw [hreq] at hquiet
    exact hquiet (by simp [program, masterOutcome, cascade]) rfl

/-- The statements that go through whatever the rows are. -/
def Statement.goesThrough : Statement → Bool
  | .servedBefore => true
  | .supersedeActive _ => true
  | .supersedeRow _ => true
  | .reviveMaster _ _ => true
  | .reviveRow _ _ => true
  | .switchOffDeadMasters => true
  | .switchOffRow _ _ => true
  | .servedAfter => true
  | .keyTourIds => true
  | .notify => true
  | _ => false

theorem does_goesThrough (d : Record) (rows : Rows) (out : Outcome) {todo : List Statement}
    (h : ∀ st ∈ todo, st.goesThrough = true) : ∃ rows' out', lifecycle.Does d rows out todo rows' out' := by
  refine does_total lifecycle_shallow d (fun st => st.goesThrough = true) ?_ ?_ todo h rows out
  · intro rows out st e hst hexec st' hst'
    rcases exec_more hexec hst' with ⟨rfl, -⟩ | ⟨keep, t, -, rfl⟩ | ⟨t, why, -, rfl⟩ |
      ⟨-, t, why, rfl⟩
    · cases hst
    · rfl
    · rfl
    · rfl
  · intro rows out st hst
    show ∃ e, exec d rows out st = .ok e
    cases st with
    | supersedeRow t | reviveMaster t why | reviveRow t why | switchOffRow t why =>
      simp only [exec]
      repeat' split
      all_goals exact ⟨_, rfl⟩
    | servedBefore | supersedeActive keep | switchOffDeadMasters | servedAfter | keyTourIds | notify =>
      exact ⟨_, rfl⟩
    | _ => cases hst

theorem perform_of_silent (h : silentHandover k.rows req.action = true) : ∃ k', perform k req = .ok k' := by
  suffices hdoes : ∃ rows' out, lifecycle.Does k.record k.rows (lifecycle.data req)
      (lifecycle.program req) rows' out by
    obtain ⟨rows', out, hdoes⟩ := hdoes
    unfold perform
    rw [hdoes.finish lifecycle_shallow]
    exact ⟨_, rfl⟩
  cases hreq : req.action with
  | setActive t =>
    rw [hreq] at h
    unfold silentHandover at h
    rw [Bool.and_eq_true] at h
    cases hr : source? k.rows t with
    | none => simp [hr] at h
    | some r =>
      have hgone : r.gone = false := by simpa [hr] using h.1
      -- up to the update of the version itself
      obtain ⟨rows₁, out₁, hfirst⟩ := does_goesThrough k.record k.rows (lifecycle.data req)
        (show ∀ st ∈ [Statement.servedBefore, .supersedeActive (some t)], st.goesThrough = true by
          simp [Statement.goesThrough])
      obtain ⟨e₁, hbefore, hsecond⟩ := hfirst.next
      cases hbefore
      obtain ⟨rows₂, out₂, hnil, -, hkept, hothers, -, -⟩ := does_supersedeActive hsecond
      obtain ⟨rfl, rfl⟩ := hnil.done
      have hother : otherActive rows₁ t = false := by
        rw [otherActive_eq_false]
        intro u v hv hact
        exact Option.some.inj (hothers u v hv hact)
      have hr₁ : source? rows₁ t = some r := (hkept t rfl).trans hr
      obtain ⟨rows', out', hlast⟩ := does_goesThrough k.record
        (overlay rows₁ [(.source t, .source r.activate)]) out₁
        (show ∀ st ∈ .reviveMaster t .superseded :: cascade, st.goesThrough = true by
          simp [cascade, Statement.goesThrough])
      refine ⟨rows', out', ?_⟩
      show lifecycle.Does _ _ _ (program req.action) _ _
      rw [hreq]
      have hversion : exec k.record k.rows (lifecycle.data req) (.version t fun v =>
          if v.gone then some .sourceTrashed else none) =
          .ok { takes := [(.source t, true)], data := lifecycle.data req } := by
        simp [exec, hr, hgone]
      have hupdate : exec k.record rows₁ out₁ (.updateSource t .activate) =
          .ok (rewrite (.source t) (.source r.activate) out₁) := by
        simp [exec, hr₁, hother, SourceChange.apply]
      have hthen : lifecycle.Does k.record rows₁ out₁ (.updateSource t .activate ::
          .reviveMaster t .superseded :: cascade) rows' out' := Service.Does.cons hupdate hlast
      exact Service.Does.cons hversion (hfirst.trans hthen)
  | _ =>
    rw [hreq] at h
    cases h

theorem tells_iff (h : RecordInv k) (req : Request) : Tells k req ↔ silentHandover k.rows req.action = false := by
  cases hperform : perform k req with
  | error err =>
    have hact := act_of_error hperform
    constructor
    · intro _
      by_contra hsilent
      obtain ⟨k', hk'⟩ := perform_of_silent (by simpa using hsilent)
      rw [hperform] at hk'
      cases hk'
    · intro _
      refine ⟨?_, ?_⟩
      · intro a b hb ha hne
        rw [hact, hb] at ha
        exact absurd (Option.some.inj ha).symm hne
      · rw [hact]
        exact h.latest
  | ok k' =>
    have hact := act_of_ok hperform
    obtain ⟨rows', out, hdoes, rfl⟩ := perform_eq_ok hperform
    obtain ⟨-, -, hbefore, hafter, -, hevents, -⟩ := does_performed hdoes
    have hsilent := silent_iff h.key hdoes
    have hlatest : LatestAgrees (k.record.events ++ out.recorded (servedState rows'))
        (servedState rows') ↔ _ := latestAgrees_recorded (by rw [hbefore]; exact h.latest)
      (by rw [hbefore]; exact h.fresh) (by rw [hbefore]; exact servedState_none_of_does hdoes)
    rw [hbefore, hsilent, Bool.not_eq_true] at hlatest
    rw [← hlatest, ← hafter, ← hevents, hafter]
    constructor
    · intro htells
      have := htells.latest
      rw [hact] at this
      exact this
    · intro hagrees
      refine ⟨?_, ?_⟩
      · intro a b hb ha hne
        rw [hact] at ha ⊢
        have hne' : out.events ≠ [] := by
          rw [hevents, hafter, ha]
          exact recorded_ne_nil (hbefore.trans hb) hne
        show _ < (k.record.events ++ out.events).length
        rw [length_append]
        have := List.length_pos_iff.2 hne'
        omega
      · rw [hact]
        exact hagrees

theorem RecordInv.act (h : RecordInv k) (htells : Tells k req) : RecordInv (act k req) := by
  cases hperform : perform k req with
  | error err =>
    rw [act_of_error hperform]
    exact h
  | ok k' =>
    have hlatest := htells.latest
    rw [act_of_ok hperform] at hlatest ⊢
    obtain ⟨rows', out, hdoes, rfl⟩ := perform_eq_ok hperform
    refine ⟨does_keyInv h.key hdoes, hlatest, fun hnone => ?_⟩
    obtain ⟨-, -, hbefore, hafter, -, hevents, -⟩ := does_performed hdoes
    have hbnone := servedState_none_of_does hdoes hnone
    show k.record.events ++ out.events = []
    rw [h.fresh hbnone, hevents, hafter, hnone, nil_append]
    simp [Outcome.recorded, Outcome.wroteSuperseded, hbefore, hbnone]

/-- **The record tells the state** along a run exactly if the run has no silent handover. -/
theorem record_tells_iff (rows : Rows) (d : Record) (clock : Nat) (h : NeverServed rows)
    (hd : d.events = []) (reqs : List Request) : Along act Tells ⟨rows, d, clock⟩ reqs ↔
      Along act (fun k req => silentHandover k.rows req.action = false) ⟨rows, d, clock⟩ reqs := by
  have hinv : RecordInv ⟨rows, d, clock⟩ := by
    refine ⟨h.keyInv, ?_, fun _ => hd⟩
    intro e he
    rw [show (Key.mk rows d clock).record.events = d.events from rfl, hd] at he
    cases he
  generalize (⟨rows, d, clock⟩ : Key) = k at hinv
  induction reqs generalizing k with
  | nil => exact Iff.rfl
  | cons req reqs ih =>
    show Tells k req ∧ Along act Tells (act k req) reqs ↔ _ ∧ Along act _ (act k req) reqs
    rw [tells_iff hinv req]
    constructor
    · rintro ⟨hsilent, hrest⟩
      exact ⟨hsilent, (ih _ (hinv.act ((tells_iff hinv req).2 hsilent))).1 hrest⟩
    · rintro ⟨hsilent, hrest⟩
      exact ⟨hsilent, (ih _ (hinv.act ((tells_iff hinv req).2 hsilent))).2 hrest⟩

/-- The new version is withdrawn before it has a Master: the old one comes back with its own. -/
def comeback : List Request :=
  [quiet (.publish 1), quiet (.supersede .replace 2), quiet (.setActive 1)]

set_option maxRecDepth 100000 in
theorem record_tells_comeback : Along act Tells ⟨ingested 1, ⟨[], []⟩, 1⟩ comeback ∧
      servedState (run act ⟨ingested 1, ⟨[], []⟩, 1⟩ comeback).rows = some .served := by
  refine ⟨(record_tells_iff (ingested 1) ⟨[], []⟩ 1 (neverServed_ingested 1) rfl comeback).2 ?_,
    by decide +kernel⟩
  exact ⟨by decide +kernel, by decide +kernel, by decide +kernel, trivial⟩

/-- Both Masters are paused by staff, and staff go back to the old version. -/
def pausedHandover : List Request :=
  [quiet (.publish 1), quiet (.supersede .replace 2), quiet (.publish 2), quiet (.pauseMaster 2),
    quiet (.pauseMaster 1), quiet (.setActive 1)]

set_option maxRecDepth 100000 in
/-- The latest event says superseded, and the key is paused with a Master. -/
theorem record_silent_handover : ¬ Along act Tells ⟨ingested 1, ⟨[], []⟩, 1⟩ pausedHandover := by
  rintro ⟨-, -, -, -, -, htells, -⟩
  have hlast : ((run act ⟨ingested 1, ⟨[], []⟩, 1⟩ pausedHandover).record.events.getLast?).map
      Event.kind = some .superseded := by decide +kernel
  have hstate : servedState (run act ⟨ingested 1, ⟨[], []⟩, 1⟩ pausedHandover).rows =
      some .masterInactive := by decide +kernel
  obtain ⟨e, he, hkind⟩ := Option.map_eq_some_iff.1 hlast
  have hagrees : e.kind.agrees
      (servedState (run act ⟨ingested 1, ⟨[], []⟩, 1⟩ pausedHandover).rows) = true :=
    htells.latest e he
  rw [hkind, hstate] at hagrees
  cases hagrees

end CisApp.Lifecycle
