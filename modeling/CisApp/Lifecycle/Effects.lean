import CisApp.Lifecycle.Statements

/-!
# What a statement can do

`Wrote` lists the rows that statements write, with what the statement checked or
waited for; `exec_writes` is the inversion of `exec` in these terms, and the only
place where its branches are split for the invariants.  With `exec_takes` and
`exec_more` it makes the service `Lawful` and `Shallow`.
-/

namespace CisApp.Lifecycle

open Lib

/-- The sweep and what comes after it in `_cascade`. -/
def Statement.late : Statement → Bool
  | .switchOffDeadMasters => true
  | .switchOffRow _ _ => true
  | .servedAfter => true
  | .keyTourIds => true
  | .notify => true
  | _ => false

/-- The tour whose Master the statement may make active. -/
def Statement.raises : Statement → Option Tour
  | .updateMaster t .activate => some t
  | .reviveMaster t _ => some t
  | .reviveRow t _ => some t
  | .insertMaster t => some t
  | _ => none

/-- The rows that statements write, with what was checked for them. -/
inductive Wrote (rows : Rows) (st : Statement) : RowId → Row → Prop
  | source (t : Tour) (r : Source) (hoff : r.status ≠ .active) (hearly : st.late = false) :
      Wrote rows st (.source t) (.source r)
  | activated (t : Tour) (r : Source) (hother : otherActive rows t = false)
      (hwaits : ∀ rows w, waits rows st w = contends rows t w) (hearly : st.late = false) :
      Wrote rows st (.source t) (.source r)
  | master (t : Tour) (m : Master) (hthere : (master? rows t).isSome) (hoff : m.status ≠ .active) :
      Wrote rows st (.master t) (.master m)
  | raised (t : Tour) (m : Master) (hraises : st.raises = some t) (hearly : st.late = false) :
      Wrote rows st (.master t) (.master m)

variable {d : Record} {rows : Rows} {out : Outcome} {st : Statement} {e : StatementEffect}

theorem rewrite_wrote {k : RowId} {r : Row} (heq : rewrite k r out = e) (hw : Wrote rows st k r) :
    e.writes = [] ∨ ∃ k r, e.writes = [(k, r)] ∧ e.takes = [(k, true)] ∧ Wrote rows st k r := by
  subst heq
  exact Or.inr ⟨k, r, rfl, rfl, hw⟩

theorem exec_writes (h : exec d rows out st = .ok e) :
    e.writes = [] ∨ ∃ k r, e.writes = [(k, r)] ∧ e.takes = [(k, true)] ∧ Wrote rows st k r := by
  cases st with
  | updateSource t c =>
    simp only [exec] at h
    split at h
    · cases h
      exact Or.inl rfl
    · split at h
      · cases h
      · next v hv hfree =>
        apply rewrite_wrote (Except.ok.inj h)
        cases hc : c.activates with
        | true =>
          rw [hc, Bool.true_and, Bool.not_eq_true] at hfree
          exact .activated t _ hfree (fun rows w => by simp [waits, hc]) rfl
        | false =>
          refine .source t _ ?_ rfl
          cases c <;> simp_all [SourceChange.activates, SourceChange.apply, Source.trash]
  | supersedeRow t =>
    simp only [exec] at h
    split at h
    · cases h
      exact Or.inl rfl
    · split at h
      · exact rewrite_wrote (Except.ok.inj h) (.source t _ (by simp [Source.supersede]) rfl)
      · cases h
        exact Or.inl rfl
  | insertVersion t status =>
    simp only [exec] at h
    split at h
    · cases h
    · next hfree =>
      apply rewrite_wrote (Except.ok.inj h)
      by_cases hs : status = .active
      · refine .activated t _ ?_ (fun rows w => by simp [waits, hs]) rfl
        simp_all
      · exact .source t _ hs rfl
  | updateMaster t c =>
    simp only [exec] at h
    split at h
    · cases h
      exact Or.inl rfl
    · next m hm =>
      apply rewrite_wrote (Except.ok.inj h)
      have hthere : (master? rows t).isSome := by rw [hm]; rfl
      cases c with
      | activate => exact .raised t _ rfl rfl
      | pause => exact .master t _ hthere (by simp [MasterChange.apply, Master.pause])
      | trash => exact .master t _ hthere (by simp [MasterChange.apply, Master.trash])
      | restore => exact .master t _ hthere (by simp [MasterChange.apply, Master.restore])
  | reviveRow t why =>
    simp only [exec] at h
    split at h
    · cases h
      exact Or.inl rfl
    · split at h
      · exact rewrite_wrote (Except.ok.inj h) (.raised t _ rfl rfl)
      · cases h
        exact Or.inl rfl
  | insertMaster t =>
    simp only [exec] at h
    split at h <;> exact rewrite_wrote (Except.ok.inj h) (.raised t _ rfl rfl)
  | switchOffRow t why =>
    simp only [exec] at h
    split at h
    · cases h
      exact Or.inl rfl
    · next m hm =>
      split at h
      · have hthere : (master? rows t).isSome := by rw [hm]; rfl
        exact rewrite_wrote (Except.ok.inj h) (.master t _ hthere (by simp [Master.switchOff]))
      · cases h
        exact Or.inl rfl
  | _ =>
    -- reads and locks
    left
    simp only [exec] at h
    repeat' split at h
    all_goals
      cases h
      try rfl

theorem exec_takes (h : exec d rows out st = .ok e) : ∀ k ∈ e.takes, k ∈ needs st := by
  cases st <;> simp only [exec] at h <;> (repeat' split at h) <;> cases h <;>
    simp [rewrite, needs]

theorem exec_more (h : exec d rows out st = .ok e) {st' : Statement} (hmore : st' ∈ e.more) :
    (st = .lockGroup ∧ ∃ t, st' = .lockRow t) ∨ (∃ keep t, st = .supersedeActive keep ∧ st' = .supersedeRow t) ∨
      (∃ t why, st = .reviveMaster t why ∧ st' = .reviveRow t why) ∨
      (st = .switchOffDeadMasters ∧ ∃ t why, st' = .switchOffRow t why) := by
  cases st <;> simp only [exec] at h <;> (repeat' split at h) <;> cases h <;>
    simp [rewrite] at hmore ⊢
  · obtain ⟨t, r, -, rfl⟩ := hmore
    exact ⟨t, rfl⟩
  · obtain ⟨t, r, -, rfl⟩ := hmore
    exact ⟨t, rfl⟩
  · exact hmore
  · obtain ⟨t, why, -, rfl⟩ := hmore
    exact ⟨t, why, rfl⟩

theorem lifecycle_lawful : lifecycle.Lawful where
  takes := fun _ _ _ _ _ h => exec_takes h
  writes := by
    intro d rows out st e h w hw
    rcases exec_writes h with hnil | ⟨k, r, hwrites, htakes, -⟩
    · rw [hnil] at hw
      cases hw
    · rw [hwrites, List.mem_singleton] at hw
      rw [htakes, hw]
      exact List.mem_singleton.2 rfl

theorem lifecycle_shallow : lifecycle.Shallow := by
  intro d rows out st e h st' hst' d' rows' out' e' h'
  by_contra hne
  obtain ⟨st'', hst''⟩ := List.exists_mem_of_ne_nil _ hne
  have hthen : exec d' rows' out' st' = .ok e' := h'
  rcases exec_more h hst' with ⟨-, t, rfl⟩ | ⟨keep, t, -, rfl⟩ | ⟨t, why, -, rfl⟩ | ⟨-, t, why, rfl⟩ <;>
    rcases exec_more hthen hst'' with ⟨hc, -⟩ | ⟨keep, t, hc, -⟩ | ⟨t, why, hc, -⟩ | ⟨hc, -⟩ <;>
    cases hc

end CisApp.Lifecycle
