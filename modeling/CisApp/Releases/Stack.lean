import CisApp.Releases.Agreement
import CisApp.Releases.Calls

/-! The active releases and the ones below them.

`previous_release_id` is written once, when a release is activated for the first time, and names the
release that was active then.  So below an active release there is a stack of superseded ones (`Stack`),
each naming the next; a new activation puts the active release on top of it, and a rollback takes the
top off and leaves the rolled-back release aside for good.  `StackInv` holds after every call
(`stack_always`), whatever the runs, the rules and the database answer. -/

namespace CisApp.Releases

open List

/-! ## Stacks -/

structure Release.Superseded (r : Release) : Prop where
  retired : r.status = .retired
  reason : r.retiredReason = some "superseded"

structure Release.RolledBack (r : Release) : Prop where
  retired : r.status = .retired
  reason : isRollback (r.retiredReason.getD "") = true

/-- The releases from `top` down, all superseded releases of the owner. -/
inductive Stack (s : Store) (o : Owner) : Option Id → List Id → Prop where
  | nil : Stack s o none []
  | cons {id : Id} {r : Release} {l : List Id} (hr : s.get? id = some r) (ho : r.owner = o)
    (hsup : r.Superseded) (h : Stack s o r.previousReleaseId l) : Stack s o (some id) (id :: l)

variable {s : Store} {o : Owner} {top : Option Id} {l : List Id} {id : Id}

theorem Stack.mem (h : Stack s o top l) (hid : id ∈ l) :
    ∃ r, s.get? id = some r ∧ r.owner = o ∧ r.Superseded ∧ ∃ l', Stack s o r.previousReleaseId l' ∧
      l'.length < l.length := by
  induction h with
  | nil => cases hid
  | @cons top r l hr ho hsup h ih =>
    rcases mem_cons.1 hid with rfl | hid
    · exact ⟨r, hr, ho, hsup, l, h, by simp⟩
    · obtain ⟨r', hr', ho', hsup', l', h', hlt⟩ := ih hid
      exact ⟨r', hr', ho', hsup', l', h', by simp; omega⟩

theorem Stack.unique {l' : List Id} (h : Stack s o top l) (h' : Stack s o top l') : l = l' := by
  induction h generalizing l' with
  | nil =>
    cases h' with
    | nil => rfl
  | cons hr _ _ _ ih =>
    cases h' with
    | cons hr' _ _ h' =>
      rw [hr] at hr'
      cases hr'
      rw [ih h']

theorem Stack.nodup (h : Stack s o top l) : l.Nodup := by
  induction h with
  | nil => exact nodup_nil
  | @cons id r l hr _ _ h ih =>
    refine nodup_cons.2 ⟨fun hid => ?_, ih⟩
    obtain ⟨r', hr', -, -, l', h', hlt⟩ := h.mem hid
    rw [hr] at hr'
    cases hr'
    rw [h.unique h'] at hlt
    omega

theorem Stack.upsert (h : Stack s o top l) (row : Release) (hid : id ∉ l) : Stack (s.upsert id row) o top l := by
  induction h with
  | nil => exact .nil
  | @cons id' r l hr ho hsup h ih =>
    refine .cons ?_ ho hsup (ih fun hin => hid (mem_cons_of_mem _ hin))
    rw [Table.get?_upsert, if_neg]
    · exact hr
    · rintro rfl
      exact hid mem_cons_self

/-! ## The invariant -/

def Status.early (st : Status) : Bool := st = .draft || st = .evaluated || st = .approved

structure StackInv (s : Store) : Prop where
  keyed : ∀ id r, s.get? id = some r → r.releaseId = id
  one : ∀ id id' r r', s.get? id = some r → s.get? id' = some r' → r.status = .active →
    r'.status = .active → r.owner = r'.owner → id = id'
  early : ∀ id r, s.get? id = some r → r.status.early = true → r.previousReleaseId = none
  stack : ∀ id r, s.get? id = some r → r.status = .active → ∃ l, Stack s r.owner r.previousReleaseId l

theorem StackInv.empty : StackInv (Table.empty : Store) := by
  have hno : ∀ id r, (Table.empty : Store).get? id ≠ some r := by
    intro id r
    simp [Table.empty, Table.get?]
  exact ⟨fun id r h => absurd h (hno id r), fun id _ r _ h => absurd h (hno id r),
    fun id r h => absurd h (hno id r), fun id r h => absurd h (hno id r)⟩

variable {row : Release}

theorem StackInv.store_quiet (hi : StackInv s) (hst : row.status ≠ .active)
    (hearly : row.status.early = true → row.previousReleaseId = none)
    (hold : ∀ r, s.get? row.releaseId = some r → ¬ r.Superseded) : StackInv (s.upsert row.releaseId row) := by
  have hstack : ∀ o top l, Stack s o top l → Stack (s.upsert row.releaseId row) o top l := by
    intro o top l h
    refine h.upsert row fun hid => ?_
    obtain ⟨r, hr, -, hsup, -⟩ := h.mem hid
    exact hold r hr hsup
  refine ⟨?_, ?_, ?_, ?_⟩
  · intro id r hr
    rw [Table.get?_upsert] at hr
    split at hr
    · next heq =>
      cases hr
      exact heq.symm
    · exact hi.keyed id r hr
  · intro id id' r r' hr hr' hact hact'
    rw [Table.get?_upsert] at hr hr'
    split at hr
    · cases hr
      exact absurd hact hst
    · split at hr'
      · cases hr'
        exact absurd hact' hst
      · exact hi.one id id' r r' hr hr' hact hact'
  · intro id r hr he
    rw [Table.get?_upsert] at hr
    split at hr
    · cases hr
      exact hearly he
    · exact hi.early id r hr he
  · intro id r hr hact
    rw [Table.get?_upsert] at hr
    split at hr
    · cases hr
      exact absurd hact hst
    · obtain ⟨l, h⟩ := hi.stack id r hr hact
      exact ⟨l, hstack _ _ _ h⟩

variable {old : Release}

theorem StackInv.store_active (hi : StackInv s) (hst : row.status = .active)
    (hold : s.get? row.releaseId = some old) (ho : old.owner = row.owner)
    (hnone : ∀ id r, s.get? id = some r → r.owner = row.owner → r.status ≠ .active)
    (hstack : Stack s row.owner row.previousReleaseId l) (hid : row.releaseId ∉ l) :
    StackInv (s.upsert row.releaseId row) := by
  have hother : ∀ o top l, o ≠ row.owner → Stack s o top l → Stack (s.upsert row.releaseId row) o top l := by
    intro o top l hne h
    refine h.upsert row fun hin => ?_
    obtain ⟨r, hr, hro, -, -⟩ := h.mem hin
    rw [hold] at hr
    cases hr
    exact hne (hro.symm.trans ho)
  have hactive : ∀ id r, (s.upsert row.releaseId row).get? id = some r → r.status = .active →
      r.owner = row.owner → id = row.releaseId := by
    intro id r hr hact hown
    rw [Table.get?_upsert] at hr
    split at hr
    · next heq => exact heq
    · exact absurd hact (hnone id r hr hown)
  refine ⟨?_, ?_, ?_, ?_⟩
  · intro id r hr
    rw [Table.get?_upsert] at hr
    split at hr
    · next heq =>
      cases hr
      exact heq.symm
    · exact hi.keyed id r hr
  · intro id id' r r' hr hr' hact hact' hown
    by_cases hro : r.owner = row.owner
    · rw [hactive id r hr hact hro, hactive id' r' hr' hact' (hown.symm.trans hro)]
    · rw [Table.get?_upsert] at hr hr'
      split at hr
      · cases hr
        exact absurd rfl hro
      · split at hr'
        · cases hr'
          exact absurd hown hro
        · exact hi.one id id' r r' hr hr' hact hact' hown
  · intro id r hr he
    rw [Table.get?_upsert] at hr
    split at hr
    · cases hr
      rw [hst] at he
      cases he
    · exact hi.early id r hr he
  · intro id r hr hact
    by_cases hro : r.owner = row.owner
    · have hkey := hactive id r hr hact hro
      subst hkey
      rw [Table.get?_upsert, if_pos rfl] at hr
      cases hr
      exact ⟨l, hstack.upsert row hid⟩
    · rw [Table.get?_upsert] at hr
      split at hr
      · cases hr
        exact absurd rfl hro
      · obtain ⟨l', h'⟩ := hi.stack id r hr hact
        exact ⟨l', hother _ _ _ hro h'⟩

/-! ## Statements -/

variable {α : Type}

theorem bind_ok_iff {ε β : Type} {x : Except ε α} {f : α → Except ε β} {b : β} :
    (x >>= f) = .ok b ↔ ∃ a, x = .ok a ∧ f a = .ok b := by
  cases x with
  | ok a => exact ⟨fun h => ⟨a, rfl, h⟩, fun ⟨a', ha, h⟩ => by cases ha; exact h⟩
  | error e =>
    constructor
    · intro h
      cases h
    · rintro ⟨a, ha, -⟩
      cases ha

theorem refuseWhen_ok {c : Bool} {http : Nat} {code : String} {u : Unit}
    (h : refuseWhen c http code = .ok u) : c = false := by
  cases c with
  | false => rfl
  | true => cases h

variable {r : Release}

theorem found_ok (h : found s id = .ok r) : s.get? id = some r := by
  unfold found at h
  split at h
  · cases h
  · next r' hr =>
    cases h
    exact hr

variable {w : World} {s' : Store}

theorem store_ok (h : store w s row = .ok s') : s' = s.upsert row.releaseId row := by
  unfold store at h
  split at h
  · cases h
  · split at h
    · cases h
      rfl
    · cases h

/-- What an UPDATE stores: the trigger keeps id, owner, status and pointer. -/
structure Wrote (new row : Release) : Prop where
  releaseId : row.releaseId = new.releaseId
  owner : row.owner = new.owner
  status : row.status = new.status
  previous : row.previousReleaseId = new.previousReleaseId
  reason : new.status ≠ .active → row.retiredReason = new.retiredReason

theorem guardWrites_wrote (now : Nat) (today : Date) (old new : Release) : Wrote new (guardWrites now today old new) := by
  unfold guardWrites
  split
  · exact ⟨rfl, rfl, rfl, rfl, fun _ => rfl⟩
  · split
    · next hact => exact ⟨rfl, rfl, rfl, rfl, fun hne => absurd hact hne⟩
    · split
      · exact ⟨rfl, rfl, rfl, rfl, fun _ => rfl⟩
      · exact ⟨rfl, rfl, rfl, rfl, fun _ => rfl⟩

variable {new : Release}

theorem update_ok (h : update w s old new = .ok (s', row)) : Wrote new row ∧ s' = s.upsert row.releaseId row := by
  unfold update at h
  cases hrow : updateRow w.ev w.now w.today old new with
  | error e =>
    rw [hrow] at h
    cases h
  | ok row' =>
    rw [hrow] at h
    dsimp only at h
    cases hs : store w s row' with
    | error e =>
      rw [hs] at h
      cases h
    | ok s'' =>
      rw [hs] at h
      cases h
      refine ⟨?_, store_ok hs⟩
      obtain ⟨-, hrow⟩ := seq_ok_iff.1 hrow
      dsimp only at hrow
      split at hrow
      · cases hrow
        exact guardWrites_wrote _ _ _ _
      · cases hrow

/-! ## What a call leaves of a row -/

structure Keeps (r r' : Release) : Prop where
  rolledBack : r.RolledBack → r' = r
  later : r.status = .active ∨ r.status = .retired → (r'.status = .active ∨ r'.status = .retired) ∧
    r'.previousReleaseId = r.previousReleaseId ∧ r'.owner = r.owner

theorem Keeps.refl (r : Release) : Keeps r r := ⟨fun _ => rfl, fun h => ⟨h, rfl, rfl⟩⟩

theorem Keeps.trans {r' r'' : Release} (h : Keeps r r') (h' : Keeps r' r'') : Keeps r r'' := by
  refine ⟨?_, ?_⟩
  · intro hr
    have heq := h.rolledBack hr
    subst heq
    exact h'.rolledBack hr
  · intro hst
    obtain ⟨hst', hp, ho⟩ := h.later hst
    obtain ⟨hst'', hp', ho'⟩ := h'.later hst'
    exact ⟨hst'', hp'.trans hp, ho'.trans ho⟩

theorem Keeps.of_early (h : r.status.early = true) (r' : Release) : Keeps r r' := by
  refine ⟨fun hr => ?_, ?_⟩
  · rw [hr.retired] at h
    cases h
  · rintro (hst | hst)
    · rw [hst] at h
      cases h
    · rw [hst] at h
      cases h

theorem Keeps.of_moved {r' : Release} (hr : ¬ r.RolledBack) (hst : r'.status = .active ∨ r'.status = .retired)
    (hp : r'.previousReleaseId = r.previousReleaseId) (ho : r'.owner = r.owner) : Keeps r r' :=
  ⟨fun h => absurd h hr, fun _ => ⟨hst, hp, ho⟩⟩

def Grows (s s' : Store) : Prop :=
  ∀ id r, s.get? id = some r → ∃ r', s'.get? id = some r' ∧ Keeps r r'

theorem Grows.refl (s : Store) : Grows s s := fun _ r h => ⟨r, h, .refl r⟩

theorem Grows.trans {s'' : Store} (h : Grows s s') (h' : Grows s' s'') : Grows s s'' := by
  intro id r hr
  obtain ⟨r', hr', hk⟩ := h id r hr
  obtain ⟨r'', hr'', hk'⟩ := h' id r' hr'
  exact ⟨r'', hr'', hk.trans hk'⟩

theorem Grows.upsert (h : ∀ r, s.get? row.releaseId = some r → Keeps r row) : Grows s (s.upsert row.releaseId row) := by
  intro id r hr
  rw [Table.get?_upsert]
  split
  · next heq =>
    subst heq
    exact ⟨row, rfl, h r hr⟩
  · exact ⟨r, hr, .refl r⟩

/-! ## The three kinds of UPDATE -/

theorem edit_ok (hi : StackInv s)
    (hr : s.get? id = some r) (he : r.status.early = true) (hid : new.releaseId = r.releaseId)
    (hst : new.status ≠ .active) (hp : new.previousReleaseId = r.previousReleaseId)
    (h : update w s r new = .ok (s', row)) : StackInv s' ∧ Grows s s' := by
  obtain ⟨hw, rfl⟩ := update_ok h
  have hkey : row.releaseId = id := by rw [hw.releaseId, hid, hi.keyed id r hr]
  have hold : ∀ r', s.get? row.releaseId = some r' → r' = r := by
    intro r' hr'
    rw [hkey, hr] at hr'
    exact (Option.some.inj hr').symm
  refine ⟨hi.store_quiet ?_ ?_ ?_, Grows.upsert ?_⟩
  · rw [hw.status]
    exact hst
  · intro _
    rw [hw.previous, hp]
    exact hi.early id r hr he
  · intro r' hr' hsup
    rw [hold r' hr'] at hsup
    rw [hsup.retired] at he
    cases he
  · intro r' hr'
    rw [hold r' hr']
    exact .of_early he row

variable {reason : String}

theorem retire_ok
    (hi : StackInv s) (hr : s.get? id = some r) (hact : r.status = .active)
    (h : update w s r { r with status := .retired, retiredReason := some reason } = .ok (s', row)) :
    StackInv s' ∧ Grows s s' ∧
      (∀ id' r', s'.get? id' = some r' → r'.owner = r.owner → r'.status ≠ .active) ∧
      (∀ o top l, Stack s o top l → Stack s' o top l) ∧ (∀ id', id' ≠ id → s'.get? id' = s.get? id') ∧
      ∃ r', s'.get? id = some r' ∧ r'.status = .retired ∧ r'.retiredReason = some reason ∧
        r'.owner = r.owner ∧ r'.previousReleaseId = r.previousReleaseId := by
  obtain ⟨hw, rfl⟩ := update_ok h
  have hkey : row.releaseId = id := hw.releaseId.trans (hi.keyed id r hr)
  have hrow : row.retiredReason = some reason := hw.reason nofun
  have hold : ∀ r', s.get? row.releaseId = some r' → r' = r := by
    intro r' hr'
    rw [hkey, hr] at hr'
    exact (Option.some.inj hr').symm
  have hnsup : ∀ r', s.get? row.releaseId = some r' → ¬ r'.Superseded := by
    intro r' hr' hsup
    rw [hold r' hr'] at hsup
    rw [hsup.retired] at hact
    cases hact
  refine ⟨hi.store_quiet ?_ ?_ hnsup, Grows.upsert ?_, ?_, ?_, ?_, ?_⟩
  · rw [hw.status]
    nofun
  · intro he
    rw [hw.status] at he
    cases he
  · intro r' hr'
    rw [hold r' hr']
    refine .of_moved (fun hrb => ?_) (Or.inr hw.status) hw.previous hw.owner
    rw [hrb.retired] at hact
    cases hact
  · intro id' r' hr' ho hact'
    rw [Table.get?_upsert] at hr'
    split at hr'
    · cases hr'
      rw [hw.status] at hact'
      cases hact'
    · next hne =>
      refine hne ?_
      rw [hkey]
      exact hi.one id' id r' r hr' hr hact' hact ho
  · intro o top l hst
    refine hst.upsert row fun hin => ?_
    obtain ⟨r', hr', -, hsup, -⟩ := hst.mem hin
    exact hnsup r' hr' hsup
  · intro id' hne
    rw [Table.get?_upsert, if_neg]
    rw [hkey]
    exact hne
  · refine ⟨row, ?_, hw.status, hrow, hw.owner, hw.previous⟩
    rw [Table.get?_upsert, if_pos hkey.symm]

theorem raise_ok (hi : StackInv s)
    (hr : s.get? id = some r) (h : update w s r new = .ok (s', row)) (hid : new.releaseId = r.releaseId)
    (ho : new.owner = r.owner) (hact : new.status = .active)
    (hnone : ∀ id' r', s.get? id' = some r' → r'.owner = r.owner → r'.status ≠ .active)
    (hstack : Stack s r.owner new.previousReleaseId l) (hnot : id ∉ l) :
    StackInv s' ∧ Wrote new row ∧ s' = s.upsert id row := by
  obtain ⟨hw, rfl⟩ := update_ok h
  have hkey : row.releaseId = id := by rw [hw.releaseId, hid, hi.keyed id r hr]
  refine ⟨?_, hw, by rw [hkey]⟩
  have hold : s.get? row.releaseId = some r := by
    rw [hkey]
    exact hr
  refine hi.store_active (by rw [hw.status]; exact hact) hold ?_ ?_ (l := l) ?_ ?_
  · rw [hw.owner, ho]
  · rw [hw.owner, ho]
    exact hnone
  · rw [hw.owner, ho, hw.previous]
    exact hstack
  · rw [hkey]
    exact hnot

/-! ## The calls -/

theorem activeOf_some (h : activeOf s o = some r) : ∃ id, s.get? id = some r ∧ r.owner = o ∧ r.status = .active := by
  have hp := List.find?_some h
  obtain ⟨⟨id, r'⟩, hmem, heq⟩ := mem_map.1 (List.mem_of_find?_eq_some h)
  subst heq
  simp only [Bool.and_eq_true, decide_eq_true_eq] at hp
  exact ⟨id, (Table.get?_eq_some_iff _ _ _).2 hmem, hp.1, hp.2⟩

theorem activeOf_none (h : activeOf s o = none) (hr : s.get? id = some r) (ho : r.owner = o) : r.status ≠ .active := by
  intro hact
  have := List.find?_eq_none.1 h r (mem_map.2 ⟨(id, r), (Table.get?_eq_some_iff _ _ _).1 hr, rfl⟩)
  simp [ho, hact] at this

theorem createDraft_ok {a : DraftArgs} (hi : StackInv s)
    (h : createDraft w s a = .ok (s', row)) : StackInv s' ∧ Grows s s' := by
  obtain ⟨-, h⟩ := seq_ok_iff.1 h
  obtain ⟨-, h⟩ := seq_ok_iff.1 h
  obtain ⟨-, h⟩ := seq_ok_iff.1 h
  obtain ⟨-, h⟩ := seq_ok_iff.1 h
  obtain ⟨-, h⟩ := seq_ok_iff.1 h
  obtain ⟨hnew, h⟩ := seq_ok_iff.1 h
  generalize hrow : draftRow a _ _ = draft at hnew h
  have hstatus : draft.status = .draft ∧ draft.previousReleaseId = none := by
    subst hrow
    exact ⟨rfl, rfl⟩
  have hfresh : s.get? draft.releaseId = none := by
    cases hg : s.get? draft.releaseId with
    | none => rfl
    | some r =>
      rw [hg] at hnew
      cases hnew
  have hs' : s' = s.upsert draft.releaseId draft := by
    split at h
    · cases h
    · obtain ⟨-, h⟩ := seq_ok_iff.1 h
      cases hst : store w s draft with
      | error e =>
        rw [hst] at h
        cases h
      | ok s'' =>
        rw [hst] at h
        cases h
        exact store_ok hst
  subst hs'
  refine ⟨hi.store_quiet ?_ ?_ ?_, Grows.upsert ?_⟩
  · rw [hstatus.1]
    nofun
  · intro _
    exact hstatus.2
  · intro r hr
    rw [hfresh] at hr
    cases hr
  · intro r hr
    rw [hfresh] at hr
    cases hr

theorem attachEvidence_ok {a : EvidenceArgs}
    (hi : StackInv s) (h : attachEvidence w s id a = .ok (s', row)) : StackInv s' ∧ Grows s s' := by
  obtain ⟨r, hr, h⟩ := bind_ok_iff.1 h
  obtain ⟨hst, h⟩ := seq_ok_iff.1 h
  obtain ⟨-, h⟩ := seq_ok_iff.1 h
  obtain ⟨-, h⟩ := seq_ok_iff.1 h
  have hst := refuseWhen_ok hst
  have he : r.status.early = true := by
    simp only [Bool.not_eq_false', Bool.or_eq_true, decide_eq_true_eq] at hst
    rcases hst with hst | hst <;> rw [hst] <;> rfl
  refine edit_ok hi (found_ok hr) he ?_ ?_ ?_ h
  · rfl
  · split
    · nofun
    · intro hact
      rw [hact] at he
      cases he
  · rfl

theorem approve_ok {approvedBy : String} {approvalRef : Option String} {allowAgent : Bool} (hi : StackInv s)
    (h : approve w s id approvedBy approvalRef allowAgent = .ok (s', row)) : StackInv s' ∧ Grows s s' := by
  obtain ⟨r, hr, h⟩ := bind_ok_iff.1 h
  obtain ⟨-, h⟩ := seq_ok_iff.1 h
  obtain ⟨hst, h⟩ := seq_ok_iff.1 h
  have he : r.status.early = true := by
    have hst := refuseWhen_ok hst
    simp only [ne_eq, decide_not, Bool.not_eq_false', decide_eq_true_eq] at hst
    rw [hst]
    rfl
  refine edit_ok hi (found_ok hr) he ?_ ?_ ?_ h
  · rfl
  · nofun
  · rfl

theorem reject_ok {actor : String}
    (hi : StackInv s) (h : reject w s id actor reason = .ok (s', row)) : StackInv s' ∧ Grows s s' := by
  obtain ⟨r, hr, h⟩ := bind_ok_iff.1 h
  obtain ⟨hst, h⟩ := seq_ok_iff.1 h
  have he : r.status.early = true := by
    have hst := refuseWhen_ok hst
    rwa [Bool.not_eq_false'] at hst
  refine edit_ok hi (found_ok hr) he ?_ ?_ ?_ h
  · rfl
  · nofun
  · rfl

theorem activate_ok {enforceWiring : Bool} (hi : StackInv s) (h : activate w s id enforceWiring = .ok (s', row)) :
    StackInv s' ∧ Grows s s' ∧ s'.get? id = some row ∧ row.status = .active ∧
      row.previousReleaseId = (activeOf s row.owner).map Release.releaseId := by
  obtain ⟨r, hr, h⟩ := bind_ok_iff.1 h
  have hr := found_ok hr
  obtain ⟨hst, h⟩ := seq_ok_iff.1 h
  have hst := refuseWhen_ok hst
  simp only [ne_eq, decide_not, Bool.not_eq_false', decide_eq_true_eq] at hst
  obtain ⟨-, h⟩ := seq_ok_iff.1 h
  obtain ⟨-, h⟩ := seq_ok_iff.1 h
  obtain ⟨s₁, hsup, h⟩ := bind_ok_iff.1 h
  have he : r.status.early = true := by rw [hst]; rfl
  cases hcur : activeOf s r.owner with
  | none =>
    rw [hcur] at hsup h
    cases hsup
    have hp : r.previousReleaseId = none := hi.early id r hr he
    obtain ⟨hi', hw, rfl⟩ := raise_ok (l := []) hi hr h rfl rfl rfl
      (fun id' r' hr' ho => activeOf_none hcur hr' ho) (by
        show Stack s r.owner r.previousReleaseId []
        rw [hp]
        exact .nil) not_mem_nil
    have ho : row.owner = r.owner := hw.owner
    have hkey : row.releaseId = id := hw.releaseId.trans (hi.keyed id r hr)
    refine ⟨hi', ?_, by rw [Table.get?_upsert, if_pos rfl], hw.status, ?_⟩
    · rw [← hkey]
      refine Grows.upsert fun r' hr' => ?_
      rw [hkey, hr] at hr'
      cases hr'
      exact .of_early he row
    · rw [ho, hcur]
      exact hw.previous.trans hp
  | some c =>
    rw [hcur] at hsup h
    obtain ⟨cid, hc, hco, hcact⟩ := activeOf_some hcur
    have hck : c.releaseId = cid := hi.keyed cid c hc
    cases hup : update w s c { c with status := .retired, retiredReason := some "superseded" } with
    | error e =>
      rw [supersede, hup] at hsup
      cases hsup
    | ok x =>
      obtain ⟨s₁', crow⟩ := x
      rw [supersede, hup] at hsup
      cases hsup
      obtain ⟨hi₁, hg₁, hnone, hstacks, hsame, c', hc', hcst, hcr, hcow, hcp⟩ := retire_ok hi hc hcact hup
      have hne : id ≠ cid := by
        rintro rfl
        rw [hr] at hc
        cases hc
        rw [hst] at hcact
        cases hcact
      have hr₁ : s₁'.get? id = some r := by rw [hsame id hne]; exact hr
      obtain ⟨l, hl⟩ := hi.stack cid c hc hcact
      have hstack : Stack s₁' r.owner (some cid) (cid :: l) := by
        refine .cons hc' (hcow.trans hco) ⟨hcst, hcr⟩ ?_
        rw [hcp, ← hco]
        exact hstacks _ _ _ hl
      have hnot : id ∉ cid :: l := by
        intro hin
        rcases mem_cons.1 hin with heq | hin
        · exact hne heq
        · obtain ⟨r', hr', -, hsup', -⟩ := hl.mem hin
          rw [hr] at hr'
          cases hr'
          rw [hsup'.retired] at hst
          cases hst
      obtain ⟨hi', hw, rfl⟩ := raise_ok hi₁ hr₁ h rfl rfl rfl
        (fun id' r' hr' ho => hnone id' r' hr' (ho.trans hco.symm)) (l := cid :: l) (by
          show Stack s₁' r.owner (some c.releaseId) (cid :: l)
          rw [hck]
          exact hstack) hnot
      have ho : row.owner = r.owner := hw.owner
      have hkey : row.releaseId = id := hw.releaseId.trans (hi.keyed id r hr)
      refine ⟨hi', hg₁.trans ?_, by rw [Table.get?_upsert, if_pos rfl], hw.status, ?_⟩
      · rw [← hkey]
        refine Grows.upsert fun r' hr' => ?_
        rw [hkey, hr₁] at hr'
        cases hr'
        exact .of_early he row
      · rw [ho, hcur]
        exact hw.previous

theorem StackInv.previous (hi : StackInv s) (hr : s.get? id = some r)
    (hact : r.status = .active) {pid : Id} (hp : r.previousReleaseId = some pid) :
    ∃ prev l, s.get? pid = some prev ∧ prev.owner = r.owner ∧ prev.Superseded ∧
      Stack s r.owner prev.previousReleaseId l ∧ pid ∉ l := by
  obtain ⟨l, hl⟩ := hi.stack id r hr hact
  rw [hp] at hl
  have hnodup := hl.nodup
  cases hl with
  | cons hprev ho hsup hrest => exact ⟨_, _, hprev, ho, hsup, hrest, (nodup_cons.1 hnodup).1⟩

theorem rollback_ok (hi : StackInv s) (h : rollback w s id reason = .ok (s', row)) :
    StackInv s' ∧ Grows s s' ∧ ∃ r, s.get? id = some r ∧ r.status = .active ∧
      r.previousReleaseId = some row.releaseId ∧ s'.get? row.releaseId = some row ∧
      row.status = .active ∧ row.owner = r.owner := by
  obtain ⟨r, hr, h⟩ := bind_ok_iff.1 h
  have hr := found_ok hr
  obtain ⟨hst, h⟩ := seq_ok_iff.1 h
  have hact := refuseWhen_ok hst
  simp only [ne_eq, decide_not, Bool.not_eq_false', decide_eq_true_eq] at hact
  cases hp : r.previousReleaseId with
  | none =>
    have hread : r.previousReleaseId.bind s.get? = none := by rw [hp]; rfl
    rw [hread] at h
    cases h
  | some pid =>
    obtain ⟨prev, l, hprev, ho, hsup, hstack, hnot⟩ := hi.previous hr hact hp
    have hread : r.previousReleaseId.bind s.get? = some prev := by rw [hp]; exact hprev
    rw [hread] at h
    obtain ⟨-, h⟩ := seq_ok_iff.1 h
    obtain ⟨-, h⟩ := seq_ok_iff.1 h
    obtain ⟨⟨s₁, rrow⟩, hup, h⟩ := bind_ok_iff.1 h
    have hretire : update w s r
        { r with status := .retired, retiredReason := some (rollbackReason reason) } = .ok (s₁, rrow) := hup
    obtain ⟨hi₁, hg₁, hnone, hstacks, hsame, -⟩ := retire_ok hi hr hact hretire
    have hne : pid ≠ id := by
      rintro rfl
      rw [hr] at hprev
      cases hprev
      rw [hsup.retired] at hact
      cases hact
    have hprev₁ : s₁.get? pid = some prev := by rw [hsame pid hne]; exact hprev
    obtain ⟨hi', hw, rfl⟩ := raise_ok hi₁ hprev₁ h rfl rfl rfl
      (fun id' r' hr' ho' => hnone id' r' hr' (ho'.trans ho)) (l := l) (by
        show Stack s₁ prev.owner prev.previousReleaseId l
        rw [ho]
        exact hstacks _ _ _ hstack) hnot
    have hkey : row.releaseId = pid := hw.releaseId.trans (hi.keyed pid prev hprev)
    have hown : row.owner = prev.owner := hw.owner
    have hgrow : Grows s₁ (s₁.upsert pid row) := by
      rw [← hkey]
      refine Grows.upsert fun r' hr' => ?_
      rw [hkey, hprev₁] at hr'
      cases hr'
      refine .of_moved (fun hrb => ?_) (Or.inl hw.status) hw.previous hown
      have hno := hrb.reason
      rw [hsup.reason] at hno
      exact absurd hno (by decide)
    refine ⟨hi', hg₁.trans hgrow, r, hr, hact, ?_, ?_, hw.status, hown.trans ho⟩
    · rw [hp, hkey]
    · rw [hkey, Table.get?_upsert, if_pos rfl]

theorem retireWithoutPrevious_ok (hi : StackInv s) (h : retireWithoutPrevious w s id reason = .ok (s', row)) :
    StackInv s' ∧ Grows s s' := by
  obtain ⟨r, hr, h⟩ := bind_ok_iff.1 h
  obtain ⟨hst, h⟩ := seq_ok_iff.1 h
  have hact := refuseWhen_ok hst
  simp only [ne_eq, decide_not, Bool.not_eq_false', decide_eq_true_eq] at hact
  obtain ⟨-, h⟩ := seq_ok_iff.1 h
  obtain ⟨hi', hg, -⟩ := retire_ok hi (found_ok hr) hact h
  exact ⟨hi', hg⟩

theorem call_ok {c : Call} (hi : StackInv s) (h : call w s c = .ok (s', row)) : StackInv s' ∧ Grows s s' := by
  cases c with
  | createDraft a => exact createDraft_ok hi h
  | attachEvidence id a => exact attachEvidence_ok hi h
  | approve id approvedBy approvalRef allowAgent => exact approve_ok hi h
  | reject id actor reason => exact reject_ok hi h
  | activate id enforceWiring =>
    obtain ⟨hi', hg, -⟩ := activate_ok hi h
    exact ⟨hi', hg⟩
  | rollback id reason =>
    obtain ⟨hi', hg, -⟩ := rollback_ok hi h
    exact ⟨hi', hg⟩
  | retireWithoutPrevious id reason => exact retireWithoutPrevious_ok hi h

theorem stepCall_ok (hi : StackInv s) (x : World × Call) : StackInv (stepCall s x) ∧ Grows s (stepCall s x) := by
  unfold stepCall
  cases h : call x.1 s x.2 with
  | error e => exact ⟨hi, Grows.refl s⟩
  | ok y => exact call_ok hi h

theorem run_ok (hi : StackInv s) (xs : List (World × Call)) :
    StackInv (run stepCall s xs) ∧ Grows s (run stepCall s xs) := by
  induction xs generalizing s with
  | nil => exact ⟨hi, Grows.refl s⟩
  | cons x xs ih =>
    obtain ⟨hi₁, hg₁⟩ := stepCall_ok hi x
    obtain ⟨hi', hg⟩ := ih hi₁
    exact ⟨hi', hg₁.trans hg⟩

/-! ## Refusals of a rollback -/

def Problem.ofStatus : Problem → Bool
  | .badTransition _ _ => true
  | .rolledBack => true
  | _ => false

theorem Problem.code_ne {p : Problem} (h : p.ofStatus = false) : p.code ≠ "bad_transition" ∧ p.code ≠ "rolled_back" := by
  cases p with
  | badTransition _ _ => cases h
  | rolledBack => cases h
  | missing slot => cases slot <;> decide
  | wrongWriter slot => cases slot <;> decide
  | unfinished slot => cases slot <;> decide
  | notPassed slot _ _ => cases slot <;> simp [code, Slot.name]
  | wrongRelease slot => cases slot <;> decide
  | _ => simp [code]

def NoStatus {α : Type} (x : Except Refusal α) : Prop := ∀ p, x = .error (.problem p) → p.ofStatus = false

theorem NoStatus.ok (a : α) : NoStatus (.ok a : Except Refusal α) := nofun

theorem NoStatus.refuseIf {p : Problem} (hp : p.ofStatus = false) (c : Bool) : NoStatus (refuseIf c p) := by
  intro q hq
  unfold Releases.refuseIf at hq
  split at hq
  · cases hq
    exact hp
  · cases hq

theorem NoStatus.bind {β : Type} {x : Except Refusal α} {f : α → Except Refusal β} (hx : NoStatus x)
    (hf : ∀ a, NoStatus (f a)) : NoStatus (x >>= f) := by
  intro p hp
  cases x with
  | ok a => exact hf a p hp
  | error e =>
    cases hp
    exact hx p rfl

theorem NoStatus.answerAll {l : List Answer} (h : ∀ a ∈ l, NoStatus a) : NoStatus (answerAll l) := by
  induction l with
  | nil => exact .ok ()
  | cons a l ih =>
    cases a with
    | ok u => exact ih fun b hb => h b (mem_cons_of_mem _ hb)
    | error e =>
      intro p hp
      cases hp
      exact h _ mem_cons_self p rfl

theorem noStatus_detailsOf (lim : Limits) (run : EvalRun) : NoStatus (detailsOf lim run) := by
  intro p hp
  unfold detailsOf at hp
  split at hp <;> cases hp

theorem noStatus_num (j : Option Json) : NoStatus (num j) := by
  intro p hp
  unfold num at hp
  split at hp
  · dsimp only at hp
    split at hp <;> cases hp
  · cases hp

theorem noStatus_runProblem (run? : Option EvalRun) (writer : Writer) (slot : Slot)
    (okKinds : List (RunKind × Verdict)) : NoStatus (runProblem run? writer slot okKinds) := by
  unfold runProblem
  split
  · intro p hp
    cases hp
    rfl
  · exact .bind (.refuseIf rfl _) fun _ => .bind (.refuseIf rfl _) fun _ => .refuseIf rfl _

theorem noStatus_linkProblem (lim : Limits) (run? : Option EvalRun) (r : Release) (slot : Slot) :
    NoStatus (releaseLinkProblem lim run? r slot) := by
  unfold releaseLinkProblem
  split
  · exact .ok ()
  · split
    · exact .ok ()
    · split
      · exact .ok ()
      · refine .bind (.refuseIf rfl _) fun _ => ?_
        split
        · exact .bind (noStatus_detailsOf _ _) fun _ => .bind (.refuseIf rfl _) fun _ => .refuseIf rfl _
        · exact .ok ()

theorem noStatus_slotProblem (lim : Limits) (ev : Evidence) (r : Release) (slot : Slot) :
    NoStatus (slotProblem lim ev r slot) := by
  cases slot with
  | r0 =>
    refine .bind (noStatus_runProblem _ _ _ _) fun _ => ?_
    split
    · split
      · exact .ok ()
      · exact .bind (noStatus_detailsOf _ _) fun _ => .bind (noStatus_num _) fun _ =>
          .bind (noStatus_num _) fun _ => .refuseIf rfl _
    · exact .ok ()
  | eval => exact .bind (noStatus_runProblem _ _ _ _) fun _ => noStatus_linkProblem _ _ _ _
  | shadow => exact .bind (noStatus_runProblem _ _ _ _) fun _ => noStatus_linkProblem _ _ _ _

theorem noStatus_rulesProblem (r : Release) (found : List (Id × WritingRule)) (first : Bool) :
    NoStatus (rulesProblem r found first) := by
  unfold rulesProblem
  split
  · exact .ok ()
  · refine .answerAll fun a ha => ?_
    simp only [mem_cons, not_mem_nil, or_false] at ha
    rcases ha with rfl | rfl | rfl | rfl
    · intro p hp
      unfold ruleMissing at hp
      dsimp only at hp
      split at hp
      · cases hp
      · split at hp
        · cases hp
        · cases hp
          rfl
    · intro p hp
      unfold ruleIsolation at hp
      split at hp
      · cases hp
        rfl
      · cases hp
    · exact .refuseIf rfl _
    · split
      · exact .refuseIf rfl _
      · exact .ok ()

theorem noStatus_evidenceProblem {lim : Limits} {ev : Evidence} {today : Date}
    (hsup : r.Superseded) : NoStatus (evidenceProblem lim ev r false today) := by
  refine .answerAll fun a ha => ?_
  simp only [mem_append, mem_cons, mem_map, not_mem_nil, or_false] at ha
  rcases ha with ((rfl | rfl | ⟨slot, -, rfl⟩) | ⟨slot, -, rfl⟩) | rfl | rfl
  · rw [if_neg Bool.false_ne_true, hsup.retired, hsup.reason]
    exact .ok ()
  · exact .refuseIf rfl _
  · exact .refuseIf rfl _
  · exact noStatus_slotProblem _ _ _ _
  · exact noStatus_rulesProblem _ _ _
  · unfold trainProblem
    split
    · exact .refuseIf rfl _
    · exact .ok ()

theorem bind_error_iff {ε β : Type} {x : Except ε α} {f : α → Except ε β} {e : ε} :
    (x >>= f) = .error e ↔ x = .error e ∨ ∃ a, x = .ok a ∧ f a = .error e := by
  cases x with
  | ok a =>
    constructor
    · intro h
      exact Or.inr ⟨a, rfl, h⟩
    · rintro (h | ⟨a', ha, h⟩)
      · cases h
      · cases ha
        exact h
  | error e' =>
    constructor
    · intro h
      cases h
      exact Or.inl rfl
    · rintro (h | ⟨a, ha, -⟩)
      · cases h
        rfl
      · cases ha

theorem update_error {e : CallError} (h : update w s old new = .error e) : ∃ d, e = .dbRefused d := by
  unfold update at h
  split at h
  · next d _ =>
    cases h
    exact ⟨d, rfl⟩
  · next row _ =>
    cases hs : store w s row with
    | ok s' =>
      rw [hs] at h
      cases h
    | error e' =>
      rw [hs] at h
      cases h
      unfold store at hs
      split at hs
      · cases hs
        exact ⟨_, rfl⟩
      · split at hs
        · cases hs
        · cases hs
          exact ⟨_, rfl⟩

theorem rollback_not_refused {http : Nat}
    {code : String} (hi : StackInv s) (hr : s.get? id = some r) (hact : r.status = .active)
    (hp : r.previousReleaseId.isSome = true) (h : rollback w s id reason = .error (.refused http code)) :
    code ≠ "bad_transition" ∧ code ≠ "rolled_back" := by
  obtain ⟨pid, hp⟩ := Option.isSome_iff_exists.1 hp
  obtain ⟨prev, l, hprev, -, hsup, -, -⟩ := hi.previous hr hact hp
  have hread : r.previousReleaseId.bind s.get? = some prev := by rw [hp]; exact hprev
  have hfound : found s id = .ok r := by rw [found, hr]
  have hst : refuseWhen (decide (r.status ≠ .active)) 409 "not_active" = .ok () := by simp [hact, refuseWhen]
  have htrans : answered (transitionProblem prev.status .active prev.retiredReason) = .ok () := by
    rw [hsup.retired, hsup.reason]
    rfl
  unfold rollback at h
  rw [hfound] at h
  change (refuseWhen _ _ _ >>= fun _ => _) = _ at h
  rw [hst] at h
  simp only [bind, Except.bind] at h
  rw [hread] at h
  dsimp only at h
  rw [htrans] at h
  rcases bind_error_iff.1 h with hcheck | ⟨-, -, h⟩
  · rcases bind_error_iff.1 hcheck with hans | ⟨-, -, hfirst⟩
    · cases hev : evidenceProblem w.lim w.ev prev false w.today with
      | ok u =>
        rw [hev] at hans
        cases hans
      | error ref =>
        cases ref with
        | raised e =>
          rw [hev] at hans
          cases hans
        | problem p =>
          rw [hev] at hans
          cases hans
          exact Problem.code_ne (noStatus_evidenceProblem hsup p hev)
    · cases hfirst
  · rcases bind_error_iff.1 h with hup | ⟨⟨s₁, row⟩, -, hup⟩
    · obtain ⟨d, hd⟩ := update_error hup
      cases hd
    · obtain ⟨d, hd⟩ := update_error hup
      cases hd

/-! ## Rollback steps back -/

/-- After every sequence of calls: one active release an owner, a rolled-back release stays away, the
pointers of the active release run down a stack of superseded releases, and a rollback of it is never
refused for the state of the next one and puts back exactly the release that was active when it was
first activated. -/
theorem rollback_steps_back (xs : List (World × Call)) :
    let s := run stepCall Table.empty xs
    (∀ id id' r r', s.get? id = some r → s.get? id' = some r' → r.status = .active →
      r'.status = .active → r.owner = r'.owner → id = id') ∧
    (∀ id r, s.get? id = some r → r.RolledBack → ∀ ys r',
      (run stepCall s ys).get? id = some r' → r'.status ≠ .active) ∧
    (∀ id r, s.get? id = some r → r.status = .active →
      ∃ l, Stack s r.owner r.previousReleaseId l ∧ (id :: l).Nodup) ∧
    (∀ id r, s.get? id = some r → r.status = .active → r.previousReleaseId.isSome = true →
      ∀ w reason http code, rollback w s id reason = .error (.refused http code) →
        code ≠ "bad_transition" ∧ code ≠ "rolled_back") ∧
    (∀ w id enforceWiring s₁ row, activate w s id enforceWiring = .ok (s₁, row) →
      ∀ ys w' reason s₂ back, rollback w' (run stepCall s₁ ys) id reason = .ok (s₂, back) →
        ∃ x, activeOf s row.owner = some x ∧ back.releaseId = x.releaseId ∧
          ∀ id' r', s₂.get? id' = some r' → r'.owner = row.owner →
            (r'.status = .active ↔ id' = x.releaseId)) := by
  intro s
  obtain ⟨hi, -⟩ := run_ok StackInv.empty xs
  change StackInv s at hi
  refine ⟨hi.one, ?_, ?_, ?_, ?_⟩
  · intro id r hr hrb ys r' hr'
    obtain ⟨r'', hr'', hk⟩ := (run_ok hi ys).2 id r hr
    rw [hr''] at hr'
    cases hr'
    rw [hk.rolledBack hrb, hrb.retired]
    nofun
  · intro id r hr hact
    obtain ⟨l, hl⟩ := hi.stack id r hr hact
    refine ⟨l, hl, List.nodup_cons.2 ⟨fun hin => ?_, hl.nodup⟩⟩
    obtain ⟨r', hr', -, hsup, -⟩ := hl.mem hin
    rw [hr] at hr'
    cases hr'
    rw [hsup.retired] at hact
    cases hact
  · intro id r hr hact hp w reason http code h
    exact rollback_not_refused hi hr hact hp h
  · intro w id enforceWiring s₁ row hact ys w' reason s₂ back hback
    obtain ⟨hi₁, -, hrow, hst, hprev⟩ := activate_ok hi hact
    obtain ⟨hi₂, hg⟩ := run_ok hi₁ ys
    obtain ⟨hi₃, -, r₂, hr₂, -, hp₂, hget, hbst, hbo⟩ := rollback_ok hi₂ hback
    obtain ⟨r', hr', hk⟩ := hg id row hrow
    rw [hr₂] at hr'
    cases hr'
    obtain ⟨-, hpk, hok⟩ := hk.later (Or.inl hst)
    rw [hp₂, hprev] at hpk
    cases hx : activeOf s row.owner with
    | none =>
      rw [hx] at hpk
      cases hpk
    | some x =>
      rw [hx] at hpk
      have hid : back.releaseId = x.releaseId := by simpa using hpk
      refine ⟨x, rfl, hid, ?_⟩
      intro id' r' hr' ho
      constructor
      · intro hact'
        rw [← hid]
        exact hi₃.one id' back.releaseId r' back hr' hget hact' hbst (ho.trans (hbo.trans hok).symm)
      · rintro rfl
        rw [← hid, hget] at hr'
        cases hr'
        exact hbst

/-- The evidence of an empty A1 release. -/
def baselineWorld : World where
  ev :=
    { runs :=
        ⟨[(11, ⟨.writingMemory, some .a1, .r0Replay, some .pass, some 4, none,
            some (.obj [("byte_diffs", .num 0 0), ("inputs", .num 24 0)])⟩),
          (12, ⟨.writingMemory, some .a1, .baselineImport, some .baseline, some 4, none, none⟩)], by simp⟩
      rules := Table.empty
      closedMonth := fun _ => none }
  lim := ⟨4300, 900⟩
  now := 5
  today := ⟨2026, 7, 1⟩
  human := fun _ => true
  hardStop := false
  r1Gate := none
  neverUse := false

/-- An empty release from draft to active. -/
def goLive (id : Id) : List (World × Call) :=
  [(baselineWorld, .createDraft ⟨id, ⟨.a1, .platform, none⟩, [], false, none, none⟩),
    (baselineWorld, .attachEvidence id ⟨some 11, some 12, none⟩),
    (baselineWorld, .approve id "admin" none false), (baselineWorld, .activate id true)]

-- the second release goes live over the first, and a rollback brings the first back
example : (activeOf (run stepCall Table.empty (goLive 1 ++ goLive 2 ++ [(baselineWorld, .rollback 2 "worse")]))
    ⟨.a1, .platform, none⟩).map Release.releaseId = some 1 := by decide +kernel

end CisApp.Releases
