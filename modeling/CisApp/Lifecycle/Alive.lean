import CisApp.Lib.Run
import CisApp.Lifecycle.Effects

/-!
# Never an active Master over a dead source

Whatever the interleaving, the committed rows keep each active Master over a live
version and at most one version active.  Three things carry it:

* A transaction that makes a Master active holds a lock on its source (`Sound`), so
  nobody else can have killed the source in between.
* What a transaction does to rows is repaired by its own sweep, which comes after all
  its other writes (`TxnInv.swept`).
* Two transactions never both hold an uncommitted active version, and one that holds
  one sees no other active version (`AliveInv.apart`, `TxnInv.one`): the unique index.
-/

namespace CisApp.Lifecycle

open Lib List

abbrev LifecycleTxn := Txn RowId Row Statement Outcome

/-! ## The statements still to come -/

/-- The tours whose source is surely locked after the statement: `S` before it, and `L` once the
source read under `FOR SHARE` is known to be there. -/
def securedAfter (S L : Tour → Prop) : Statement → Tour → Prop
  | .version t _ => fun u => S u ∨ u = t
  | .requireLive => fun u => S u ∨ L u
  | _ => S

def sharedAfter (L : Tour → Prop) : Statement → Tour → Prop
  | .lockedSourceState t => fun u => u = t
  | _ => L

/-- A Master is made active only with its source locked, and everything is swept. -/
def Sound (S L : Tour → Prop) : List Statement → Prop
  | [] => True
  | st :: rest =>
    (∀ t, st.raises = some t → S t) ∧ (st.late = false → Statement.switchOffDeadMasters ∈ rest) ∧
      Sound (securedAfter S L st) (sharedAfter L st) rest

theorem Sound.mono {todo : List Statement} : ∀ {S L S' L' : Tour → Prop}, (∀ t, S t → S' t) →
    (∀ t, L t → L' t) → Sound S L todo → Sound S' L' todo := by
  induction todo with
  | nil => exact fun _ _ _ => trivial
  | cons st rest ih =>
    intro S L S' L' hS hL ⟨hraises, hlate, hrest⟩
    refine ⟨fun t ht => hS t (hraises t ht), hlate, ih ?_ ?_ hrest⟩
    · intro t ht
      cases st with
      | version u refuse => exact ht.imp_left (hS t)
      | requireLive => exact ht.imp (hS t) (hL t)
      | _ => exact hS t ht
    · intro t ht
      cases st with
      | lockedSourceState u => exact ht
      | _ => exact hL t ht

theorem Sound.append {S L : Tour → Prop} {rest : List Statement} (hrest : Sound S L rest) :
    ∀ l : List Statement, (∀ st ∈ l, (∀ t, st.raises = some t → S t) ∧
      (st.late = false → Statement.switchOffDeadMasters ∈ rest) ∧
      securedAfter S L st = S ∧ sharedAfter L st = L) → Sound S L (l ++ rest) := by
  intro l hl
  induction l with
  | nil => exact hrest
  | cons st l ih =>
    obtain ⟨hraises, hlate, hS, hL⟩ := hl st mem_cons_self
    refine ⟨hraises, fun h => mem_append_right _ (hlate h), ?_⟩
    rw [hS, hL]
    exact ih fun st' hst' => hl st' (mem_cons_of_mem _ hst')

theorem program_sound (a : Action) (S L : Tour → Prop) : Sound S L (program a) := by
  cases a with
  | supersede decision new =>
    cases decision <;>
      simp [program, cascade, Sound, Statement.raises, Statement.late]
  | _ =>
    simp [program, masterOutcome, cascade, Sound, securedAfter, sharedAfter, Statement.raises, Statement.late]

/-! ## Transactions -/

def Secured (x : LifecycleTxn) (t : Tour) : Prop := ∃ b, (RowId.source t, b) ∈ x.held

/-- An open transaction over the committed rows. -/
structure TxnInv (rows : Rows) (x : LifecycleTxn) : Prop where
  sound : Sound (Secured x) (fun t => x.data.source.isSome → Secured x t) x.todo
  raised : ∀ t m, (RowId.master t, Row.master m) ∈ x.own → m.status = .active → Secured x t
  typed : ∀ w ∈ x.own, (∃ t r, w = (RowId.source t, Row.source r)) ∨
    ∃ t m, w = (RowId.master t, Row.master m)
  there : ∀ t, Secured x t → (source? (x.sees rows) t).isSome
  based : ∀ t, (master? (x.sees rows) t).isSome → (source? (x.sees rows) t).isSome
  swept : ∀ t m r, master? (x.sees rows) t = some m → m.status = .active →
    source? (x.sees rows) t = some r → r.live = false →
    Statement.switchOffDeadMasters ∈ x.todo ∨ ∃ why, Statement.switchOffRow t why ∈ x.todo
  one : ∀ t r, x.own.reverse.lookup (.source t) = some (.source r) → r.status = .active →
    ∀ u v, source? (x.sees rows) u = some v → v.status = .active → u = t

variable {d : Record} {rows : Rows} {x : LifecycleTxn} {st : Statement} {rest : List Statement}
  {e : StatementEffect}

variable {t : Tour}

theorem secured_apply (h : Secured x t) : Secured (x.apply e rest) t := by
  obtain ⟨b, hb⟩ := h
  exact ⟨b, mem_append_right _ hb⟩

theorem securedAfter_apply (hexec : exec d (x.sees rows) x.data st = .ok e)
    (h : securedAfter (Secured x) (fun t => x.data.source.isSome → Secured x t) st t) : Secured (x.apply e rest) t := by
  cases st with
  | version u refuse =>
    rcases h with h | rfl
    · exact secured_apply h
    · simp only [exec] at hexec
      split at hexec
      · cases hexec
      · split at hexec
        · cases hexec
        · cases hexec
          exact ⟨true, mem_cons_self⟩
  | requireLive =>
    rcases h with h | h
    · exact secured_apply h
    · simp only [exec] at hexec
      split at hexec
      · next hlive =>
        apply secured_apply (h _)
        cases hs : x.data.source with
        | none => simp [hs] at hlive
        | some v => rfl
      · cases hexec
  | _ => exact secured_apply h

theorem exec_source (hexec : exec d rows x.data st = .ok e) (hst : ∀ t, st ≠ .lockedSourceState t) :
    e.data.source = x.data.source := by
  cases st <;> simp only [exec] at hexec <;> (repeat' split at hexec) <;> cases hexec <;>
    first
    | rfl
    | exact absurd rfl (hst _)

theorem sharedAfter_apply (hexec : exec d (x.sees rows) x.data st = .ok e)
    (h : sharedAfter (fun t => x.data.source.isSome → Secured x t) st t) :
    (x.apply e rest).data.source.isSome → Secured (x.apply e rest) t := by
  intro hsome
  by_cases hst : ∃ u, st = .lockedSourceState u
  · obtain ⟨u, rfl⟩ := hst
    have htu : t = u := h
    subst htu
    simp only [exec] at hexec
    split at hexec
    · cases hexec
      cases hsome
    · cases hexec
      exact ⟨false, mem_cons_self⟩
  · have hst' : ∀ u, st ≠ .lockedSourceState u := fun u hu => hst ⟨u, hu⟩
    have hsrc : (x.apply e rest).data.source = x.data.source := exec_source hexec hst'
    rw [hsrc] at hsome
    have hL : sharedAfter (fun t => x.data.source.isSome → Secured x t) st =
        fun t => x.data.source.isSome → Secured x t := by
      cases st with
      | lockedSourceState u => exact absurd rfl (hst' u)
      | _ => rfl
    rw [hL] at h
    exact secured_apply (h hsome)

theorem TxnInv.sound_apply (h : TxnInv rows x) (htodo : x.todo = st :: rest)
    (hexec : exec d (x.sees rows) x.data st = .ok e) : Sound (Secured (x.apply e rest))
      (fun t => (x.apply e rest).data.source.isSome → Secured (x.apply e rest) t) (e.more ++ rest) := by
  have hsound := h.sound
  rw [htodo] at hsound
  obtain ⟨hraises, hlate, hrest⟩ := hsound
  have hrest' : Sound (Secured (x.apply e rest))
      (fun t => (x.apply e rest).data.source.isSome → Secured (x.apply e rest) t) rest :=
    hrest.mono (fun _ => securedAfter_apply hexec) (fun _ => sharedAfter_apply hexec)
  refine hrest'.append e.more fun st' hst' => ?_
  rcases exec_more hexec hst' with ⟨rfl, t, rfl⟩ | ⟨keep, t, rfl, rfl⟩ | ⟨t, why, rfl, rfl⟩ |
    ⟨rfl, t, why, rfl⟩
  · exact ⟨nofun, fun _ => hlate rfl, rfl, rfl⟩
  · exact ⟨nofun, fun _ => hlate rfl, rfl, rfl⟩
  · exact ⟨fun u hu => secured_apply (hraises u hu), fun _ => hlate rfl, rfl, rfl⟩
  · exact ⟨nofun, nofun, rfl, rfl⟩

theorem otherActive_eq_false {rows : Rows} :
    otherActive rows t = false ↔ ∀ u v, source? rows u = some v → v.status = .active → u = t := by
  unfold otherActive
  rw [any_eq_false]
  constructor
  · intro h u v hv hact
    by_contra hne
    exact h (u, v) (mem_versions.2 hv) (by simp [hne, hact])
  · rintro h ⟨u, v⟩ hmem
    simp only [Bool.and_eq_true, decide_eq_true_eq, not_and]
    exact fun hne hact => hne (h u v (mem_versions.1 hmem) hact)

variable {r : Source}

theorem mem_deadMasters {m : Master} (hm : master? rows t = some m)
    (hact : m.status = .active) (hr : source? rows t = some r) (hdead : r.live = false) :
    ∃ why, (t, why) ∈ deadMasters rows := by
  unfold deadMasters
  refine ⟨if r.gone then .sourceDeleted else .superseded, ?_⟩
  rw [mem_filterMap]
  exact ⟨(t, r), mem_versions.2 hr, by simp [hm, hact, hdead]⟩

theorem source?_of_own (h : x.own.reverse.lookup (.source t) = some (.source r)) : source? (x.sees rows) t = some r := by
  rw [source?_eq_some, Txn.sees, get?_overlay, h, Option.some_or]

theorem source?_isSome_written {out : Outcome} (hexec : exec d rows out st = .ok e)
    (h : (source? rows t).isSome) : (source? (overlay rows e.writes) t).isSome := by
  rcases exec_writes hexec with hnil | ⟨k, r, hwrites, -, hwrote⟩
  · rw [hnil]
    exact h
  · rw [hwrites]
    show (source? (rows.upsert k r) t).isSome
    cases hwrote with
    | source u r => rw [source?_upsert]; split; rfl; exact h
    | activated u r => rw [source?_upsert]; split; rfl; exact h
    | master u m => rw [source?_upsert_master]; exact h
    | raised u m => rw [source?_upsert_master]; exact h

theorem source?_isSome_taken {b : Bool} {out : Outcome}
    (hexec : exec d rows out st = .ok e) (h : (RowId.source t, b) ∈ e.takes) :
    (source? (overlay rows e.writes) t).isSome := by
  cases st <;> simp only [exec] at hexec <;> (repeat' split at hexec) <;> cases hexec <;>
    simp [rewrite] at h
  all_goals
    simp [overlay, rewrite, *]

theorem TxnInv.there_apply (h : TxnInv rows x) (hexec : exec d (x.sees rows) x.data st = .ok e)
    (hsec : Secured (x.apply e rest) t) : (source? (overlay (x.sees rows) e.writes) t).isSome := by
  obtain ⟨b, hb⟩ := hsec
  rcases List.mem_append.1 hb with hb | hb
  · exact source?_isSome_taken hexec hb
  · exact source?_isSome_written hexec (h.there t ⟨b, hb⟩)

theorem TxnInv.based_apply (h : TxnInv rows x) (htodo : x.todo = st :: rest)
    (hexec : exec d (x.sees rows) x.data st = .ok e) (hm : (master? (overlay (x.sees rows) e.writes) t).isSome) :
    (source? (overlay (x.sees rows) e.writes) t).isSome := by
  apply source?_isSome_written hexec
  rcases exec_writes hexec with hnil | ⟨k, r, hwrites, -, hwrote⟩
  · rw [hnil] at hm
    exact h.based t hm
  · rw [hwrites] at hm
    have hm : (master? ((x.sees rows).upsert k r) t).isSome := hm
    cases hwrote with
    | source u r => exact h.based t (by simpa using hm)
    | activated u r => exact h.based t (by simpa using hm)
    | master u m hthere =>
      rw [master?_upsert] at hm
      split at hm
      · next htu => exact h.based t (htu ▸ hthere)
      · exact h.based t hm
    | raised u m hraises =>
      rw [master?_upsert] at hm
      split at hm
      · next htu =>
        have hsound := h.sound
        rw [htodo] at hsound
        exact h.there t (hsound.1 t (htu ▸ hraises))
      · exact h.based t hm

theorem TxnInv.swept_apply (h : TxnInv rows x) (htodo : x.todo = st :: rest)
    (hexec : exec d (x.sees rows) x.data st = .ok e) {m : Master}
    (hm : master? (overlay (x.sees rows) e.writes) t = some m) (hact : m.status = .active)
    (hr : source? (overlay (x.sees rows) e.writes) t = some r) (hdead : r.live = false) :
    Statement.switchOffDeadMasters ∈ e.more ++ rest ∨ ∃ why, Statement.switchOffRow t why ∈ e.more ++ rest := by
  have hsound := h.sound
  have hswept := h.swept t
  rw [htodo] at hsound hswept
  cases hlate : st.late with
  | false => exact Or.inl (mem_append_right _ (hsound.2.1 hlate))
  | true =>
    cases st with
    | switchOffDeadMasters =>
      cases hexec
      obtain ⟨why, hwhy⟩ := mem_deadMasters hm hact hr hdead
      exact Or.inr ⟨why, mem_append_left _ (List.mem_map.2 ⟨_, hwhy, rfl⟩)⟩
    | switchOffRow u why =>
      -- the Master of `u` is not active any more
      have hkeep : e.more = [] ∧ t ≠ u ∧ master? (x.sees rows) t = some m ∧
          source? (x.sees rows) t = some r := by
        simp only [exec] at hexec
        split at hexec
        · next hnone =>
          cases hexec
          refine ⟨rfl, ?_, hm, hr⟩
          rintro rfl
          rw [show master? (x.sees rows) t = some m from hm] at hnone
          cases hnone
        · next m' hm' =>
          split at hexec
          · cases hexec
            have hm : master? ((x.sees rows).upsert (.master u) (.master (m'.switchOff why))) t =
              some m := hm
            have hr : source? ((x.sees rows).upsert (.master u) (.master (m'.switchOff why))) t =
              some r := hr
            rw [master?_upsert] at hm
            rw [source?_upsert_master] at hr
            split at hm
            · cases hm
              cases hact
            · next htu => exact ⟨rfl, htu, hm, hr⟩
          · next hoff =>
            cases hexec
            refine ⟨rfl, ?_, hm, hr⟩
            rintro rfl
            rw [show master? (x.sees rows) t = some m from hm] at hm'
            cases hm'
            exact hoff hact
      obtain ⟨hmore, htu, hm, hr⟩ := hkeep
      rw [hmore, nil_append]
      rcases hswept m r hm hact hr hdead with hmem | ⟨why', hmem⟩
      · exact Or.inl ((List.mem_cons.1 hmem).resolve_left (by simp))
      · refine Or.inr ⟨why', (List.mem_cons.1 hmem).resolve_left ?_⟩
        intro heq
        exact htu (Statement.switchOffRow.inj heq).1
    | servedAfter =>
      cases hexec
      rcases hswept m r hm hact hr hdead with hmem | ⟨why', hmem⟩
      · exact Or.inl ((List.mem_cons.1 hmem).resolve_left (by simp))
      · exact Or.inr ⟨why', (List.mem_cons.1 hmem).resolve_left (by simp)⟩
    | keyTourIds =>
      cases hexec
      rcases hswept m r hm hact hr hdead with hmem | ⟨why', hmem⟩
      · exact Or.inl ((List.mem_cons.1 hmem).resolve_left (by simp))
      · exact Or.inr ⟨why', (List.mem_cons.1 hmem).resolve_left (by simp)⟩
    | notify =>
      cases hexec
      rcases hswept m r hm hact hr hdead with hmem | ⟨why', hmem⟩
      · exact Or.inl ((List.mem_cons.1 hmem).resolve_left (by simp))
      · exact Or.inr ⟨why', (List.mem_cons.1 hmem).resolve_left (by simp)⟩
    | _ => cases hlate

theorem TxnInv.one_apply (h : TxnInv rows x) (hexec : exec d (x.sees rows) x.data st = .ok e)
    (hown : (x.own ++ e.writes).reverse.lookup (.source t) = some (.source r))
    (hact : r.status = .active) {u : Tour} {v : Source}
    (hv : source? (overlay (x.sees rows) e.writes) u = some v) (hvact : v.status = .active) : u = t := by
  rcases exec_writes hexec with hnil | ⟨k, row, hwrites, -, hwrote⟩
  · rw [hnil, append_nil] at hown
    rw [hnil] at hv
    exact h.one t r hown hact u v hv hvact
  · rw [hwrites] at hv hown
    have hv : source? ((x.sees rows).upsert k row) u = some v := hv
    rw [reverse_append, reverse_singleton, singleton_append, lookup_cons] at hown
    cases hwrote with
    | source w r' hoff =>
      rw [source?_upsert] at hv
      split at hv
      · cases hv
        exact absurd hvact hoff
      · split at hown
        · cases hown
          exact absurd hact hoff
        · exact h.one t r hown hact u v hv hvact
    | activated w r' hother =>
      rw [otherActive_eq_false] at hother
      have hut : u = w := by
        rw [source?_upsert] at hv
        split at hv
        · assumption
        · exact hother u v hv hvact
      have htw : t = w := by
        split at hown
        · next heq => simpa using heq
        · exact hother t r (source?_of_own hown) hact
      rw [hut, htw]
    | master w m =>
      rw [source?_upsert_master] at hv
      exact h.one t r hown hact u v hv hvact
    | raised w m =>
      rw [source?_upsert_master] at hv
      exact h.one t r hown hact u v hv hvact

theorem TxnInv.apply (h : TxnInv rows x) (htodo : x.todo = st :: rest)
    (hexec : exec d (x.sees rows) x.data st = .ok e) : TxnInv rows (x.apply e rest) where
  sound := h.sound_apply htodo hexec
  raised := by
    intro t m hown hact
    rcases List.mem_append.1 hown with hown | hown
    · exact secured_apply (h.raised t m hown hact)
    · rcases exec_writes hexec with hnil | ⟨k, r, hwrites, -, hwrote⟩
      · rw [hnil] at hown
        cases hown
      · rw [hwrites, mem_singleton] at hown
        cases hown
        cases hwrote with
        | master _ _ _ hoff => exact absurd hact hoff
        | raised _ _ hraises =>
          have hsound := h.sound
          rw [htodo] at hsound
          exact secured_apply (hsound.1 t hraises)
  typed := by
    intro w hown
    rcases List.mem_append.1 hown with hown | hown
    · exact h.typed w hown
    · rcases exec_writes hexec with hnil | ⟨k, r, hwrites, -, hwrote⟩
      · rw [hnil] at hown
        cases hown
      · rw [hwrites, mem_singleton] at hown
        subst hown
        cases hwrote with
        | source t r => exact Or.inl ⟨t, r, rfl⟩
        | activated t r => exact Or.inl ⟨t, r, rfl⟩
        | master t m => exact Or.inr ⟨t, m, rfl⟩
        | raised t m => exact Or.inr ⟨t, m, rfl⟩
  there := by
    intro t hsec
    rw [sees_apply]
    exact h.there_apply hexec hsec
  based := by
    intro t hm
    rw [sees_apply] at hm ⊢
    exact h.based_apply htodo hexec hm
  swept := by
    intro t m r hm hact hr hdead
    rw [sees_apply] at hm hr
    exact h.swept_apply htodo hexec hm hact hr hdead
  one := by
    intro t r hown hact u v hv hvact
    rw [sees_apply] at hv
    exact h.one_apply hexec hown hact hv hvact

/-! ## The key -/

/-- Between actions: active Masters over live versions only, and one active version. -/
structure KeyInv (rows : Rows) : Prop where
  based : ∀ t, (master? rows t).isSome → (source? rows t).isSome
  alive : ∀ t m, master? rows t = some m → m.status = .active →
    ∃ r, source? rows t = some r ∧ r.live = true
  one : OneActive rows

structure AliveInv (s : Sys) : Prop where
  locks : LockInv s
  key : KeyInv s.rows
  apart : ∀ i j x y, i ≠ j → s.txns.get? i = some x → s.txns.get? j = some y →
    ∀ t r u v, (RowId.source t, Row.source r) ∈ x.own → r.status = .active →
      (RowId.source u, Row.source v) ∈ y.own → v.status ≠ .active
  txns : ∀ i x, s.txns.get? i = some x → TxnInv s.rows x

variable {s : Sys}

theorem not_active_of_free {i j : Nat} {y : LifecycleTxn}
    (hlocks : LockInv s) (hfree : lifecycle.blocked s i st = false) (hij : i ≠ j)
    (hy : s.txns.get? j = some y) (hneeds : (RowId.source t, true) ∈ needs st)
    (hwaits : ∀ rows w, waits rows st w = contends rows t w) {u : Tour} {v : Source}
    (hv : (RowId.source u, Row.source v) ∈ y.own) : v.status ≠ .active := by
  intro hact
  have hut : u ≠ t := by
    rintro rfl
    have hclash := not_clash_of_free lifecycle hfree hij hy _ hneeds _ (hlocks.own j y hy _ hv)
    unfold clash at hclash
    simp at hclash
  unfold Service.blocked at hfree
  rw [any_eq_false] at hfree
  have hone := hfree (j, y) ((Table.get?_eq_some_iff _ _ _).1 hy)
  rw [Bool.and_eq_true, not_and, decide_eq_true_eq, Bool.or_eq_true, not_or] at hone
  apply (hone (Ne.symm hij)).2
  rw [any_eq_true]
  refine ⟨_, hv, ?_⟩
  show waits s.rows st _ = true
  rw [hwaits]
  unfold contends
  simp [hut, hact]

theorem AliveInv.apart_step (h : AliveInv s) (l : Label Request) {i j : Nat} {x y : LifecycleTxn}
    (hij : i ≠ j) (hx : (step s l).txns.get? i = some x) (hy : (step s l).txns.get? j = some y)
    {u : Tour} {v : Source} (hr : (RowId.source t, Row.source r) ∈ x.own)
    (hact : r.status = .active) (hv : (RowId.source u, Row.source v) ∈ y.own) : v.status ≠ .active := by
  -- the one that moved has an old active version, or a new one that nobody contended with
  have hmoved : ∀ i j x y, i ≠ j → (step s l).txns.get? i = some x → s.txns.get? j = some y →
      ∀ t r u v, (RowId.source t, Row.source r) ∈ x.own → r.status = .active →
        (RowId.source u, Row.source v) ∈ y.own → v.status ≠ .active := by
    intro i j x y hij hx hy t r u v hr hact hv
    rcases txns_cases lifecycle hx with hx | ⟨a, -, -, rfl⟩ |
      ⟨x₀, st, rest, e, -, hx₀, -, hfree, hexec, rfl⟩
    · exact h.apart i j x y hij hx hy t r u v hr hact hv
    · cases hr
    · rcases List.mem_append.1 hr with hr | hr
      · exact h.apart i j x₀ y hij hx₀ hy t r u v hr hact hv
      · rcases exec_writes hexec with hnil | ⟨k, row, hwrites, htakes, hwrote⟩
        · rw [hnil] at hr
          cases hr
        · rw [hwrites, mem_singleton] at hr
          cases hr
          have hneeds := exec_takes hexec (.source t, true) (by rw [htakes]; exact List.mem_singleton.2 rfl)
          cases hwrote with
          | source _ _ hoff => exact absurd hact hoff
          | activated _ _ _ hwaits =>
            exact not_active_of_free h.locks hfree hij hy hneeds hwaits hv
  rcases txns_cases lifecycle hy with hy' | ⟨a, -, -, rfl⟩ |
    ⟨y₀, st, rest, e, rfl, hy₀, -, -, -, -⟩
  · exact hmoved i j x y hij hx hy' t r u v hr hact hv
  · cases hv
  · -- the other one moved, so this one did not
    have hx' : s.txns.get? i = some x := by
      rcases txns_cases lifecycle hx with hx | ⟨a, ha, -, -⟩ | ⟨x₀, st', rest', e', ha, -⟩
      · exact hx
      · cases ha
      · exact absurd (Label.advance.inj ha).symm hij
    intro hvact
    exact hmoved j i y x (Ne.symm hij) hy hx' u v t r hv hvact hr hact

theorem TxnInv.source?_cases (h : TxnInv rows x) (t : Tour) :
    (∃ r, x.own.reverse.lookup (.source t) = some (.source r) ∧ ∀ rows, source? (x.sees rows) t = some r) ∨
    (∀ v, (RowId.source t, v) ∉ x.own) ∧ ∀ rows, source? (x.sees rows) t = source? rows t := by
  by_cases hown : ∃ v, (RowId.source t, v) ∈ x.own
  · left
    obtain ⟨v, hv⟩ := hown
    cases hlook : x.own.reverse.lookup (.source t) with
    | none =>
      rw [lookup_eq_none_iff] at hlook
      exact absurd (hlook _ (List.mem_reverse.2 hv)) (by simp)
    | some row =>
      rcases h.typed _ (mem_of_lookup_reverse hlook) with ⟨u, r, heq⟩ | ⟨u, m, heq⟩
      · cases heq
        exact ⟨r, rfl, fun rows => source?_of_own hlook⟩
      · cases heq
  · right
    have hnone : ∀ v, (RowId.source t, v) ∉ x.own := fun v hv => hown ⟨v, hv⟩
    refine ⟨hnone, fun rows => ?_⟩
    unfold source?
    rw [Txn.sees, get?_overlay, lookup_reverse_eq_none hnone, Option.none_or]

theorem TxnInv.master?_cases (h : TxnInv rows x) (t : Tour) :
    (∃ m, (RowId.master t, Row.master m) ∈ x.own ∧ ∀ rows, master? (x.sees rows) t = some m) ∨
    (∀ v, (RowId.master t, v) ∉ x.own) ∧ ∀ rows, master? (x.sees rows) t = master? rows t := by
  by_cases hown : ∃ v, (RowId.master t, v) ∈ x.own
  · left
    obtain ⟨v, hv⟩ := hown
    cases hlook : x.own.reverse.lookup (.master t) with
    | none =>
      rw [lookup_eq_none_iff] at hlook
      exact absurd (hlook _ (List.mem_reverse.2 hv)) (by simp)
    | some row =>
      rcases h.typed _ (mem_of_lookup_reverse hlook) with ⟨u, r, heq⟩ | ⟨u, m, heq⟩
      · cases heq
      · cases heq
        refine ⟨m, mem_of_lookup_reverse hlook, fun rows => ?_⟩
        rw [master?_eq_some, Txn.sees, get?_overlay, hlook, Option.some_or]
  · right
    have hnone : ∀ v, (RowId.master t, v) ∉ x.own := fun v hv => hown ⟨v, hv⟩
    refine ⟨hnone, fun rows => ?_⟩
    unfold master?
    rw [Txn.sees, get?_overlay, lookup_reverse_eq_none hnone, Option.none_or]

theorem KeyInv.commit (h : KeyInv rows) (hx : TxnInv rows x) (hdone : x.todo = []) : KeyInv (x.sees rows) := by
  refine ⟨hx.based, ?_, ?_⟩
  · intro t m hm hact
    obtain ⟨r, hr⟩ := Option.isSome_iff_exists.1 (hx.based t (by rw [hm]; rfl))
    refine ⟨r, hr, ?_⟩
    by_contra hdead
    have hleft := hx.swept t m r hm hact hr (by simpa using hdead)
    rw [hdone] at hleft
    simp at hleft
  · intro t u r v hr hv hract hvact
    rcases hx.source?_cases t with ⟨r', hown, hr'⟩ | ⟨-, hr'⟩
    · rw [hr' rows] at hr
      cases hr
      exact (hx.one t r hown hract u v hv hvact).symm
    · rcases hx.source?_cases u with ⟨v', hown, hv'⟩ | ⟨-, hv'⟩
      · rw [hv' rows] at hv
        cases hv
        exact hx.one u v hown hvact t r hr hract
      · rw [hr'] at hr
        rw [hv'] at hv
        exact h.one t u r v hr hv hract hvact

theorem AliveInv.txn_commit (h : AliveInv s) {i j : Nat} {x y : LifecycleTxn} (hij : i ≠ j)
    (hx : s.txns.get? i = some x) (hy : s.txns.get? j = some y) (hdone : y.todo = []) : TxnInv (y.sees s.rows) x := by
  have hxinv := h.txns i x hx
  have hyinv := h.txns j y hy
  obtain ⟨hbased, halive, -⟩ := h.key.commit hyinv hdone
  -- a source that `x` has locked is not one that `y` wrote
  have hheld : ∀ t, Secured x t →
      source? (x.sees (y.sees s.rows)) t = source? (x.sees s.rows) t := by
    rintro t ⟨b, hb⟩
    rcases hxinv.source?_cases t with ⟨r, -, hr⟩ | ⟨-, hr⟩
    · rw [hr, hr]
    · rw [hr, hr]
      rcases hyinv.source?_cases t with ⟨v, hown, -⟩ | ⟨-, hv⟩
      · exact absurd (mem_of_lookup_reverse hown) (h.locks.not_own hij hx hy hb _)
      · exact hv s.rows
  have hpersist : ∀ t, (source? (x.sees s.rows) t).isSome →
      (source? (x.sees (y.sees s.rows)) t).isSome := by
    intro t ht
    rcases hxinv.source?_cases t with ⟨r, -, hr⟩ | ⟨-, hr⟩
    · rw [hr]
      rfl
    · rw [hr] at ht ⊢
      rcases hyinv.source?_cases t with ⟨v, -, hv⟩ | ⟨-, hv⟩
      · rw [hv]
        rfl
      · rw [hv]
        exact ht
  refine ⟨hxinv.sound, hxinv.raised, hxinv.typed, ?_, ?_, ?_, ?_⟩
  · intro t hsec
    exact hpersist t (hxinv.there t hsec)
  · intro t hm
    rcases hxinv.master?_cases t with ⟨m, -, hm'⟩ | ⟨-, hm'⟩
    · exact hpersist t (hxinv.based t (by rw [hm']; rfl))
    · rw [hm'] at hm
      have hsrc := hbased t hm
      rcases hxinv.source?_cases t with ⟨r, -, hr⟩ | ⟨-, hr⟩
      · rw [hr]
        rfl
      · rw [hr]
        exact hsrc
  · intro t m r hm hact hr hdead
    rcases hxinv.master?_cases t with ⟨m', hown, hm'⟩ | ⟨-, hm'⟩
    · -- `x` made the Master active, so it has the source locked
      rw [hm'] at hm
      cases hm
      rw [hheld t (hxinv.raised t m hown hact)] at hr
      exact hxinv.swept t m r (hm' s.rows) hact hr hdead
    · -- the committed source is live, so it is `x` that killed it
      rw [hm'] at hm
      obtain ⟨v, hv, hlive⟩ := halive t m hm hact
      rcases hxinv.source?_cases t with ⟨r', hown, hr'⟩ | ⟨-, hr'⟩
      · rw [hr'] at hr
        cases hr
        have hlock := h.locks.own i x hx _ (mem_of_lookup_reverse hown)
        rcases hyinv.master?_cases t with ⟨m'', hown', hm''⟩ | ⟨-, hm''⟩
        · rw [hm''] at hm
          cases hm
          obtain ⟨b, hb⟩ := hyinv.raised t m hown' hact
          have hclash := h.locks.apart i j x y hij hx hy _ hlock _ hb
          unfold clash at hclash
          simp at hclash
        · rw [hm''] at hm
          exact hxinv.swept t m r ((hm' s.rows).trans hm) hact (hr' s.rows) hdead
      · rw [hr', hv] at hr
        cases hr
        rw [hlive] at hdead
        cases hdead
  · intro t r hown hact u v hv hvact
    rcases hxinv.source?_cases u with ⟨v', -, hv'⟩ | ⟨-, hv'⟩
    · rw [hv'] at hv
      cases hv
      exact hxinv.one t r hown hact u v (hv' s.rows) hvact
    · rw [hv'] at hv
      rcases hyinv.source?_cases u with ⟨v'', hown', hv''⟩ | ⟨-, hv''⟩
      · rw [hv''] at hv
        cases hv
        exact absurd hvact (h.apart i j x y hij hx hy t r u v (mem_of_lookup_reverse hown) hact
          (mem_of_lookup_reverse hown'))
      · rw [hv''] at hv
        exact hxinv.one t r hown hact u v ((hv' s.rows).trans hv) hvact

theorem KeyInv.txn_first (h : KeyInv rows) (req : Request) (start : Nat) :
    TxnInv rows (lifecycle.first req start) where
  sound := program_sound req.action _ _
  raised := fun _ _ hown => absurd hown List.not_mem_nil
  typed := fun _ hown => absurd hown List.not_mem_nil
  there := by
    rintro t ⟨b, hb⟩
    cases hb
  based := h.based
  swept := by
    intro t m r hm hact hr hdead
    obtain ⟨r', hr', hlive⟩ := h.alive t m hm hact
    rw [show source? rows t = some r from hr] at hr'
    cases hr'
    rw [hlive] at hdead
    cases hdead
  one := by
    intro t r hown
    cases hown

theorem AliveInv.step (h : AliveInv s) (l : Label Request) : AliveInv (step s l) := by
  rcases commit_cases lifecycle s l with ⟨hrows, -⟩ | ⟨j, y, rfl, hy, hdone, hrows, -, -, hend⟩
  · refine ⟨h.locks.step lifecycle_lawful l, ?_, fun i j x y hij hx hy t r u v =>
      h.apart_step l hij hx hy, fun i x hx => ?_⟩
    · rw [hrows]
      exact h.key
    · rw [hrows]
      rcases txns_cases lifecycle hx with hx | ⟨a, -, -, rfl⟩ |
        ⟨x₀, st, rest, e, -, hx₀, htodo, -, hexec, rfl⟩
      · exact h.txns i x hx
      · exact h.key.txn_first a s.clock
      · exact (h.txns i x₀ hx₀).apply htodo hexec
  · refine ⟨h.locks.step lifecycle_lawful _, ?_, fun i j x y hij hx hy t r u v =>
      h.apart_step _ hij hx hy, fun i x hx => ?_⟩
    · rw [hrows]
      exact h.key.commit (h.txns j y hy) hdone
    · have hij : i ≠ j := by
        rintro rfl
        rw [hx] at hend
        cases hend
      rw [hrows]
      rcases txns_cases lifecycle hx with hx | ⟨a, hc, -⟩ | ⟨x₀, st, rest, e, hc, -⟩
      · exact h.txn_commit hij hx hy hdone
      · cases hc
      · cases hc

theorem NeverServed.keyInv {rows : Rows} (h : NeverServed rows) : KeyInv rows where
  based := by
    intro t hm
    rw [h.noMaster t] at hm
    cases hm
  alive := by
    intro t m hm
    rw [h.noMaster t] at hm
    cases hm
  one := h.one

theorem aliveInv_init {rows : Rows} (h : NeverServed rows) (d : Record) : AliveInv (Sys.init rows d) where
  locks := lockInv_init rows d
  key := h.keyInv
  apart := by
    intro i j x y _ hx
    cases hx
  txns := by
    intro i x hx
    cases hx

/-- **Never an active Master over a dead source**, and never two. -/
theorem masters_alive (rows : Rows) (d : Record) (h : NeverServed rows) (ls : List (Label Request)) :
    (∀ t m, master? (run step (Sys.init rows d) ls).rows t = some m → m.status = .active →
      ∃ r, source? (run step (Sys.init rows d) ls).rows t = some r ∧ r.status = .active ∧ r.deleted = false) ∧
    ∀ t u m n, master? (run step (Sys.init rows d) ls).rows t = some m →
      master? (run step (Sys.init rows d) ls).rows u = some n → m.status = .active → n.status = .active → t = u := by
  have hinv : AliveInv (run step (Sys.init rows d) ls) :=
    run_of_step (I := AliveInv) (fun _ l hs => hs.step l) ls (aliveInv_init h d)
  have halive : ∀ t m, master? (run step (Sys.init rows d) ls).rows t = some m →
      m.status = .active → ∃ r, source? (run step (Sys.init rows d) ls).rows t = some r ∧
        r.status = .active ∧ r.deleted = false := by
    intro t m hm hact
    obtain ⟨r, hr, hlive⟩ := hinv.key.alive t m hm hact
    unfold Source.live at hlive
    rw [Bool.and_eq_true, decide_eq_true_eq, Bool.not_eq_true'] at hlive
    exact ⟨r, hr, hlive⟩
  refine ⟨halive, ?_⟩
  intro t u m n hm hn hmact hnact
  obtain ⟨r, hr, hract, -⟩ := halive t m hm hmact
  obtain ⟨v, hv, hvact, -⟩ := halive u n hn hnact
  exact hinv.key.one t u r v hr hv hract hvact

def quiet (a : Action) : Request := ⟨a, [], List.nodup_nil⟩

/-- Version 1 is published while it is being retired: the retirement waits for the publication,
and the sweep switches the new Master off. -/
def publishRetire : List (Label Request) :=
  [Label.start 0 (quiet (.publish 1)), Label.advance 0, Label.start 1 (quiet (.retireSource 1)), Label.advance 1] ++
    List.replicate 7 (Label.advance 0) ++ [Label.commit 0] ++ List.replicate 8 (Label.advance 1)

set_option maxRecDepth 100000 in
theorem masters_alive_publish :
    (master? (run step (Sys.init (ingested 1) ⟨[], []⟩) publishRetire).rows 1).map Master.status = some .active ∧
    (∃ r, source? (run step (Sys.init (ingested 1) ⟨[], []⟩) publishRetire).rows 1 = some r ∧
      r.status = .active ∧ r.deleted = false) ∧
    (master? (run step (Sys.init (ingested 1) ⟨[], []⟩) (publishRetire ++ [.commit 1])).rows 1).map
      Master.status = some .inactive := by
  have hm : master? (run step (Sys.init (ingested 1) ⟨[], []⟩) publishRetire).rows 1 =
      some ⟨.active, none, false⟩ := by decide +kernel
  refine ⟨by rw [hm]; rfl, ?_, by decide +kernel⟩
  exact (masters_alive (ingested 1) ⟨[], []⟩ (neverServed_ingested 1) publishRetire).1 1 _ hm rfl

end CisApp.Lifecycle
