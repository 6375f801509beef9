import CisApp.Lib.Table

/-! `shared.tenant_entitlement_sync` (migration 353): the rows of `shared.tenant_entitlement` of one tenant are
brought to those the resolver gives, and each key that differs gets one `entitlement.changed` event.

`diff` is the query of the loop and `applyRow` the write of one turn; `get?_sync` says what is there after the
loop. -/

namespace CisApp.Entitlements

open List

inductive Product where
  | content
  | crm
  | tripplanner
  | platform
deriving Repr, DecidableEq

inductive ValueKind where
  | flag
  | limit
  | seats
  | policy
deriving Repr, DecidableEq

inductive Source where
  | plan
  | trial
  | override
deriving Repr, DecidableEq

/-- A row of `shared.tenant_entitlement`, or of the resolver; limits count hundredths. -/
structure Row where
  product : Product
  valueKind : ValueKind
  unit : Option String
  limitValue : Option Int
  source : Source
  planKey : Option String
  expiresAt : Option Nat
deriving Repr, DecidableEq

abbrev Granted := Table (Nat × String) Row

inductive Op where
  | added
  | updated
  | removed
deriving Repr, DecidableEq

/-- The body of an `entitlement.changed` event. -/
structure Change where
  op : Op
  featureKey : String
  product : Product
  limit : Option Int
  source : Option Source
  expiresAt : Option Nat
deriving Repr, DecidableEq

/-- The columns that `IS DISTINCT FROM` compares; the product is not one of them. -/
def Row.differs (w h : Row) : Bool :=
  w.limitValue ≠ h.limitValue || w.source ≠ h.source || w.planKey ≠ h.planKey || w.expiresAt ≠ h.expiresAt ||
    w.valueKind ≠ h.valueKind || w.unit ≠ h.unit

/-- One turn of the loop: the row of the key from then on, and the event. -/
structure Turn where
  key : String
  row : Option Row
  change : Change
deriving Repr, DecidableEq

/-- The row of the query for a key: the resolver gives `want`, the table has `stored`. -/
def turn (key : String) (want stored : Option Row) : Option Turn :=
  match want, stored with
  | none, none => none
  | none, some h => some ⟨key, none, ⟨.removed, key, h.product, none, none, none⟩⟩
  | some w, none => some ⟨key, some w, ⟨.added, key, w.product, w.limitValue, some w.source, w.expiresAt⟩⟩
  | some w, some h =>
    if w.differs h then
      some ⟨key, some w, ⟨.updated, key, w.product, w.limitValue, some w.source, w.expiresAt⟩⟩
    else none

/-- The keys of the `FULL JOIN`. -/
def joinKeys (tenant : Nat) (want : Table String Row) (rows : Granted) : List String :=
  (want.rows.map Prod.fst ++ (rows.matching fun k _ => k.1 = tenant).map Prod.snd).dedup.mergeSort fun a b => a ≤ b

/-- The query of the loop, run once before it. -/
def diff (tenant : Nat) (want : Table String Row) (rows : Granted) : List Turn :=
  (joinKeys tenant want rows).filterMap fun key => turn key (want.get? key) (rows.get? (tenant, key))

def applyRow (tenant : Nat) (rows : Granted) (key : String) : Option Row → Granted
  | some w => rows.upsert (tenant, key) w
  | none => rows.delete fun k _ => k = (tenant, key)

/-- The table after the loop. -/
def sync (tenant : Nat) (want : Table String Row) (rows : Granted) : Granted :=
  (diff tenant want rows).foldl (fun rows x => applyRow tenant rows x.key x.row) rows

theorem get?_delete_key {κ ρ : Type} [DecidableEq κ] (t : Table κ ρ) (k k' : κ) :
    (t.delete fun k' _ => k' = k).get? k' = if k' = k then none else t.get? k' := by
  rw [Table.get?_delete]
  by_cases hk : k' = k
  · simp [hk]
  · rw [if_neg hk]
    cases t.get? k' with
    | none => rfl
    | some r => exact Option.filter_some_pos (by simp [hk])

variable (tenant : Nat)

theorem get?_applyRow (rows : Granted) (key : String) (row : Option Row) (k : Nat × String) :
    (applyRow tenant rows key row).get? k = if k = (tenant, key) then row else rows.get? k := by
  cases row with
  | some w =>
    unfold applyRow
    rw [Table.get?_upsert]
  | none =>
    exact get?_delete_key rows (tenant, key) k

theorem mem_joinKeys {tenant : Nat} {want : Table String Row} {rows : Granted} {key : String} :
    key ∈ joinKeys tenant want rows ↔ want.get? key ≠ none ∨ rows.get? (tenant, key) ≠ none := by
  unfold joinKeys
  rw [mem_mergeSort, mem_dedup, mem_append, ne_eq, Table.get?_eq_none_iff, not_not]
  refine or_congr Iff.rfl ?_
  rw [mem_map]
  constructor
  · rintro ⟨k, hk, rfl⟩
    obtain ⟨row, hrow, htenant⟩ := (Table.mem_matching rows _ k).1 hk
    have hk : k = (tenant, k.2) := Prod.ext (by simpa using htenant) rfl
    rw [← hk, hrow]
    exact Option.some_ne_none row
  · intro hne
    obtain ⟨row, hrow⟩ := Option.ne_none_iff_exists'.1 hne
    exact ⟨(tenant, key), (Table.mem_matching rows _ _).2 ⟨row, hrow, by simp⟩, rfl⟩

theorem joinKeys_nodup (want : Table String Row) (rows : Granted) : (joinKeys tenant want rows).Nodup :=
  (mergeSort_perm _ _).nodup_iff.2 (nodup_dedup _)

theorem turn_key {key : String} {want stored : Option Row} {x : Turn} (h : turn key want stored = some x) :
    x.key = key ∧ x.change.featureKey = key := by
  unfold turn at h
  split at h
  · cases h
  · cases h
    exact ⟨rfl, rfl⟩
  · cases h
    exact ⟨rfl, rfl⟩
  · split at h
    · cases h
      exact ⟨rfl, rfl⟩
    · cases h

theorem foldl_applyRow_of_not {tenant : Nat} {turns : List Turn} {k : Nat × String}
    (h : ∀ x ∈ turns, k ≠ (tenant, x.key)) (rows : Granted) :
    (turns.foldl (fun rows x => applyRow tenant rows x.key x.row) rows).get? k = rows.get? k := by
  induction turns generalizing rows with
  | nil => rfl
  | cons x turns ih =>
    rw [foldl_cons, ih fun y hy => h y (mem_cons_of_mem _ hy), get?_applyRow, if_neg (h x mem_cons_self)]

theorem foldl_applyRow_of_mem {turns : List Turn} (hnd : (turns.map Turn.key).Nodup) {x : Turn}
    (hx : x ∈ turns) (rows : Granted) :
    (turns.foldl (fun rows x => applyRow tenant rows x.key x.row) rows).get? (tenant, x.key) = x.row := by
  induction turns generalizing rows with
  | nil => cases hx
  | cons y turns ih =>
    rw [map_cons, nodup_cons] at hnd
    rw [foldl_cons]
    rcases mem_cons.1 hx with rfl | hx
    · rw [foldl_applyRow_of_not, get?_applyRow, if_pos rfl]
      intro z hz heq
      exact hnd.1 (mem_map.2 ⟨z, hz, (congrArg Prod.snd heq).symm⟩)
    · exact ih hnd.2 hx _

theorem diff_keys_nodup (want : Table String Row) (rows : Granted) : ((diff tenant want rows).map Turn.key).Nodup := by
  have hsub : ((diff tenant want rows).map Turn.key).Sublist (joinKeys tenant want rows) := by
    unfold diff
    generalize joinKeys tenant want rows = keys
    induction keys with
    | nil => exact List.Sublist.refl _
    | cons key keys ih =>
      rw [filterMap_cons]
      split
      · exact ih.cons key
      · next x hx =>
        rw [map_cons, (turn_key hx).1]
        exact ih.cons_cons key
  exact (joinKeys_nodup tenant want rows).sublist hsub

theorem mem_diff {tenant : Nat} {want : Table String Row} {rows : Granted} {x : Turn} :
    x ∈ diff tenant want rows ↔ turn x.key (want.get? x.key) (rows.get? (tenant, x.key)) = some x := by
  unfold diff
  rw [mem_filterMap]
  constructor
  · rintro ⟨key, -, hx⟩
    obtain ⟨hkey, -⟩ := turn_key hx
    rw [hkey]
    exact hx
  · intro hx
    refine ⟨x.key, mem_joinKeys.2 ?_, hx⟩
    by_contra hnone
    rw [not_or, not_not, not_not] at hnone
    rw [hnone.1, hnone.2] at hx
    cases hx

/-- What the table has for a key after the loop: what the resolver gives, unless it differs in no compared
column. -/
def settled : Option Row → Option Row → Option Row
  | some w, some h => if w.differs h then some w else some h
  | want, _ => want

theorem get?_sync (want : Table String Row) (rows : Granted) (key : String) :
    (sync tenant want rows).get? (tenant, key) = settled (want.get? key) (rows.get? (tenant, key)) := by
  unfold sync
  cases hturn : turn key (want.get? key) (rows.get? (tenant, key)) with
  | none =>
    have hnot : ∀ x ∈ diff tenant want rows, (tenant, key) ≠ (tenant, x.key) := by
      intro x hx heq
      have hkey : key = x.key := congrArg Prod.snd heq
      have := mem_diff.1 hx
      rw [← hkey, hturn] at this
      cases this
    rw [foldl_applyRow_of_not hnot]
    unfold turn at hturn
    split at hturn
    · next hw hh =>
      rw [hw, hh]
      rfl
    · cases hturn
    · cases hturn
    · next w h hw hh =>
      rw [hw, hh]
      split at hturn
      · cases hturn
      · next hsame =>
        show some h = if w.differs h then some w else some h
        rw [if_neg hsame]
  | some x =>
    obtain ⟨hkey, -⟩ := turn_key hturn
    have hmem : x ∈ diff tenant want rows := by
      rw [mem_diff, hkey]
      exact hturn
    have hrow := foldl_applyRow_of_mem tenant (diff_keys_nodup tenant want rows) hmem rows
    rw [hkey] at hrow
    rw [hrow]
    unfold turn at hturn
    split at hturn
    · cases hturn
    · next hw hh =>
      cases hturn
      rw [hw, hh]
      rfl
    · next hw hh =>
      cases hturn
      rw [hw, hh]
      rfl
    · next w h hw hh =>
      rw [hw, hh]
      split at hturn
      · next hdiff =>
        cases hturn
        show some w = if w.differs h then some w else some h
        rw [if_pos hdiff]
      · cases hturn

theorem get?_sync_of_ne (want : Table String Row) (rows : Granted) {k : Nat × String}
    (hk : k.1 ≠ tenant) : (sync tenant want rows).get? k = rows.get? k :=
  foldl_applyRow_of_not (fun _ _ heq => hk (congrArg Prod.fst heq)) rows

end CisApp.Entitlements
