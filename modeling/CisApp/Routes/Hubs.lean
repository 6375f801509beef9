import CisApp.Routes.Versions

/-!
# Which hub a family gets

A family is resolved in one of three ways: to the hub that its tours' current Routes
overlap most, to the oldest hub of its name that no earlier family has, or to a new
one.  Only the second way looks at the families before it, so the first can give a hub
away twice: `Db.parted` says of the hubs and current rows before a run that it does
not, and `one_hub_each_iff` that then, and only then, the families get different hubs.
-/

namespace CisApp.Routes

open Lib List

section hubs

variable {W : Mint} {db : Db}

theorem mem_toursIn {hub t : String} :
    t ∈ db.toursIn hub ↔ ∃ id row, db.Current id row ∧ row.hubId = some hub ∧ row.identity.tourId = t := by
  unfold Db.toursIn
  rw [mem_toFinset, mem_map]
  constructor
  · rintro ⟨⟨id, row⟩, hin, rfl⟩
    obtain ⟨hin, hhub⟩ := mem_filter.1 hin
    exact ⟨id, row, mem_current.1 hin, of_decide_eq_true hhub, rfl⟩
  · rintro ⟨id, row, hin, hhub, rfl⟩
    exact ⟨(id, row), mem_filter.2 ⟨mem_current.2 hin, decide_eq_true hhub⟩, rfl⟩

theorem mem_oldHubs {h : String} {tours : Finset String} :
    (h, tours) ∈ db.oldHubs ↔ (∃ hub, db.hubs.get? h = some hub) ∧ tours = db.toursIn h ∧ 0 < tours.card := by
  unfold Db.oldHubs
  rw [mem_filter, mem_map]
  constructor
  · rintro ⟨⟨e, hin, heq⟩, hcard⟩
    obtain ⟨rfl, rfl⟩ := Prod.mk.inj heq
    exact ⟨⟨e.2, (Table.get?_eq_some_iff _ _ _).2 hin⟩, rfl, of_decide_eq_true hcard⟩
  · rintro ⟨⟨hub, hget⟩, rfl, hcard⟩
    exact ⟨⟨(h, hub), (Table.get?_eq_some_iff _ _ _).1 hget, rfl⟩, decide_eq_true hcard⟩

theorem mem_of_bestHubMatch {members : Finset String} {old : List (String × Finset String)} {h : String}
    (hbest : (bestHubMatch members old).hub = some h) : ∃ tours, (h, tours) ∈ old := by
  unfold bestHubMatch at hbest
  induction old using List.reverseRecOn with
  | nil => cases hbest
  | append_singleton old e ih =>
    have hin : (h, e.2) ∈ old ++ [e] ∨ ∃ tours, (h, tours) ∈ old := by
      rw [foldl_concat] at hbest
      dsimp only at hbest
      split at hbest
      · exact Or.inr (ih hbest)
      · split at hbest
        · left
          rw [← Option.some.inj hbest]
          exact mem_append_right _ mem_cons_self
        · exact Or.inr (ih hbest)
    rcases hin with hin | ⟨tours, hin⟩
    · exact ⟨_, hin⟩
    · exact ⟨tours, mem_append_left _ hin⟩

theorem overlapHub_stored {f : Family} {h : String} (hover : db.overlapHub f = some h) :
    ∃ hub, db.hubs.get? h = some hub := by
  obtain ⟨tours, hin⟩ := mem_of_bestHubMatch (Option.filter_eq_some_iff.1 hover).1
  exact (mem_oldHubs.1 hin).1

theorem namedHub_eq_some {hubs : Table String Hub} {name h : String} {taken : List String}
    (hnamed : namedHub hubs name taken = some h) : ∃ hub, hubs.get? h = some hub ∧ hub.name = name ∧ h ∉ taken := by
  obtain ⟨⟨k, hub⟩, hfirst, rfl⟩ := Option.map_eq_some_iff.1 hnamed
  obtain ⟨hin, hp⟩ := mem_filter.1 (Table.mem_of_firstBy hfirst)
  rw [Bool.and_eq_true, decide_eq_true_eq, decide_eq_true_eq] at hp
  exact ⟨hub, (Table.get?_eq_some_iff _ _ _).2 hin, hp⟩

theorem rows_newHub (st : Resolving) (hub : Hub) : (st.hubs.insert (W.newId (st.hubs.rows.map Prod.fst)) hub).rows =
      st.hubs.rows ++ [(W.newId (st.hubs.rows.map Prod.fst), hub)] := by
  unfold Table.insert
  rw [dif_neg (W.fresh _)]

/-! ## Hubs that are given once -/

def Resolving.given (st : Resolving) : List String := st.resolved.map fun e => e.2.1

section ways

variable {st : Resolving} {f : Family} {hub : String}

theorem resolve_of_overlap (hover : db.overlapHub f = some hub) :
    resolve W db st f = st.add f hub (((db.hubs.get? hub).map Hub.name).getD "") := by
  unfold resolve
  rw [hover]

theorem resolve_of_named (hover : db.overlapHub f = none) (hnamed : namedHub st.hubs f.name st.given = some hub) :
    resolve W db st f = st.add f hub f.name := by
  unfold Resolving.given at hnamed
  unfold resolve
  rw [hover]
  rw [hnamed]

theorem resolve_of_new (hover : db.overlapHub f = none) (hnamed : namedHub st.hubs f.name st.given = none) :
    resolve W db st f =
      { hubs := st.hubs.insert (W.newId (st.hubs.rows.map Prod.fst)) ⟨f.name, W.createdAt (st.hubs.rows.map Prod.fst)⟩
        resolved := st.resolved ++ [(f.key, W.newId (st.hubs.rows.map Prod.fst), f.name)]
        created := st.created + 1 } := by
  unfold Resolving.given at hnamed
  unfold resolve
  rw [hover]
  rw [hnamed]

end ways

/-- No family has by overlap a hub that an earlier one has by overlap or by name. -/
def Db.parted (db : Db) : List String → List Family → Bool
  | _, [] => true
  | taken, f :: rest =>
    match db.overlapHub f with
    | some hub => hub ∉ taken && db.parted (taken ++ [hub]) rest
    | none =>
      match namedHub db.hubs f.name taken with
      | some hub => db.parted (taken ++ [hub]) rest
      | none => db.parted taken rest

/-- The hubs so far are the stored ones and those made, which are all given; of the stored ones those in `taken` are. -/
structure Claims (db : Db) (taken : List String) (st : Resolving) : Prop where
  rows : ∃ made, st.hubs.rows = db.hubs.rows ++ made ∧ ∀ e ∈ made, e.1 ∈ st.given
  known : ∀ h ∈ st.given, h ∈ st.hubs.rows.map Prod.fst
  stored : ∀ e ∈ db.hubs.rows, e.1 ∈ st.given ↔ e.1 ∈ taken

theorem claims_start (db : Db) : Claims db [] ⟨db.hubs, [], 0⟩ := by
  refine ⟨⟨[], (append_nil _).symm, fun e he => absurd he not_mem_nil⟩, fun h hh => absurd hh not_mem_nil,
    fun e _ => Iff.rfl⟩

theorem given_add (st : Resolving) (f : Family) (hub name : String) : (st.add f hub name).given = st.given ++ [hub] := by
  unfold Resolving.given Resolving.add
  rw [map_append]
  rfl

section claims

variable {taken : List String} {st : Resolving} {f : Family} {h name : String}

theorem Claims.add (hc : Claims db taken st) (hub : Hub) (hget : db.hubs.get? h = some hub) :
    Claims db (taken ++ [h]) (st.add f h name) := by
  obtain ⟨made, hrows, hmade⟩ := hc.rows
  have hin : h ∈ st.hubs.rows.map Prod.fst := by
    rw [hrows, map_append]
    exact mem_append_left _ (mem_map.2 ⟨(h, hub), (Table.get?_eq_some_iff _ _ _).1 hget, rfl⟩)
  refine ⟨⟨made, hrows, fun e he => ?_⟩, fun k hk => ?_, fun e he => ?_⟩
  · rw [given_add]
    exact mem_append_left _ (hmade e he)
  · rw [given_add] at hk
    rcases mem_append.1 hk with hk | hk
    · exact hc.known k hk
    · rw [mem_singleton.1 hk]
      exact hin
  · rw [given_add, mem_append, mem_append, hc.stored e he]

theorem Claims.namedHub (hc : Claims db taken st) (name : String) :
    namedHub st.hubs name st.given = namedHub db.hubs name taken := by
  obtain ⟨made, hrows, hmade⟩ := hc.rows
  have hnone : made.filter (fun e => e.2.name = name && e.1 ∉ st.given) = [] := by
    refine filter_eq_nil_iff.2 fun e he => ?_
    rw [Bool.and_eq_true, decide_eq_true_eq, decide_eq_true_eq]
    exact fun hboth => hboth.2 (hmade e he)
  unfold Routes.namedHub
  rw [hrows, filter_append, hnone, append_nil]
  congr 2
  refine filter_congr fun e he => ?_
  rw [decide_eq_decide.2 (not_congr (hc.stored e he))]

theorem Claims.create (hc : Claims db taken st) (hub : Hub) :
    Claims db taken
      { hubs := st.hubs.insert (W.newId (st.hubs.rows.map Prod.fst)) hub
        resolved := st.resolved ++ [(f.key, W.newId (st.hubs.rows.map Prod.fst), name)]
        created := st.created + 1 } := by
  obtain ⟨made, hrows, hmade⟩ := hc.rows
  have hgiven : ∀ k, k ∈ (st.resolved ++ [(f.key, W.newId (st.hubs.rows.map Prod.fst), name)]).map (fun e => e.2.1) ↔
      k ∈ st.given ∨ k = W.newId (st.hubs.rows.map Prod.fst) := by
    intro k
    rw [map_append, mem_append, map_singleton, mem_singleton]
    rfl
  refine ⟨⟨made ++ [(W.newId (st.hubs.rows.map Prod.fst), hub)], ?_, fun e he => ?_⟩, fun k hk => ?_, fun e he => ?_⟩
  · rw [rows_newHub, ← append_assoc, ← hrows]
  · refine (hgiven _).2 ?_
    rcases mem_append.1 he with he | he
    · exact Or.inl (hmade e he)
    · rw [mem_singleton.1 he]
      exact Or.inr rfl
  · show k ∈ (st.hubs.insert _ hub).rows.map Prod.fst
    rw [rows_newHub, map_append, mem_append]
    rcases (hgiven k).1 hk with hk | rfl
    · exact Or.inl (hc.known k hk)
    · exact Or.inr mem_cons_self
  · refine (hgiven _).trans ?_
    rw [or_iff_left, hc.stored e he]
    intro heq
    refine W.fresh (st.hubs.rows.map Prod.fst) ?_
    rw [← heq, hrows, map_append]
    exact mem_append_left _ (mem_map_of_mem he)

theorem nodup_given_add : (st.add f h name).given.Nodup ↔ st.given.Nodup ∧ h ∉ st.given := by
  rw [given_add, nodup_append]
  constructor
  · rintro ⟨hn, -, hne⟩
    exact ⟨hn, fun hin => hne h hin h mem_cons_self rfl⟩
  · rintro ⟨hn, hnot⟩
    refine ⟨hn, nodup_singleton h, fun a ha b hb heq => hnot ?_⟩
    rw [← mem_singleton.1 hb, ← heq]
    exact ha

theorem nodup_given_iff (W : Mint) (fs : List Family) (hc : Claims db taken st) :
    (fs.foldl (resolve W db) st).given.Nodup ↔ st.given.Nodup ∧ db.parted taken fs = true := by
  induction fs generalizing taken st with
  | nil => simp [Db.parted]
  | cons f fs ih =>
    rw [foldl_cons, Db.parted]
    cases hover : db.overlapHub f with
    | some hub =>
      obtain ⟨x, hx⟩ := overlapHub_stored hover
      have hstored := hc.stored (hub, x) ((Table.get?_eq_some_iff _ _ _).1 hx)
      rw [resolve_of_overlap hover, ih (hc.add x hx), nodup_given_add, Bool.and_eq_true, decide_eq_true_eq, ← hstored,
        and_assoc]
    | none =>
      have hsame := hc.namedHub f.name
      cases hnamed : namedHub db.hubs f.name taken with
      | some hub =>
        obtain ⟨x, hx, -, hfree⟩ := namedHub_eq_some hnamed
        have hstored := hc.stored (hub, x) ((Table.get?_eq_some_iff _ _ _).1 hx)
        rw [resolve_of_named hover (hsame.trans hnamed), ih (hc.add x hx), nodup_given_add,
          and_iff_left fun hin => hfree (hstored.1 hin)]
      | none =>
        have hfresh : W.newId (st.hubs.rows.map Prod.fst) ∉ st.given := fun hin => W.fresh _ (hc.known _ hin)
        rw [resolve_of_new hover (hsame.trans hnamed), ih (hc.create _)]
        refine and_congr_left fun _ => ?_
        show (st.add f _ f.name).given.Nodup ↔ _
        rw [nodup_given_add, and_iff_left hfresh]

end claims

end hubs

/-- Whatever is stored: the families of a run get different hubs exactly when none has by overlap the hub that an earlier
one has by overlap, or has found by name. -/
theorem one_hub_each_iff (W : Mint) (R : Ranking) (db : Db) :
    (resolveAll W db (plan R).families).given.Nodup ↔ db.parted [] (plan R).families = true := by
  refine (nodup_given_iff W (plan R).families (claims_start db)).trans ?_
  rw [and_iff_right]
  exact nodup_nil

/-- An id longer than those there are. -/
def longerId : Mint where
  newId l := String.ofList (List.replicate ((l.map String.length).sum + 1) 'h')
  fresh l hin := by
    have hle := List.single_le_sum (fun _ _ => Nat.zero_le _) _ (List.mem_map_of_mem (f := String.length) hin)
    rw [← String.length_toList, String.toList_ofList, List.length_replicate] at hle
    omega
  createdAt l := l.length

def twoDays (tour first second : String) : List RankedRow :=
  [⟨first, tour, "P", "walk", 1⟩, ⟨second, tour, "Q", "walk", 2⟩]

/-- Four tours with the same Segments; then two of them have others. -/
def together : Ranking where
  rows := ["a", "b", "c", "d"].flatMap fun tour => twoDays tour "s" "t"
  distinct := by decide
  uuids := by decide

def parted : Ranking where
  rows := (["a", "b"].flatMap fun tour => twoDays tour "s" "t") ++ ["c", "d"].flatMap fun tour => twoDays tour "u" "v"
  distinct := by decide
  uuids := by decide

/-- The four tours were one family; each of the two that they make now has half of the tours of the hub. -/
theorem hub_given_twice :
    ¬ (resolveAll longerId (run step Db.empty [.detect longerId together]) (plan parted).families).given.Nodup := by
  decide +kernel

end CisApp.Routes
