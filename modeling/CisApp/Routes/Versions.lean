import CisApp.Routes.Detect

/-!
# The versions of a Route

`Db.Kept` is what every run keeps of the rows: an id is that of the row's identity
and version, an identity has one current row at most, and its versions grow in the
order of their insertion.

A row to insert has a version above all of its identity (`above_of_insertFor`), so
its id is new, and the current row of its identity is superseded before it
(`free_of_toInsert`).  So no `INSERT` is refused (`write_kept`) and after a run the
current rows are the finished Routes (`Db.Shows`).
-/

namespace CisApp.Routes

open Lib List

/-! ## Ids -/

def Identity.routeId (i : Identity) (version : Nat) : String :=
  let base := i.tourId ++ ":" ++ toString i.firstDay ++ "-" ++ toString i.lastDay
  if version = 1 then base else base ++ ":v" ++ toString version

theorem routeId_identity (r : Route) : r.routeId = r.identity.routeId 1 := rfl

theorem versionId_identity (r : Route) {version : Nat} (h : version ≠ 1) :
    r.versionId version = r.identity.routeId version := by
  unfold Identity.routeId
  rw [if_neg h]
  rfl

theorem identity_routeId_toList (i : Identity) (version : Nat) :
    (i.routeId version).toList = i.tourId.toList ++ ':' :: (intText i.firstDay ++ '-' :: intText i.lastDay ++
      if version = 1 then [] else ':' :: 'v' :: Nat.toDigits 10 version) := by
  have hbase : (i.tourId ++ ":" ++ toString i.firstDay ++ "-" ++ toString i.lastDay).toList =
      i.tourId.toList ++ ':' :: (intText i.firstDay ++ '-' :: intText i.lastDay) :=
    routeId_toList { tourId := i.tourId, firstDay := i.firstDay, lastDay := i.lastDay, segmentIds := [], places := [] }
  unfold Identity.routeId
  split
  · rw [hbase, append_nil]
  · rw [String.toList_append, String.toList_append, hbase, Nat.toString_eq_repr, Nat.repr_eq_ofList_toDigits,
      String.toList_ofList]
    simp

theorem identity_routeId_inj {i j : Identity} {m n : Nat} (hi : ':' ∉ i.tourId.toList) (hj : ':' ∉ j.tourId.toList)
    (h : i.routeId m = j.routeId n) : i = j ∧ m = n := by
  have hlist := congrArg String.toList h
  rw [identity_routeId_toList, identity_routeId_toList] at hlist
  obtain ⟨htour, hrest⟩ := cut_first hi hj hlist
  rw [append_assoc, append_assoc, cons_append, cons_append] at hrest
  obtain ⟨hfirst, hlast⟩ := intText_dash_inj hrest
  have hcolon : ∀ d : Int, ':' ∉ intText d := notMem_intText (by decide) (by decide)
  have hsplit : i.lastDay = j.lastDay ∧ m = n := by
    by_cases hm : m = 1 <;> by_cases hn : n = 1
    · rw [if_pos hm, if_pos hn, append_nil, append_nil] at hlast
      exact ⟨intText_inj hlast, hm.trans hn.symm⟩
    · rw [if_pos hm, if_neg hn, append_nil] at hlast
      refine absurd ?_ (hcolon i.lastDay)
      rw [hlast]
      exact mem_append_right _ mem_cons_self
    · rw [if_neg hm, if_pos hn, append_nil] at hlast
      refine absurd ?_ (hcolon j.lastDay)
      rw [← hlast]
      exact mem_append_right _ mem_cons_self
    · rw [if_neg hm, if_neg hn] at hlast
      obtain ⟨hdays, hversions⟩ := cut_first (hcolon _) (hcolon _) hlast
      exact ⟨intText_inj hdays, toDigits_inj (List.cons.inj hversions).2⟩
  refine ⟨?_, hsplit.2⟩
  obtain ⟨t, f, l⟩ := i
  obtain ⟨t', f', l'⟩ := j
  have htour : t = t' := String.toList_inj.1 htour
  have hfirst : f = f' := hfirst
  have hlast : l = l' := hsplit.1
  rw [htour, hfirst, hlast]

/-! ## What the rows keep -/

def Db.Current (db : Db) (id : String) (row : RouteRow) : Prop :=
  db.routes.get? id = some row ∧ row.superseded = false

def OneEach (routes : Table String RouteRow) : Prop :=
  ∀ id row id' row', routes.get? id = some row → row.superseded = false → routes.get? id' = some row' →
    row'.superseded = false → row.identity = row'.identity → id = id'

def Growing (rows : List (String × RouteRow)) : Prop :=
  rows.Pairwise fun x y => x.2.identity = y.2.identity → x.2.version < y.2.version

structure Db.Kept (db : Db) : Prop where
  named : ∀ id row, db.routes.get? id = some row → id = row.identity.routeId row.version ∧ 1 ≤ row.version ∧
    ':' ∉ row.identity.tourId.toList
  one : OneEach db.routes
  growing : Growing db.routes.rows

/-- The Routes of a run under their identities. -/
structure Finished (f : Table Identity Route) : Prop where
  identity : ∀ i r, f.get? i = some r → r.identity = i
  uuids : ∀ i r, f.get? i = some r → ':' ∉ i.tourId.toList

section rows

variable {db : Db} {id : String} {row : RouteRow} {i : Identity}

theorem mem_current : (id, row) ∈ db.current ↔ db.Current id row := by
  unfold Db.current Db.Current
  rw [mem_filter, Table.get?_eq_some_iff, Bool.not_eq_true']

theorem existing_eq_some (h : db.Kept) : db.existing.get? i = some (id, row) ↔ db.Current id row ∧ row.identity = i := by
  constructor
  · intro hget
    obtain ⟨hin, hi⟩ := Table.mem_of_dictBy hget
    exact ⟨mem_current.1 hin, hi⟩
  · rintro ⟨hcur, rfl⟩
    refine Table.get?_dictBy_of_unique (mem_current.2 hcur) ?_
    rintro ⟨id', row'⟩ hin hid
    have hcur' := mem_current.1 hin
    obtain rfl := h.one id' row' id row hcur'.1 hcur'.2 hcur.1 hcur.2 hid
    rw [Option.some.inj (hcur'.1.symm.trans hcur.1)]

theorem le_maxVersion (h : (id, row) ∈ db.routes.rows) : ∃ v, db.maxVersion row.identity = some v ∧ row.version ≤ v := by
  have hin : row.version ∈ (db.routes.rows.filter fun e => e.2.identity = row.identity).map fun e => e.2.version :=
    List.mem_map.2 ⟨(id, row), List.mem_filter.2 ⟨h, decide_eq_true rfl⟩, rfl⟩
  unfold Db.maxVersion
  cases hmax : ((db.routes.rows.filter fun e => e.2.identity = row.identity).map fun e => e.2.version).max? with
  | none =>
    rw [List.max?_eq_none_iff.1 hmax] at hin
    cases hin
  | some v => exact ⟨v, rfl, (List.max?_eq_some_iff.1 hmax).2 _ hin⟩

theorem maxVersion_pos (h : db.Kept) {v : Nat} (hv : db.maxVersion i = some v) : 1 ≤ v := by
  obtain ⟨e, he, rfl⟩ := List.mem_map.1 (List.max?_mem hv)
  exact (h.named e.1 e.2 ((Table.get?_eq_some_iff _ _ _).2 (List.mem_filter.1 he).1)).2.1

/-! ## What is inserted -/

variable {f : Table Identity Route} {r : Route}

theorem above_of_insertFor (h : db.Kept) (hi : r.identity = i) (hfor : db.insertFor i r = some (id, row)) :
    row = r.row row.version ∧ id = i.routeId row.version ∧ 1 ≤ row.version ∧
      ∀ e ∈ db.routes.rows, e.2.identity = i → e.2.version < row.version := by
  have habove : ∀ v, (∀ w, db.maxVersion i = some w → w < v) → ∀ e ∈ db.routes.rows, e.2.identity = i → e.2.version < v := by
    rintro v hv ⟨id', row'⟩ he rfl
    obtain ⟨w, hw, hle⟩ := le_maxVersion he
    exact lt_of_le_of_lt hle (hv w hw)
  unfold Db.insertFor at hfor
  split at hfor
  · split at hfor
    · next hnone =>
      obtain ⟨rfl, rfl⟩ := Prod.mk.inj (Option.some.inj hfor)
      refine ⟨rfl, ?_, le_refl 1, habove 1 fun w hw => ?_⟩
      · rw [routeId_identity, hi]
        rfl
      · rw [hnone] at hw
        cases hw
    · next priorMax hmax =>
      obtain ⟨rfl, rfl⟩ := Prod.mk.inj (Option.some.inj hfor)
      have hpos := maxVersion_pos h hmax
      refine ⟨rfl, ?_, Nat.le_add_left 1 priorMax, habove (priorMax + 1) fun w hw => ?_⟩
      · rw [versionId_identity r (by omega), hi]
        rfl
      · rw [hmax] at hw
        cases hw
        exact Nat.lt_succ_self _
  · next key old hold =>
    split at hfor
    · cases hfor
    · obtain ⟨rfl, rfl⟩ := Prod.mk.inj (Option.some.inj hfor)
      have hpos := (h.named _ _ ((existing_eq_some h).1 hold).1.1).2.1
      refine ⟨rfl, ?_, Nat.le_add_left 1 _, habove _ fun w hw => ?_⟩
      · rw [versionId_identity r (by omega), hi]
        rfl
      · rw [hw]
        show w < max old.version w + 1
        omega

theorem identity_of_insertFor (hi : r.identity = i) (h : db.Kept) (hfor : db.insertFor i r = some (id, row)) :
    row.identity = i := by
  rw [(above_of_insertFor h hi hfor).1]
  exact hi

theorem mem_toInsert (h : db.Kept) (hf : Finished f) :
    (id, row) ∈ db.toInsert f ↔ ∃ r, f.get? row.identity = some r ∧ db.insertFor row.identity r = some (id, row) := by
  unfold Db.toInsert
  rw [mem_filterMap]
  constructor
  · rintro ⟨⟨i, r⟩, hin, hfor⟩
    have hget := (Table.get?_eq_some_iff _ _ _).2 hin
    obtain rfl := identity_of_insertFor (hf.identity i r hget) h hfor
    exact ⟨r, hget, hfor⟩
  · rintro ⟨r, hget, hfor⟩
    exact ⟨(row.identity, r), (Table.get?_eq_some_iff _ _ _).1 hget, hfor⟩

theorem above_of_toInsert (h : db.Kept) (hf : Finished f) (hin : (id, row) ∈ db.toInsert f) :
    id = row.identity.routeId row.version ∧ 1 ≤ row.version ∧ ':' ∉ row.identity.tourId.toList ∧
      row.superseded = false ∧ ∀ e ∈ db.routes.rows, e.2.identity = row.identity → e.2.version < row.version := by
  obtain ⟨r, hget, hfor⟩ := (mem_toInsert h hf).1 hin
  obtain ⟨hrow, hid, hpos, habove⟩ := above_of_insertFor h (hf.identity _ r hget) hfor
  refine ⟨hid, hpos, hf.uuids _ r hget, ?_, habove⟩
  rw [hrow]
  rfl

theorem toInsert_identities (h : db.Kept) (hf : Finished f) :
    (db.toInsert f).Pairwise fun x y => x.2.identity ≠ y.2.identity := by
  have hpair : f.rows.Pairwise fun x y => x ∈ f.rows ∧ y ∈ f.rows ∧ x.1 ≠ y.1 :=
    (List.pairwise_map.1 f.nodup).imp_of_mem fun hx hy hne => ⟨hx, hy, hne⟩
  refine List.Pairwise.filterMap _ ?_ hpair
  rintro ⟨i, r⟩ ⟨i', r'⟩ ⟨hx, hy, hne⟩ ⟨id, row⟩ hfor ⟨id', row'⟩ hfor' heq
  have hget := (Table.get?_eq_some_iff _ _ _).2 hx
  have hget' := (Table.get?_eq_some_iff _ _ _).2 hy
  have hrow := identity_of_insertFor (hf.identity i r hget) h hfor
  have hrow' := identity_of_insertFor (hf.identity i' r' hget') h hfor'
  exact hne (hrow.symm.trans (heq.trans hrow'))

theorem mem_toSupersede (h : db.Kept) (hcur : db.Current id row) :
    id ∈ db.toSupersede f ↔ ∀ r, f.get? row.identity = some r → unchanged r row = false := by
  have hold := (existing_eq_some h).2 ⟨hcur, rfl⟩
  unfold Db.toSupersede
  rw [mem_append, mem_filterMap, mem_map]
  constructor
  · rintro (⟨⟨i, r⟩, hin, hbind⟩ | ⟨⟨i, x⟩, hin, rfl⟩) r' hr'
    · obtain ⟨⟨id', old⟩, hget, hif⟩ := Option.bind_eq_some_iff.1 hbind
      split at hif
      · cases hif
      · next hun =>
        obtain rfl := Option.some.inj hif
        obtain ⟨hcur', hi⟩ := (existing_eq_some h).1 hget
        have hrow : row = old := Option.some.inj (hcur.1.symm.trans hcur'.1)
        rw [hrow, hi, (Table.get?_eq_some_iff _ _ _).2 hin] at hr'
        obtain rfl := Option.some.inj hr'
        rw [hrow]
        simpa using hun
    · obtain ⟨hin, hnone⟩ := List.mem_filter.1 hin
      obtain ⟨hcur', hi⟩ := (existing_eq_some h).1 ((Table.get?_eq_some_iff _ _ _).2 hin)
      have hrow : row = x.2 := Option.some.inj (hcur.1.symm.trans hcur'.1)
      rw [hrow, hi] at hr'
      rw [hr'] at hnone
      cases hnone
  · intro hun
    cases hget : f.get? row.identity with
    | none =>
      refine Or.inr ⟨(row.identity, (id, row)), List.mem_filter.2 ⟨(Table.get?_eq_some_iff _ _ _).1 hold, ?_⟩, rfl⟩
      rw [hget]
      rfl
    | some r =>
      refine Or.inl ⟨(row.identity, r), (Table.get?_eq_some_iff _ _ _).1 hget, Option.bind_eq_some_iff.2 ⟨_, hold, ?_⟩⟩
      rw [hun r hget]
      rfl

end rows

/-! ## The writes -/

section writes

variable {routes : Table String RouteRow} {ids : List String}

variable {e : String × RouteRow}

theorem rows_insert (h : routes.get? e.1 = none) : (routes.insert e.1 e.2).rows = routes.rows ++ [e] := by
  unfold Table.insert
  rw [dif_neg ((Table.get?_eq_none_iff _ _).1 h)]

theorem refused_eq_false : refused routes e = false ↔
    routes.get? e.1 = none ∧ ∀ x ∈ routes.rows, x.2.superseded = false → x.2.identity ≠ e.2.identity := by
  unfold refused
  rw [Bool.or_eq_false_iff, Option.isSome_eq_false_iff, Option.isNone_iff_eq_none, any_eq_false]
  refine and_congr_right fun _ => ?_
  constructor
  · intro h x hx hcur hid
    exact h x hx (by rw [hcur, Bool.not_false, Bool.true_and, decide_eq_true hid])
  · intro h x hx hboth
    rw [Bool.and_eq_true, Bool.not_eq_true', decide_eq_true_eq] at hboth
    exact h x hx hboth.1 hboth.2

theorem insertRows?_eq {l : List (String × RouteRow)} (hnew : ∀ e ∈ l, refused routes e = false)
    (hl : l.Pairwise fun x y => x.1 ≠ y.1 ∧ x.2.identity ≠ y.2.identity) :
    ∃ routes', insertRows? routes l = some routes' ∧ routes'.rows = routes.rows ++ l := by
  induction l generalizing routes with
  | nil => exact ⟨routes, rfl, (append_nil _).symm⟩
  | cons e l ih =>
    obtain ⟨hfirst, hrest⟩ := List.pairwise_cons.1 hl
    have he := hnew e mem_cons_self
    have hrows := rows_insert (refused_eq_false.1 he).1
    have hlater : ∀ e' ∈ l, refused (routes.insert e.1 e.2) e' = false := by
      intro e' he'
      obtain ⟨hid, hidentity⟩ := hfirst e' he'
      obtain ⟨hnone, hother⟩ := refused_eq_false.1 (hnew e' (mem_cons_of_mem _ he'))
      refine refused_eq_false.2 ⟨?_, fun x hx => ?_⟩
      · rw [Table.get?_insert, if_neg fun hc => hid hc.1.symm]
        exact hnone
      · rw [hrows] at hx
        rcases List.mem_append.1 hx with hx | hx
        · exact hother x hx
        · rw [List.mem_singleton.1 hx]
          exact fun _ => hidentity
    obtain ⟨routes', hsome, hrows'⟩ := ih hlater hrest
    refine ⟨routes', ?_, ?_⟩
    · rw [insertRows?, he]
      exact hsome
    · rw [hrows', hrows, append_assoc]
      rfl

theorem mem_supersede {id : String} {row : RouteRow} : (id, row) ∈ (supersede routes ids).rows ↔
    ∃ old, (id, old) ∈ routes.rows ∧ row = if id ∈ ids then { old with superseded := true } else old := by
  unfold supersede Table.update
  rw [mem_map]
  constructor
  · rintro ⟨⟨id', old⟩, hin, heq⟩
    obtain ⟨rfl, rfl⟩ := Prod.mk.inj heq
    refine ⟨old, hin, ?_⟩
    split
    · next h => rw [if_pos (of_decide_eq_true h)]
    · next h => rw [if_neg (by simpa using h)]
  · rintro ⟨old, hin, rfl⟩
    refine ⟨(id, old), hin, ?_⟩
    by_cases h : id ∈ ids
    · rw [if_pos h, if_pos (decide_eq_true h)]
    · rw [if_neg h, if_neg (by simpa using h)]

theorem of_mem_supersede {id : String} {row : RouteRow} (h : (id, row) ∈ (supersede routes ids).rows) :
    ∃ old, (id, old) ∈ routes.rows ∧ row.identity = old.identity ∧ row.version = old.version ∧
      (row.superseded = false → row = old ∧ id ∉ ids) := by
  obtain ⟨old, hin, rfl⟩ := mem_supersede.1 h
  refine ⟨old, hin, ?_⟩
  split
  · refine ⟨rfl, rfl, ?_⟩
    intro h
    cases h
  · next hnot => exact ⟨rfl, rfl, fun _ => ⟨rfl, hnot⟩⟩

variable {db : Db} {f : Table Identity Route}

theorem free_of_toInsert (h : db.Kept) (hf : Finished f) (hin : e ∈ db.toInsert f) :
    refused (supersede db.routes (db.toSupersede f)) e = false := by
  obtain ⟨id, row⟩ := e
  obtain ⟨hid, -, hcolon, -, habove⟩ := above_of_toInsert h hf hin
  refine refused_eq_false.2 ⟨?_, ?_⟩
  · rw [supersede, Table.get?_update, Option.map_eq_none_iff]
    by_contra hne
    obtain ⟨old, hold⟩ := Option.ne_none_iff_exists'.1 hne
    obtain ⟨hname, -, hcolon'⟩ := h.named id old hold
    obtain ⟨hidentity, hversion⟩ := identity_routeId_inj hcolon' hcolon (hname.symm.trans hid)
    have := habove (id, old) ((Table.get?_eq_some_iff _ _ _).1 hold) hidentity
    dsimp only at this
    omega
  · rintro ⟨id', row'⟩ hin' hcur hsame
    obtain ⟨old, hold, -, -, hleft⟩ := of_mem_supersede hin'
    obtain ⟨rfl, hstay⟩ := hleft hcur
    have hcurrent : db.Current id' row' := ⟨(Table.get?_eq_some_iff _ _ _).2 hold, hcur⟩
    obtain ⟨r, hget, hfor⟩ := (mem_toInsert h hf).1 hin
    unfold Db.insertFor at hfor
    rw [(existing_eq_some h).2 ⟨hcurrent, hsame⟩] at hfor
    dsimp only at hfor
    split at hfor
    · cases hfor
    · next hun =>
      refine hstay ((mem_toSupersede h hcurrent).2 fun r' hr' => ?_)
      rw [hsame, hget] at hr'
      rw [← Option.some.inj hr']
      simpa using hun

/-- The rows after the `UPDATE` and the first `n` of the `INSERT`s. -/
def Db.during (db : Db) (finished : Table Identity Route) (n : Nat) : Option (Table String RouteRow) :=
  insertRows? (supersede db.routes (db.toSupersede finished)) ((db.toInsert finished).take n)

theorem during_eq (h : db.Kept) (hf : Finished f) (n : Nat) : ∃ routes, db.during f n = some routes ∧
      routes.rows = (supersede db.routes (db.toSupersede f)).rows ++ (db.toInsert f).take n := by
  refine insertRows?_eq (fun e he => free_of_toInsert h hf (mem_of_mem_take he)) ?_
  have hpair : (db.toInsert f).Pairwise fun x y => x ∈ db.toInsert f ∧ y ∈ db.toInsert f ∧ x.2.identity ≠ y.2.identity :=
    (toInsert_identities h hf).imp_of_mem fun hx hy hne => ⟨hx, hy, hne⟩
  refine (hpair.imp ?_).sublist (take_sublist n _)
  rintro ⟨id, row⟩ ⟨id', row'⟩ ⟨hx, hy, hne⟩
  refine ⟨fun heq => hne ?_, hne⟩
  obtain ⟨hid, -, hcolon, -⟩ := above_of_toInsert h hf hx
  obtain ⟨hid', -, hcolon', -⟩ := above_of_toInsert h hf hy
  exact (identity_routeId_inj hcolon hcolon' (hid.symm.trans (heq.trans hid'))).1

theorem kept_during (h : db.Kept) (hf : Finished f) {n : Nat} {routes : Table String RouteRow}
    (hdur : db.during f n = some routes) (hubs : Table String Hub) : (⟨hubs, routes⟩ : Db).Kept := by
  obtain ⟨routes', hsome, hrows⟩ := during_eq h hf n
  rw [hdur] at hsome
  obtain rfl := Option.some.inj hsome
  have hnew : ∀ e ∈ (db.toInsert f).take n, e ∈ db.toInsert f := fun e he => mem_of_mem_take he
  refine ⟨fun id row hget => ?_, ?_, ?_⟩
  · have hin := (Table.get?_eq_some_iff _ _ _).1 hget
    rw [hrows] at hin
    rcases List.mem_append.1 hin with hin | hin
    · obtain ⟨old, hold, hidentity, hversion, -⟩ := of_mem_supersede hin
      rw [hidentity, hversion]
      exact h.named id old ((Table.get?_eq_some_iff _ _ _).2 hold)
    · obtain ⟨hid, hpos, hcolon, -⟩ := above_of_toInsert h hf (hnew _ hin)
      exact ⟨hid, hpos, hcolon⟩
  · -- of two current rows, neither is new
    have hfree : ∀ e ∈ (db.toInsert f).take n, ∀ x ∈ (supersede db.routes (db.toSupersede f)).rows,
        x.2.superseded = false → x.2.identity ≠ e.2.identity := fun e he =>
      (refused_eq_false.1 (free_of_toInsert h hf (hnew e he))).2
    intro id row id' row' hget hcur hget' hcur' hsame
    have hin := (Table.get?_eq_some_iff _ _ _).1 hget
    have hin' := (Table.get?_eq_some_iff _ _ _).1 hget'
    rw [hrows] at hin hin'
    rcases List.mem_append.1 hin with hin | hin <;> rcases List.mem_append.1 hin' with hin' | hin'
    · obtain ⟨old, hold, -, -, hleft⟩ := of_mem_supersede hin
      obtain ⟨old', hold', -, -, hleft'⟩ := of_mem_supersede hin'
      obtain ⟨rfl, -⟩ := hleft hcur
      obtain ⟨rfl, -⟩ := hleft' hcur'
      exact h.one id row id' row' ((Table.get?_eq_some_iff _ _ _).2 hold) hcur ((Table.get?_eq_some_iff _ _ _).2 hold') hcur' hsame
    · exact absurd hsame (hfree _ hin' _ hin hcur)
    · exact absurd hsame.symm (hfree _ hin _ hin' hcur')
    · by_contra hne
      have hpair := (toInsert_identities h hf).sublist (take_sublist n _)
      rcases related_or hpair hin hin' (fun heq => hne (Prod.mk.inj heq).1) with hdiff | hdiff
      · exact hdiff hsame
      · exact hdiff hsame.symm
  · show Growing routes.rows
    rw [hrows]
    refine List.pairwise_append.2 ⟨?_, ?_, ?_⟩
    · exact List.pairwise_map.2 (h.growing.imp fun {x y} hxy => by
        split <;> split <;> exact hxy)
    · exact ((toInsert_identities h hf).sublist (take_sublist n _)).imp fun hne heq => absurd heq hne
    · rintro ⟨id, row⟩ hin ⟨id', row'⟩ hin' hsame
      obtain ⟨old, hold, hidentity, hversion, -⟩ := of_mem_supersede hin
      have := (above_of_toInsert h hf (hnew _ hin')).2.2.2.2 (id, old) hold (hidentity.symm.trans hsame)
      rw [hversion]
      exact this

theorem write?_eq_during (db : Db) (f : Table Identity Route) : db.write? f = db.during f (db.toInsert f).length := by
  rw [Db.during, take_length]
  rfl

end writes

/-! ## After a run -/

/-- The current rows are those of the finished Routes. -/
structure Db.Shows (db : Db) (f : Table Identity Route) : Prop where
  kept : db.Kept
  rows : ∀ id row, db.Current id row → ∃ r, f.get? row.identity = some r ∧ unchanged r row = true
  all : ∀ i r, f.get? i = some r → ∃ id row, db.Current id row ∧ row.identity = i

theorem unchanged_row (r : Route) (version : Nat) : unchanged r (r.row version) = true := by
  simp [unchanged, Route.row]

section shows

variable {db : Db} {f : Table Identity Route}

theorem shows_write (h : db.Kept) (hf : Finished f) (hubs : Table String Hub) :
    ∃ routes, db.write? f = some routes ∧ (⟨hubs, routes⟩ : Db).Shows f := by
  obtain ⟨routes, hsome, hrows⟩ := during_eq h hf (db.toInsert f).length
  have hkept := kept_during h hf hsome hubs
  rw [take_length] at hrows
  refine ⟨routes, (write?_eq_during db f).trans hsome, hkept, fun id row hcur => ?_, fun i r hget => ?_⟩
  · have hin := (Table.get?_eq_some_iff _ _ _).1 hcur.1
    rw [show (⟨hubs, routes⟩ : Db).routes.rows = _ from hrows] at hin
    rcases List.mem_append.1 hin with hin | hin
    · obtain ⟨old, hold, -, -, hleft⟩ := of_mem_supersede hin
      obtain ⟨rfl, hstay⟩ := hleft hcur.2
      rw [mem_toSupersede h ⟨(Table.get?_eq_some_iff _ _ _).2 hold, hcur.2⟩] at hstay
      push Not at hstay
      obtain ⟨r, hget, hun⟩ := hstay
      exact ⟨r, hget, by simpa using hun⟩
    · obtain ⟨r, hget, hfor⟩ := (mem_toInsert h hf).1 hin
      refine ⟨r, hget, ?_⟩
      rw [(above_of_insertFor h (hf.identity _ r hget) hfor).1]
      exact unchanged_row r _
  · have hread : ∀ id row, (id, row) ∈ (supersede db.routes (db.toSupersede f)).rows ++ db.toInsert f →
        row.superseded = false → (⟨hubs, routes⟩ : Db).Current id row := by
      intro id row hin hcur
      rw [← hrows] at hin
      exact ⟨(Table.get?_eq_some_iff _ _ _).2 hin, hcur⟩
    cases hfor : db.insertFor i r with
    | some e =>
      obtain ⟨id, row⟩ := e
      have hidentity := identity_of_insertFor (hf.identity i r hget) h hfor
      have hin : (id, row) ∈ db.toInsert f := (mem_toInsert h hf).2 ⟨r, hidentity ▸ hget, hidentity ▸ hfor⟩
      exact ⟨id, row, hread id row (mem_append_right _ hin) (above_of_toInsert h hf hin).2.2.2.1, hidentity⟩
    | none =>
      unfold Db.insertFor at hfor
      split at hfor
      · split at hfor <;> cases hfor
      · next id old hold =>
        split at hfor
        · next hun =>
          obtain ⟨hcur, rfl⟩ := (existing_eq_some h).1 hold
          refine ⟨id, old, hread id old (mem_append_left _ ?_) hcur.2, rfl⟩
          refine mem_supersede.2 ⟨old, (Table.get?_eq_some_iff _ _ _).1 hcur.1, ?_⟩
          rw [if_neg fun hin => ?_]
          rw [(mem_toSupersede h hcur).1 hin r hget] at hun
          cases hun
        · cases hfor

theorem finished_finishedBy {P : Plan} (hP : ∀ r ∈ P.routes, ':' ∉ r.tourId.toList)
    (resolved : List (String × String × String)) : Finished (finishedBy P resolved) := by
  have hfinish : ∀ r, (finish P resolved r).identity = r.identity := by
    intro r
    unfold finish
    split <;> rfl
  refine ⟨fun i r hget => (Table.mem_of_dictBy hget).2, fun i r hget => ?_⟩
  obtain ⟨hin, rfl⟩ := Table.mem_of_dictBy hget
  obtain ⟨r, hr, rfl⟩ := List.mem_map.1 hin
  rw [hfinish]
  exact hP r hr

theorem uuids_plan (R : Ranking) : ∀ r ∈ (plan R).routes, ':' ∉ r.tourId.toList := by
  intro r hr
  have hjourney := journey_of_mem hr
  have hdays := hjourney.least
  unfold leastDays at hdays
  obtain ⟨m, hm, htour, -⟩ := hjourney.days r.firstDay (le_refl _) (by omega)
  obtain ⟨row, hrow, rfl⟩ := List.mem_map.1 hm
  rw [← htour]
  exact R.uuids row hrow

/-- The Routes of a run over the ranking, with the hubs that it finds or makes. -/
def Db.finishedIn (db : Db) (W : Mint) (R : Ranking) : Table Identity Route :=
  finishedBy (plan R) (resolveAll W db (plan R).families).resolved

theorem run_shows (h : db.Kept) (W : Mint) (R : Ranking) : ∃ report, (runRouteDetection W R db).2 = some report ∧
      (runRouteDetection W R db).1.Shows (db.finishedIn W R) := by
  obtain ⟨routes, hsome, hshows⟩ := shows_write h
    (finished_finishedBy (uuids_plan R) (resolveAll W db (plan R).families).resolved) (resolveAll W db (plan R).families).hubs
  unfold runRouteDetection detect
  dsimp only
  rw [hsome]
  exact ⟨_, rfl, hshows⟩

theorem kept_empty : Db.empty.Kept := by
  refine ⟨fun id row hget => ?_, fun id row _ _ hget => ?_, List.Pairwise.nil⟩
  · cases hget
  · cases hget

theorem kept_step (h : db.Kept) (e : Event) : (step db e).Kept := by
  cases e with
  | detect W R =>
    obtain ⟨report, -, hshows⟩ := run_shows h W R
    exact hshows.kept
  | rename hub name => exact ⟨h.named, h.one, h.growing⟩

theorem kept_run (events : List Event) : (run step Db.empty events).Kept :=
  run_of_step (I := Db.Kept) (fun _ e h => kept_step h e) events kept_empty

variable (db) in
theorem finishedIn_iff (W : Mint) (R : Ranking) (i : Identity) (segmentIds : List String) :
    (∃ r, (db.finishedIn W R).get? i = some r ∧ r.segmentIds = segmentIds) ↔
      ∃ r ∈ deriveRoutes (R.rows.map RankedRow.moment), r.identity = i ∧ r.segmentIds = segmentIds := by
  have hfinish : ∀ r, (finish (plan R) (resolveAll W db (plan R).families).resolved r).identity = r.identity ∧
      (finish (plan R) (resolveAll W db (plan R).families).resolved r).segmentIds = r.segmentIds := by
    intro r
    unfold finish
    split <;> exact ⟨rfl, rfl⟩
  constructor
  · rintro ⟨r, hget, rfl⟩
    obtain ⟨hin, rfl⟩ := Table.mem_of_dictBy hget
    obtain ⟨r, hr, rfl⟩ := List.mem_map.1 hin
    exact ⟨r, hr, (hfinish r).1.symm, (hfinish r).2.symm⟩
  · rintro ⟨r, hr, rfl, rfl⟩
    obtain ⟨r', hget⟩ := Table.exists_of_dictBy Route.identity (mem_map_of_mem
      (f := finish (plan R) (resolveAll W db (plan R).families).resolved) hr)
    obtain ⟨hin, hidentity⟩ := Table.mem_of_dictBy hget
    obtain ⟨s, hs, rfl⟩ := List.mem_map.1 hin
    rw [(hfinish r).1, (hfinish s).1] at hidentity
    -- one Route for each identity
    obtain ⟨htour, hdays⟩ := Identity.mk.inj hidentity
    obtain rfl := eq_of_days hs hr htour hdays.1 hdays.2
    rw [(hfinish s).1] at hget
    exact ⟨_, hget, (hfinish s).2⟩

end shows

/-- Whatever rankings came before: an identity has one current row at most, at every moment of a run; ids are distinct and
no `INSERT` is refused; the versions of an identity grow; and after a run the current rows are the derived Routes. -/
theorem route_versions (events : List Event) :
    OneEach (run step Db.empty events).routes ∧ Growing (run step Db.empty events).routes.rows ∧
      ∀ (W : Mint) (R : Ranking),
        let db := run step Db.empty events
        (∃ report, (runRouteDetection W R db).2 = some report) ∧
        (∀ n, ∃ routes, db.during (db.finishedIn W R) n = some routes ∧ OneEach routes ∧ Growing routes.rows ∧
          (routes.rows.map Prod.fst).Nodup ∧ (db.routes.rows.map Prod.fst) <+: (routes.rows.map Prod.fst)) ∧
        ∀ i segmentIds,
          (∃ id row, (runRouteDetection W R db).1.Current id row ∧ row.identity = i ∧ row.segmentIds = segmentIds) ↔
            ∃ r ∈ deriveRoutes (R.rows.map RankedRow.moment), r.identity = i ∧ r.segmentIds = segmentIds := by
  have hkept := kept_run events
  refine ⟨hkept.one, hkept.growing, fun W R => ?_⟩
  intro db
  obtain ⟨report, hreport, hshows⟩ := run_shows hkept W R
  have hf : Finished (db.finishedIn W R) := finished_finishedBy (uuids_plan R) _
  refine ⟨⟨report, hreport⟩, fun n => ?_, fun i segmentIds => ?_⟩
  · obtain ⟨routes, hdur, hrows⟩ := during_eq hkept hf n
    have hduring := kept_during hkept hf hdur db.hubs
    refine ⟨routes, hdur, hduring.one, hduring.growing, routes.nodup, ?_⟩
    rw [hrows, map_append]
    refine ⟨_, congrArg₂ _ ?_ rfl⟩
    rw [supersede, Table.update, map_map]
    rfl
  · rw [← finishedIn_iff db W R]
    constructor
    · rintro ⟨id, row, hcur, rfl, rfl⟩
      obtain ⟨r, hget, hun⟩ := hshows.rows id row hcur
      simp only [unchanged, Bool.and_eq_true, decide_eq_true_eq] at hun
      exact ⟨r, hget, hun.1.1⟩
    · rintro ⟨r, hget, rfl⟩
      obtain ⟨id, row, hcur, hidentity⟩ := hshows.all i r hget
      obtain ⟨r', hget', hun⟩ := hshows.rows id row hcur
      rw [hidentity] at hget'
      obtain rfl := Option.some.inj (hget.symm.trans hget')
      simp only [unchanged, Bool.and_eq_true, decide_eq_true_eq] at hun
      exact ⟨id, row, hcur, hidentity, hun.1.1.symm⟩

end CisApp.Routes
