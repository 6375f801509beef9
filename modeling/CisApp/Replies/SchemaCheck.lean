import CisApp.Lib.JsonEq
import CisApp.Lib.Outcome

/-! The schema check of a structured reply (`shared/llm_client/schema_check.py`).

`conform` walks a value along a schema.  Where the schema asks for an object or an array and the value is a string, the
string is taken for the JSON text of one (models return nested objects that way), and the walk goes on in what it
decodes to.  What is returned is the value with those texts opened (`conform_opens`).

* `Strict` is what the schema says, with nothing encoded: types, enum, required and unexpected keys, parts.
* `strict_conform`: a strict value comes back as it is.
* `conform_strict_iff`: a returned value is strict, and is returned again, exactly when the opened value still is one of
  the enum's wherever the schema has an enum.  The enum is compared before the texts below are opened, and by Python's
  equality, so an enum on an object can pass a value that is not in it any more when it is returned
  (`enum_passed_before_opening`).

`loads` is `json.loads`; nothing here depends on what it returns. -/

namespace CisApp.Replies

open CisApp.Lib List

/-! ## Schemas -/

inductive ScalarType where
  | string
  | integer
  | number
  | boolean
deriving Repr, DecidableEq

/-- The keywords that `_conform` reads, each with the type it belongs to; `closed` is `additionalProperties: false`. -/
inductive Schema where
  | scalar (type : Option ScalarType) (enum : Option (List Json))
  | object (enum : Option (List Json)) (properties : List (String × Schema)) (required : List String) (closed : Bool)
  | array (enum : Option (List Json)) (items : Option Schema)

def Schema.enum : Schema → Option (List Json)
  | .scalar _ enum => enum
  | .object enum _ _ _ => enum
  | .array enum _ => enum

/-- `isinstance(value, _TYPES[expected])`; a number without a scale is an `int`, and a `bool` is neither. -/
def ScalarType.holds : ScalarType → Json → Bool
  | .string, .str _ => true
  | .integer, .num _ 0 => true
  | .number, .num _ _ => true
  | .boolean, .bool _ => true
  | _, _ => false

inductive Problem where
  | nonJsonString
  | wrongType
  | notInEnum
  | missing (key : String)
  | unexpected (keys : List String)
deriving Repr, DecidableEq

/-- `SchemaMismatch`: where, and what is wrong. -/
structure Mismatch where
  path : String
  problem : Problem
deriving Repr, DecidableEq

/-- `value in schema["enum"]`. -/
def inEnum (boolsCount : Bool) (enum : Option (List Json)) (v : Json) : Bool :=
  enum.all fun values => values.any (sameValue boolsCount v)

/-! ## conform -/

section

variable (loads : String → Option Json)

def decoded : Json → Option Json
  | .str text => loads text
  | v => some v

/-- The checks of an object before its parts. -/
def checkObject (enum : Option (List Json)) (known : String → Bool) (required : List String) (closed : Bool)
    (path : String) (kvs : List (String × Json)) : Except Mismatch Unit :=
  if !inEnum true enum (.obj kvs) then .error ⟨path, .notInEnum⟩
  else
    match required.find? fun k => (kvs.lookup k).isNone with
    | some k => .error ⟨path, .missing k⟩
    | none =>
      let extra := (kvs.map Prod.fst).filter fun k => !known k
      if closed && !extra.isEmpty then .error ⟨path, .unexpected (extra.dedup.insertionSort (· ≤ ·))⟩ else .ok ()

mutual
def conform : Schema → String → Json → Except Mismatch Json
  | .scalar type enum, path, v =>
    if !(type.all (·.holds v)) then .error ⟨path, .wrongType⟩
    else if !inEnum true enum v then .error ⟨path, .notInEnum⟩
    else .ok v
  | .object enum properties required closed, path, v =>
    match decoded loads v with
    | none => .error ⟨path, .nonJsonString⟩
    | some (.obj kvs) => do
      checkObject enum (fun k => (conformProperty properties k).isSome) required closed path kvs
      let kvs' ← kvs.mapM fun x =>
        match conformProperty properties x.1 with
        | none => Except.ok x
        | some f => (f (path ++ "." ++ x.1) x.2).map fun v' => (x.1, v')
      .ok (.obj kvs')
    | some _ => .error ⟨path, .wrongType⟩
  | .array enum items, path, v =>
    match decoded loads v with
    | none => .error ⟨path, .nonJsonString⟩
    | some (.arr xs) =>
      if !inEnum true enum (.arr xs) then .error ⟨path, .notInEnum⟩
      else
        match conformItems items with
        | none => .ok (.arr xs)
        | some f => do
          let xs' ← xs.zipIdx.mapM fun x => f (path ++ "[" ++ toString x.2 ++ "]") x.1
          .ok (.arr xs')
    | some _ => .error ⟨path, .wrongType⟩

/-- `_conform` with the schema of one property. -/
def conformProperty : List (String × Schema) → String → Option (String → Json → Except Mismatch Json)
  | [], _ => none
  | (name, s) :: properties, k => if k == name then some (conform s) else conformProperty properties k

def conformItems : Option Schema → Option (String → Json → Except Mismatch Json)
  | none => none
  | some s => some (conform s)
end

/-! ## What a schema says -/

mutual
/-- The value with every text opened that stands where an object or an array is expected. -/
def opened : Schema → Json → Json
  | .scalar _ _, v => v
  | .object _ properties _ _, v =>
    match (decoded loads v).getD v with
    | .obj kvs => .obj (kvs.map fun x => (x.1, openedProperty properties x.1 x.2))
    | v' => v'
  | .array _ items, v =>
    match (decoded loads v).getD v with
    | .arr xs => .arr (xs.map (openedItem items))
    | v' => v'

def openedProperty : List (String × Schema) → String → Json → Json
  | [], _, v => v
  | (name, s) :: properties, k, v => if k == name then opened s v else openedProperty properties k v

def openedItem : Option Schema → Json → Json
  | none, v => v
  | some s, v => opened s v
end

/-- The value satisfies the schema, and no part of it is encoded. -/
inductive Strict : Schema → Json → Prop
  | scalar {type : Option ScalarType} {enum : Option (List Json)} {v : Json}
      (htype : type.all (·.holds v) = true) (henum : inEnum false enum v = true) : Strict (.scalar type enum) v
  | object {enum : Option (List Json)} {properties : List (String × Schema)} {required : List String} {closed : Bool}
      {kvs : List (String × Json)} (henum : inEnum false enum (.obj kvs) = true)
      (hrequired : ∀ k ∈ required, (kvs.lookup k).isSome)
      (hclosed : closed = true → ∀ x ∈ kvs, (properties.lookup x.1).isSome)
      (hparts : ∀ x ∈ kvs, ∀ s, properties.lookup x.1 = some s → Strict s x.2) :
      Strict (.object enum properties required closed) (.obj kvs)
  | array {enum : Option (List Json)} {items : Option Schema} {xs : List Json}
      (henum : inEnum false enum (.arr xs) = true) (hparts : ∀ x ∈ xs, ∀ s, items = some s → Strict s x) :
      Strict (.array enum items) (.arr xs)

/-- Wherever the schema has an enum, the value there is one of its values. -/
inductive EnumsHold : Schema → Json → Prop
  | scalar {type : Option ScalarType} {enum : Option (List Json)} {v : Json} (henum : inEnum false enum v = true) :
      EnumsHold (.scalar type enum) v
  | object {enum : Option (List Json)} {properties : List (String × Schema)} {required : List String} {closed : Bool}
      {kvs : List (String × Json)} (henum : inEnum false enum (.obj kvs) = true)
      (hparts : ∀ x ∈ kvs, ∀ s, properties.lookup x.1 = some s → EnumsHold s x.2) :
      EnumsHold (.object enum properties required closed) (.obj kvs)
  | array {enum : Option (List Json)} {items : Option Schema} {xs : List Json}
      (henum : inEnum false enum (.arr xs) = true) (hparts : ∀ x ∈ xs, ∀ s, items = some s → EnumsHold s x) :
      EnumsHold (.array enum items) (.arr xs)

/-! ## The parts of a schema -/

mutual
theorem Schema.parts_induction {P : Schema → Prop} (hscalar : ∀ type enum, P (.scalar type enum))
    (hobject : ∀ enum properties required closed, (∀ k s, properties.lookup k = some s → P s) →
      P (.object enum properties required closed))
    (harray : ∀ enum items, (∀ s, items = some s → P s) → P (.array enum items)) : ∀ s, P s
  | .scalar type enum => hscalar type enum
  | .object enum properties required closed =>
    hobject enum properties required closed (Schema.properties_induction hscalar hobject harray properties)
  | .array enum none => harray enum none fun s hs => by cases hs
  | .array enum (some s) => harray enum (some s) fun s' hs => by
    obtain rfl := Option.some.inj hs
    exact Schema.parts_induction hscalar hobject harray s

theorem Schema.properties_induction {P : Schema → Prop} (hscalar : ∀ type enum, P (.scalar type enum))
    (hobject : ∀ enum properties required closed, (∀ k s, properties.lookup k = some s → P s) →
      P (.object enum properties required closed))
    (harray : ∀ enum items, (∀ s, items = some s → P s) → P (.array enum items)) :
    ∀ (properties : List (String × Schema)) k s, properties.lookup k = some s → P s
  | [], _, _, h => by cases h
  | (name, s') :: properties, k, s, h => by
    rw [List.lookup_cons] at h
    split at h
    · obtain rfl := Option.some.inj h
      exact Schema.parts_induction hscalar hobject harray s'
    · exact Schema.properties_induction hscalar hobject harray properties k s h
end

theorem conformProperty_eq (properties : List (String × Schema)) (k : String) :
    conformProperty loads properties k = (properties.lookup k).map (conform loads) := by
  induction properties with
  | nil => rw [conformProperty]; rfl
  | cons x properties ih =>
    rw [conformProperty, lookup_cons]
    cases k == x.1 with
    | true => rfl
    | false => exact ih

theorem conformItems_eq (items : Option Schema) : conformItems loads items = items.map (conform loads) := by
  cases items <;> rw [conformItems] <;> rfl

theorem openedProperty_eq (properties : List (String × Schema)) (k : String) (v : Json) :
    openedProperty loads properties k v = ((properties.lookup k).map (opened loads · v)).getD v := by
  induction properties with
  | nil => rw [openedProperty]; rfl
  | cons x properties ih =>
    rw [openedProperty, lookup_cons]
    cases k == x.1 with
    | true => rfl
    | false => exact ih

theorem checkObject_ok_iff {enum : Option (List Json)} {known : String → Bool} {required : List String} {closed : Bool}
    {path : String} {kvs : List (String × Json)} :
    checkObject enum known required closed path kvs = .ok () ↔
      inEnum true enum (.obj kvs) = true ∧ (∀ k ∈ required, (kvs.lookup k).isSome) ∧
        (closed = true → ∀ x ∈ kvs, known x.1 = true) := by
  have hextra : ((kvs.map Prod.fst).filter fun k => !known k).isEmpty = true ↔ ∀ x ∈ kvs, known x.1 = true := by
    simp
  unfold checkObject
  cases henum : inEnum true enum (.obj kvs) with
  | false => simp
  | true =>
    rw [if_neg (by simp)]
    cases hmiss : required.find? fun k => (kvs.lookup k).isNone with
    | some k =>
      refine iff_of_false (by simp) fun h => ?_
      have := h.2.1 k (List.mem_of_find?_eq_some hmiss)
      have hnone := List.find?_some hmiss
      rw [Option.isNone_iff_eq_none] at hnone
      rw [hnone] at this
      cases this
    | none =>
      have hall : ∀ k ∈ required, (kvs.lookup k).isSome := by
        intro k hk
        have := List.find?_eq_none.1 hmiss k hk
        simpa [Option.isSome_iff_ne_none] using this
      cases closed with
      | false =>
        exact iff_of_true rfl ⟨rfl, hall, fun h => by cases h⟩
      | true =>
        by_cases he : ((kvs.map Prod.fst).filter fun k => !known k).isEmpty = true
        · rw [if_neg (by simp [he])]
          exact iff_of_true rfl ⟨rfl, hall, fun _ => hextra.1 he⟩
        · rw [if_pos (by simp [he])]
          exact iff_of_false (by simp) fun h => he (hextra.2 (h.2.2 rfl))

/-! ## What conform returns -/

theorem conform_object_ok {enum : Option (List Json)} {properties : List (String × Schema)} {required : List String}
    {closed : Bool} {path : String} {v w : Json}
    (h : conform loads (.object enum properties required closed) path v = .ok w) :
    ∃ kvs kvs', decoded loads v = some (.obj kvs) ∧ w = .obj kvs' ∧ inEnum true enum (.obj kvs) = true ∧
      (∀ k ∈ required, (kvs.lookup k).isSome) ∧
      (closed = true → ∀ x ∈ kvs, (properties.lookup x.1).isSome) ∧
      List.Forall₂ (fun x y => y.1 = x.1 ∧ (properties.lookup x.1 = none → y.2 = x.2) ∧
        ∀ s, properties.lookup x.1 = some s → conform loads s (path ++ "." ++ x.1) x.2 = .ok y.2) kvs kvs' := by
  rw [conform] at h
  split at h
  · cases h
  · next kvs hdec =>
    obtain ⟨hcheck, h⟩ := seq_eq_ok_iff.1 h
    obtain ⟨kvs', hparts, h⟩ := bind_eq_ok_iff.1 h
    cases h
    obtain ⟨henum, hreq, hclosed⟩ := checkObject_ok_iff.1 hcheck
    refine ⟨kvs, kvs', hdec, rfl, henum, hreq, fun hc x hx => ?_, ?_⟩
    · have := hclosed hc x hx
      rw [conformProperty_eq, Option.isSome_map] at this
      exact this
    · refine (mapM_eq_ok_iff.1 hparts).imp fun x y hxy => ?_
      rw [conformProperty_eq] at hxy
      cases hs : properties.lookup x.1 with
      | none =>
        rw [hs] at hxy
        cases hxy
        exact ⟨rfl, fun _ => rfl, fun s hs => by cases hs⟩
      | some s =>
        rw [hs] at hxy
        obtain ⟨v', hv', rfl⟩ := map_eq_ok_iff.1 hxy
        refine ⟨rfl, fun hn => (by cases hn), fun s' hs' => ?_⟩
        obtain rfl := Option.some.inj hs'
        exact hv'
  · cases h

theorem conform_array_ok {enum : Option (List Json)} {items : Option Schema} {path : String} {v w : Json}
    (h : conform loads (.array enum items) path v = .ok w) :
    ∃ xs xs', decoded loads v = some (.arr xs) ∧ w = .arr xs' ∧ inEnum true enum (.arr xs) = true ∧
      List.Forall₂ (fun x y => (items = none → y = x) ∧
        ∀ s, items = some s → ∃ path, conform loads s path x = .ok y) xs xs' := by
  rw [conform] at h
  split at h
  · cases h
  · next xs hdec =>
    split at h
    · cases h
    · next henum =>
      refine ⟨xs, ?_⟩
      cases items with
      | none =>
        cases h
        refine ⟨xs, hdec, rfl, by simpa using henum, ?_⟩
        exact List.forall₂_same.2 fun x _ => ⟨fun _ => rfl, fun s hs => by cases hs⟩
      | some s =>
        obtain ⟨xs', hparts, h⟩ := bind_eq_ok_iff.1 h
        cases h
        refine ⟨xs', hdec, rfl, by simpa using henum, ?_⟩
        have hzip := mapM_eq_ok_iff.1 hparts
        have hfst : xs = xs.zipIdx.map Prod.fst := (zipIdx_map_fst 0 xs).symm
        rw [hfst]
        refine List.forall₂_map_left_iff.2 (hzip.imp fun x y hxy => ⟨fun hn => (by cases hn), fun s' hs' => ?_⟩)
        obtain rfl := Option.some.inj hs'
        exact ⟨_, hxy⟩
  · cases h

theorem conform_opens (s : Schema) : ∀ {path : String} {v w : Json},
    conform loads s path v = .ok w → w = opened loads s v := by
  induction s using Schema.parts_induction with
  | hscalar type enum =>
    intro path v w h
    rw [conform] at h
    split at h
    · cases h
    · split at h
      · cases h
      · cases h
        rw [opened]
  | hobject enum properties required closed ih =>
    intro path v w h
    obtain ⟨kvs, kvs', hdec, rfl, -, -, -, hparts⟩ := conform_object_ok loads h
    rw [opened, hdec]
    congr 1
    refine (forall₂_eq_eq_eq ▸ List.forall₂_map_left_iff.2 (hparts.imp fun x y hxy => ?_) : _ = kvs').symm
    obtain ⟨hkey, hother, hpart⟩ := hxy
    refine Prod.ext hkey.symm ?_
    show openedProperty loads properties x.1 x.2 = y.2
    rw [openedProperty_eq]
    cases hs : properties.lookup x.1 with
    | none => exact (hother hs).symm
    | some s => exact (ih x.1 s hs (hpart s hs)).symm
  | harray enum items ih =>
    intro path v w h
    obtain ⟨xs, xs', hdec, rfl, -, hparts⟩ := conform_array_ok loads h
    rw [opened, hdec]
    congr 1
    refine (forall₂_eq_eq_eq ▸ List.forall₂_map_left_iff.2 (hparts.imp fun x y hxy => ?_) : _ = xs').symm
    cases items with
    | none =>
      exact (hxy.1 rfl).symm
    | some s =>
      obtain ⟨path, hpath⟩ := hxy.2 s rfl
      exact (ih s rfl hpath).symm

theorem lookup_isSome_of_keys {kvs kvs' : List (String × Json)} (h : kvs'.map Prod.fst = kvs.map Prod.fst) (k : String) :
    (kvs'.lookup k).isSome = (kvs.lookup k).isSome := by
  induction kvs generalizing kvs' with
  | nil => rw [List.map_eq_nil_iff.1 h]
  | cons x kvs ih =>
    cases kvs' with
    | nil => cases h
    | cons y kvs' =>
      obtain ⟨hkey, hrest⟩ := List.cons.inj h
      rw [lookup_cons, lookup_cons, hkey]
      cases k == x.1 with
      | true => rfl
      | false => exact ih hrest

theorem exists_of_forall₂ {α β : Type} {R : α → β → Prop} {l : List α} {l' : List β} (h : List.Forall₂ R l l') {b : β}
    (hb : b ∈ l') : ∃ a ∈ l, R a b := by
  induction h with
  | nil => cases hb
  | cons hab _ ih =>
    rcases List.mem_cons.1 hb with rfl | hb
    · exact ⟨_, mem_cons_self, hab⟩
    · obtain ⟨a, ha, hR⟩ := ih hb
      exact ⟨a, mem_cons_of_mem _ ha, hR⟩

theorem strict_of_conform (s : Schema) : ∀ {path : String} {v w : Json},
    conform loads s path v = .ok w → EnumsHold s w → Strict s w := by
  induction s using Schema.parts_induction with
  | hscalar type enum =>
    intro path v w h henums
    rw [conform] at h
    split at h
    · cases h
    · next htype =>
      split at h
      · cases h
      · cases h
        cases henums with
        | scalar henum => exact .scalar (by simpa using htype) henum
  | hobject enum properties required closed ih =>
    intro path v w h henums
    obtain ⟨kvs, kvs', -, rfl, -, hreq, hclosed, hparts⟩ := conform_object_ok loads h
    have hkeys : kvs'.map Prod.fst = kvs.map Prod.fst := by
      clear hreq hclosed h henums
      induction hparts with
      | nil => rfl
      | cons hxy _ ih => rw [map_cons, map_cons, hxy.1, ih]
    cases henums with
    | object henum henums =>
      refine .object henum (fun k hk => ?_) (fun hc y hy => ?_) fun y hy s hs => ?_
      · rw [lookup_isSome_of_keys hkeys]
        exact hreq k hk
      · obtain ⟨x, hx, hkey, -⟩ := exists_of_forall₂ hparts hy
        rw [hkey]
        exact hclosed hc x hx
      · obtain ⟨x, hx, hkey, -, hpart⟩ := exists_of_forall₂ hparts hy
        exact ih y.1 s hs (hpart s (hkey ▸ hs)) (henums y hy s hs)
  | harray enum items ih =>
    intro path v w h henums
    obtain ⟨xs, xs', -, rfl, -, hparts⟩ := conform_array_ok loads h
    cases henums with
    | array henum henums =>
      refine .array henum fun y hy s hs => ?_
      obtain ⟨x, hx, -, hpart⟩ := exists_of_forall₂ hparts hy
      obtain ⟨path, hpath⟩ := hpart s hs
      exact ih s hs hpath (henums y hy s hs)

theorem Strict.enums {s : Schema} {v : Json} (h : Strict s v) : EnumsHold s v := by
  induction h with
  | scalar _ henum => exact .scalar henum
  | object henum _ _ _ ih => exact .object henum ih
  | array henum _ ih => exact .array henum ih

theorem inEnum_python {enum : Option (List Json)} {v : Json} (h : inEnum false enum v = true) :
    inEnum true enum v = true := by
  unfold inEnum at *
  cases enum with
  | none => rfl
  | some values =>
    rw [Option.all_some, any_eq_true] at *
    obtain ⟨x, hx, hsame⟩ := h
    exact ⟨x, hx, sameValue_python hsame⟩

theorem strict_conform {s : Schema} {v : Json} (h : Strict s v) (path : String) : conform loads s path v = .ok v := by
  induction h generalizing path with
  | scalar htype henum =>
    rw [conform, if_neg (by simp [htype]), if_neg (by simp [inEnum_python henum])]
  | @object enum properties required closed kvs henum hrequired hclosed hparts ih =>
    refine seq_eq_ok_iff.2 ⟨checkObject_ok_iff.2 ⟨inEnum_python henum, hrequired, fun hc x hx => ?_⟩, ?_⟩
    · rw [conformProperty_eq, Option.isSome_map]
      exact hclosed hc x hx
    · refine bind_eq_ok_iff.2 ⟨kvs, mapM_eq_ok_iff.2 (List.forall₂_same.2 fun x hx => ?_), rfl⟩
      rw [conformProperty_eq]
      cases hs : properties.lookup x.1 with
      | none => rfl
      | some s => exact map_eq_ok_iff.2 ⟨x.2, ih x hx s hs _, rfl⟩
  | @array enum items xs henum hparts ih =>
    rw [conform]
    dsimp only [decoded]
    rw [if_neg (by simp [inEnum_python henum]), conformItems_eq]
    cases items with
    | none => rfl
    | some s =>
      refine bind_eq_ok_iff.2 ⟨xs, mapM_eq_ok_iff.2 ?_, rfl⟩
      have hfst : xs = xs.zipIdx.map Prod.fst := (zipIdx_map_fst 0 xs).symm
      conv => rhs; rw [hfst]
      refine List.forall₂_map_right_iff.2 (List.forall₂_same.2 fun x hx => ih x.1 ?_ s rfl _)
      rw [hfst]
      exact mem_map_of_mem hx

/-- **The schema check.**  A strict value comes back as it is.  A value that is returned is strict, and is returned
again, exactly if it still is one of the enum's values, opened, wherever the schema has an enum. -/
theorem conform_strict_iff (s : Schema) (v : Json) :
    (∀ w, conform loads s "$" v = .ok w →
        (Strict s w ∧ conform loads s "$" w = .ok w ↔ EnumsHold s (opened loads s v))) ∧
      (Strict s v → conform loads s "$" v = .ok v) := by
  refine ⟨fun w hw => ?_, fun h => strict_conform loads h "$"⟩
  rw [← conform_opens loads s hw]
  constructor
  · exact fun h => h.1.enums
  · intro henums
    have hstrict := strict_of_conform loads s hw henums
    exact ⟨hstrict, strict_conform loads hstrict "$"⟩

end

/-- An enum on an object passes the value with a text in it; opened, the value is not in the enum, and is refused when
it comes again. -/
theorem enum_passed_before_opening :
    let loads : String → Option Json := fun text => if text = "\x7b\x7d" then some (.obj []) else none
    let part : Schema := .object none [] [] false
    let s : Schema := .object (some [.obj [("a", .str "\x7b\x7d")]]) [("a", part)] [] false
    let v : Json := .obj [("a", .str "\x7b\x7d")]
    let w : Json := .obj [("a", .obj [])]
    conform loads s "$" v = .ok w ∧ ¬ Strict s w ∧ conform loads s "$" w = .error ⟨"$", .notInEnum⟩ := by
  dsimp only
  refine ⟨rfl, fun h => ?_, rfl⟩
  cases h with
  | object henum _ _ _ => exact absurd henum (by decide)

end CisApp.Replies
