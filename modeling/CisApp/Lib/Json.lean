import Mathlib

/-!
# JSON values as a `jsonb` column holds them

Numbers are decimals with the scale they were written with (`jsonb` keeps
`1.0` apart from `1`, and only the latter casts to an integer).  Objects are
association lists read at the first entry of a key; `merge` (the `||` of two
objects) keeps one entry for every key of either side and prefers the right.

`intAt o k d` is `coalesce((o->>'k')::int, d)`; its `none` is the error of a
value that is no integer, which aborts the statement it stands in.
-/

namespace CisApp

open List

inductive Json where
  | null
  | bool (b : Bool)
  | num (mantissa : Int) (scale : Nat)
  | str (s : String)
  | arr (xs : List Json)
  | obj (kvs : List (String × Json))
deriving Repr, Inhabited

abbrev JObj := List (String × Json)

/-- The value under a key (`->`). -/
def JObj.at? (o : JObj) (k : String) : Option Json := o.lookup k

/-- Both objects' keys, the right side's values first (`||`). -/
def JObj.merge (a b : JObj) : JObj := b ++ a.filter fun x => (b.lookup x.1).isNone

/-- The object without a key (`-`). -/
def JObj.erase (o : JObj) (k : String) : JObj := o.filter fun x => x.1 != k

theorem lookup_filter_fst (p : String → Bool) (o : JObj) (k : String) :
    (o.filter fun x => p x.1).lookup k = if p k then o.lookup k else none := by
  induction o with
  | nil => simp
  | cons x o ih =>
    obtain ⟨k', v⟩ := x
    by_cases hk : k = k'
    · subst hk
      by_cases hp : p k = true
      · simp [hp]
      · rw [filter_cons_of_neg (by simpa using hp), ih]
        simp [hp]
    · have hb : (k == k') = false := beq_eq_false_iff_ne.2 hk
      rw [lookup_cons, hb]
      by_cases hp : p k' = true
      · rw [filter_cons_of_pos (by simpa using hp), lookup_cons, hb]
        exact ih
      · rw [filter_cons_of_neg (by simpa using hp)]
        exact ih

@[simp] theorem JObj.at?_merge (a b : JObj) (k : String) : (a.merge b).at? k = (b.at? k).or (a.at? k) := by
  unfold JObj.merge JObj.at?
  rw [lookup_append, lookup_filter_fst (fun k => (b.lookup k).isNone)]
  cases b.lookup k <;> rfl

@[simp] theorem JObj.at?_erase (o : JObj) (k k' : String) : (o.erase k).at? k' = if k' = k then none else o.at? k' := by
  unfold JObj.erase JObj.at?
  rw [lookup_filter_fst (fun x => x != k)]
  by_cases h : k' = k <;> simp [h]

/-! ## Text and casts -/

/-- A decimal with its scale: `num 125 2` is `1.25`. -/
def decimalText (mantissa : Int) (scale : Nat) : String :=
  if scale = 0 then toString mantissa
  else
    let digits := toString mantissa.natAbs
    let padded := "".pushn '0' (scale + 1 - digits.length) ++ digits
    let cut := padded.length - scale
    (if mantissa < 0 then "-" else "") ++ (padded.take cut).toString ++ "." ++ (padded.drop cut).toString

/-- One character of a JSON string. -/
def escapeChar (c : Char) : String :=
  if c.toNat = 34 ∨ c.toNat = 92 then "\\" ++ c.toString
  else if c.toNat = 8 then "\\b"
  else if c.toNat = 9 then "\\t"
  else if c.toNat = 10 then "\\n"
  else if c.toNat = 12 then "\\f"
  else if c.toNat = 13 then "\\r"
  else if c.toNat < 32 then
    "\\u00" ++ (Nat.digitChar (c.toNat / 16)).toString ++ (Nat.digitChar (c.toNat % 16)).toString
  else c.toString

def quote (s : String) : String := "\"" ++ String.join (s.toList.map escapeChar) ++ "\""

mutual
/-- The text of a value, in `jsonb`'s own layout. -/
def Json.render : Json → String
  | .null => "null"
  | .bool b => if b then "true" else "false"
  | .num m s => decimalText m s
  | .str s => quote s
  | .arr xs => "[" ++ ", ".intercalate (renderAll xs) ++ "]"
  | .obj kvs => "\x7b" ++ ", ".intercalate (renderPairs kvs) ++ "\x7d"

def renderAll : List Json → List String
  | [] => []
  | x :: xs => x.render :: renderAll xs

def renderPairs : List (String × Json) → List String
  | [] => []
  | (k, v) :: kvs => (quote k ++ ": " ++ v.render) :: renderPairs kvs
end

/-- The text of a value read with `->>`: `null` has none, a string is not quoted. -/
def Json.text? : Json → Option String
  | .null => none
  | .str s => some s
  | j => some j.render

/-- The cast `text::int`: an optional sign and decimal digits, blanks around them. -/
def castInt (s : String) : Option Int :=
  let body := ((s.toList.dropWhile Char.isWhitespace).reverse.dropWhile Char.isWhitespace).reverse
  let digits := fun l : List Char =>
    if l ≠ [] ∧ l.all Char.isDigit then
      some (l.foldl (fun n c => n * 10 + ((c.toNat - '0'.toNat : Nat) : Int)) 0)
    else none
  match body with
  | '-' :: l => (digits l).map fun n => -n
  | '+' :: l => digits l
  | l => digits l

/-- The integer `coalesce((o->>k)::int, d)`; `none` when the cast raises. -/
def JObj.intAt (o : JObj) (k : String) (d : Int) : Option Int :=
  match o.at? k with
  | none => some d
  | some .null => some d
  | some (.num m 0) => some m
  | some (.str s) => castInt s
  | some _ => none

/-- A value followed by an array (`||` with an array on the right): a value
that is no array counts as an array of itself. -/
def Json.concatArr (j : Json) (xs : List Json) : List Json :=
  match j with
  | .arr ys => ys ++ xs
  | j => j :: xs

theorem JObj.intAt_of_num {o : JObj} {k : String} {n : Int} (h : o.at? k = some (.num n 0)) (d : Int) :
    o.intAt k d = some n := by
  unfold JObj.intAt
  rw [h]
  rfl

theorem JObj.intAt_congr {o o' : JObj} {k : String} (h : o.at? k = o'.at? k) (d : Int) : o.intAt k d = o'.intAt k d := by
  unfold JObj.intAt
  rw [h]

end CisApp
