import CisApp.Lib.Json

/-!
# Equality of JSON values

Numbers are equal by value (`1` and `1.0`), objects whatever the order of their keys.  `sameValue true` is Python's
`==`, for which a boolean is a number too (`True == 1`); `sameValue false` keeps the two apart, as JSON does.
-/

namespace CisApp

def numberValue (mantissa : Int) (scale : Nat) : Rat := mantissa / 10 ^ scale

def boolValue (b : Bool) : Rat := if b then 1 else 0

mutual
def sameValue (boolsCount : Bool) : Json → Json → Bool
  | .null, .null => true
  | .bool a, .bool b => a == b
  | .bool a, .num m s => boolsCount && boolValue a == numberValue m s
  | .num m s, .bool b => boolsCount && numberValue m s == boolValue b
  | .num m s, .num m' s' => numberValue m s == numberValue m' s'
  | .str a, .str b => a == b
  | .arr xs, .arr ys => sameAll boolsCount xs ys
  | .obj kvs, .obj kvs' => kvs.length == kvs'.length && samePairs boolsCount kvs kvs'
  | _, _ => false

def sameAll (boolsCount : Bool) : List Json → List Json → Bool
  | [], [] => true
  | x :: xs, y :: ys => sameValue boolsCount x y && sameAll boolsCount xs ys
  | _, _ => false

def samePairs (boolsCount : Bool) : List (String × Json) → List (String × Json) → Bool
  | [], _ => true
  | (k, v) :: kvs, other =>
    (match other.lookup k with
      | some v' => sameValue boolsCount v v'
      | none => false) && samePairs boolsCount kvs other
end

mutual
theorem sameValue_python : ∀ {a b : Json}, sameValue false a b = true → sameValue true a b = true
  | .null, b, h => by cases b <;> simp_all [sameValue]
  | .bool _, b, h => by cases b <;> simp_all [sameValue]
  | .num _ _, b, h => by cases b <;> simp_all [sameValue]
  | .str _, b, h => by cases b <;> simp_all [sameValue]
  | .arr xs, .arr ys, h => by
    rw [sameValue] at h ⊢
    exact sameAll_python h
  | .obj kvs, .obj kvs', h => by
    rw [sameValue, Bool.and_eq_true] at h ⊢
    exact ⟨h.1, samePairs_python h.2⟩
  | .arr _, .null, h | .arr _, .bool _, h | .arr _, .num _ _, h | .arr _, .str _, h | .arr _, .obj _, h => by
    simp [sameValue] at h
  | .obj _, .null, h | .obj _, .bool _, h | .obj _, .num _ _, h | .obj _, .str _, h | .obj _, .arr _, h => by
    simp [sameValue] at h

theorem sameAll_python : ∀ {xs ys : List Json}, sameAll false xs ys = true → sameAll true xs ys = true
  | [], [], _ => rfl
  | x :: xs, y :: ys, h => by
    rw [sameAll, Bool.and_eq_true] at h ⊢
    exact ⟨sameValue_python h.1, sameAll_python h.2⟩
  | [], _ :: _, h => by simp [sameAll] at h
  | _ :: _, [], h => by simp [sameAll] at h

theorem samePairs_python : ∀ {kvs other : List (String × Json)},
    samePairs false kvs other = true → samePairs true kvs other = true
  | [], _, _ => by rw [samePairs]
  | (k, v) :: kvs, other, h => by
    rw [samePairs, Bool.and_eq_true] at h ⊢
    refine ⟨?_, samePairs_python h.2⟩
    cases hk : other.lookup k with
    | none =>
      rw [hk] at h
      exact h.1
    | some v' =>
      rw [hk] at h
      exact sameValue_python h.1
end

end CisApp
