import Mathlib.Logic.Basic

/-!
# SQL's truth values

`none` is NULL.  `IF c` takes its branch when `c` is true; a NULL does not take it, so a condition
that should raise stays silent when one of its comparisons meets a NULL.
-/

namespace CisApp

abbrev Tri := Option Bool

namespace Tri

def not : Tri → Tri
  | none => none
  | some b => some !b

def and : Tri → Tri → Tri
  | some false, _ => some false
  | _, some false => some false
  | some true, some true => some true
  | _, _ => none

def or : Tri → Tri → Tri
  | some true, _ => some true
  | _, some true => some true
  | some false, some false => some false
  | _, _ => none

/-- `a = b`. -/
def eq {α : Type} [DecidableEq α] (a b : Option α) : Tri :=
  match a, b with
  | some x, some y => some (decide (x = y))
  | _, _ => none

/-- What `IF` asks. -/
def holds (t : Tri) : Bool := t == some true

def fails (t : Tri) : Bool := t == some false

@[simp] theorem holds_some (b : Bool) : holds (some b) = b := by cases b <;> rfl

@[simp] theorem fails_some (b : Bool) : fails (some b) = !b := by cases b <;> rfl

@[simp] theorem holds_none : holds none = false := rfl

@[simp] theorem fails_none : fails none = false := rfl

@[simp] theorem holds_not (t : Tri) : (not t).holds = t.fails := by
  rcases t with _ | _ | _ <;> rfl

@[simp] theorem fails_not (t : Tri) : (not t).fails = t.holds := by
  rcases t with _ | _ | _ <;> rfl

@[simp] theorem holds_and (a b : Tri) : (and a b).holds = (a.holds && b.holds) := by
  rcases a with _ | _ | _ <;> rcases b with _ | _ | _ <;> rfl

@[simp] theorem fails_and (a b : Tri) : (and a b).fails = (a.fails || b.fails) := by
  rcases a with _ | _ | _ <;> rcases b with _ | _ | _ <;> rfl

@[simp] theorem holds_or (a b : Tri) : (or a b).holds = (a.holds || b.holds) := by
  rcases a with _ | _ | _ <;> rcases b with _ | _ | _ <;> rfl

@[simp] theorem fails_or (a b : Tri) : (or a b).fails = (a.fails && b.fails) := by
  rcases a with _ | _ | _ <;> rcases b with _ | _ | _ <;> rfl

@[simp] theorem holds_eq {α : Type} [DecidableEq α] (a : Option α) (b : α) :
    (eq a (some b)).holds = decide (a = some b) := by
  cases a with
  | none => rfl
  | some x => simp [eq]

@[simp] theorem fails_eq {α : Type} [DecidableEq α] (a : Option α) (b : α) :
    (eq a (some b)).fails = decide (a ≠ none ∧ a ≠ some b) := by
  cases a with
  | none => rfl
  | some x => simp [eq]

end Tri

end CisApp
