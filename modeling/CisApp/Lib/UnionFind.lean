import Mathlib.Data.List.Basic
import Mathlib.Logic.Relation

/-!
# Union-find with path halving

A forest is a parent function `p`; a root is its own parent.  `find` walks to
the root and points every node it visits at its grandparent, `union` points one
root at the other, without ranks.  Both take the number of steps they may walk.

* `Forest p root n`: `root` gives the root of every node, at most `n` steps away.
* `Forest.find`: with `n` steps `find` gives the root and keeps every root.
* `Forest.union`: a union joins two trees, and one step more is enough.
* `joinAll_classes`: after any list of unions two nodes have the same root
  exactly when the pairs of the list connect them, whatever the order.
-/

namespace CisApp.Lib

open Relation

variable {α : Type} [DecidableEq α]

/-- `while parent[x] != x: parent[x] = parent[parent[x]]; x = parent[x]`. -/
def find : Nat → (α → α) → α → α × (α → α)
  | 0, p, x => (x, p)
  | n + 1, p, x =>
    if p x = x then (x, p)
    else find n (Function.update p x (p (p x))) (p (p x))

/-- `parent[find(x)] = find(y)`; the right side is evaluated first. -/
def union (n : Nat) (p : α → α) (x y : α) : α → α :=
  let ry := find n p y
  let rx := find n ry.2 x
  Function.update rx.2 rx.1 ry.1

def joinAll (n : Nat) (p : α → α) (pairs : List (α × α)) : α → α :=
  pairs.foldl (fun p e => union n p e.1 e.2) p

/-- `find` of each node in turn. -/
def findAll (n : Nat) : (α → α) → List α → List α
  | _, [] => []
  | p, x :: xs => (find n p x).1 :: findAll n (find n p x).2 xs

/-! ## Forests -/

/-- `root` is the root of every node and `depth` bounds the way to it. -/
structure Ranked (p root : α → α) (depth : α → Nat) : Prop where
  top : ∀ x, p (root x) = root x
  up : ∀ x, root (p x) = root x
  self : ∀ x, p x = x → root x = x
  down : ∀ x, p x ≠ x → depth (p x) < depth x
  zero : ∀ x, p x = x → depth x = 0

def Forest (p root : α → α) (n : Nat) : Prop :=
  ∃ depth, Ranked p root depth ∧ ∀ x, depth x ≤ n

omit [DecidableEq α] in
theorem forest_id (n : Nat) : Forest (id : α → α) id n :=
  ⟨fun _ => 0, ⟨fun _ => rfl, fun _ => rfl, fun _ _ => rfl, fun _ h => absurd rfl h, fun _ _ => rfl⟩,
    fun _ => Nat.zero_le n⟩

omit [DecidableEq α] in
variable {p root : α → α} {n : Nat}

theorem Forest.mono {m : Nat} (h : Forest p root n) (hnm : n ≤ m) : Forest p root m := by
  obtain ⟨depth, hr, hd⟩ := h
  exact ⟨depth, hr, fun x => Nat.le_trans (hd x) hnm⟩

omit [DecidableEq α] in
variable {depth : α → Nat}

theorem Ranked.grand (h : Ranked p root depth) (x : α) (hx : p x ≠ x) : depth (p (p x)) < depth x := by
  have h1 := h.down x hx
  by_cases hp : p (p x) = p x
  · rw [hp]
    exact h1
  · exact Nat.lt_trans (h.down (p x) hp) h1

theorem Ranked.halve (h : Ranked p root depth) (x : α)
    (hx : p x ≠ x) : Ranked (Function.update p x (p (p x))) root depth := by
  have hlt := h.grand x hx
  have hne : p (p x) ≠ x := by
    intro he
    rw [he] at hlt
    exact Nat.lt_irrefl _ hlt
  have hfixed : ∀ y, Function.update p x (p (p x)) y = y → y ≠ x ∧ p y = y := by
    intro y hy
    by_cases hyx : y = x
    · rw [hyx, Function.update_self] at hy
      exact absurd hy hne
    · rw [Function.update_of_ne hyx] at hy
      exact ⟨hyx, hy⟩
  refine ⟨fun y => ?_, fun y => ?_, fun y hy => h.self y (hfixed y hy).2, fun y hy => ?_,
    fun y hy => h.zero y (hfixed y hy).2⟩
  · have hroot : root y ≠ x := by
      intro he
      have := h.top y
      rw [he] at this
      exact hx this
    rw [Function.update_of_ne hroot]
    exact h.top y
  · by_cases hyx : y = x
    · rw [hyx, Function.update_self, h.up, h.up]
    · rw [Function.update_of_ne hyx, h.up]
  · by_cases hyx : y = x
    · rw [hyx, Function.update_self]
      exact hlt
    · rw [Function.update_of_ne hyx] at hy ⊢
      exact h.down y hy

theorem Ranked.find (h : Ranked p root depth) (n : Nat) (x : α)
    (hx : depth x ≤ n) : (find n p x).1 = root x ∧ Ranked (find n p x).2 root depth := by
  induction n generalizing p x with
  | zero =>
    have hpx : p x = x := by
      by_contra hne
      have := h.down x hne
      omega
    exact ⟨(h.self x hpx).symm, h⟩
  | succ n ih =>
    unfold Lib.find
    by_cases hpx : p x = x
    · rw [if_pos hpx]
      exact ⟨(h.self x hpx).symm, h⟩
    · rw [if_neg hpx]
      have hd : depth (p (p x)) ≤ n := by
        have := h.grand x hpx
        omega
      obtain ⟨h1, h2⟩ := ih (h.halve x hpx) (p (p x)) hd
      refine ⟨?_, h2⟩
      rw [h1, h.up, h.up]

theorem Forest.find (h : Forest p root n) (m : Nat) (hm : n ≤ m) (x : α) :
    (find m p x).1 = root x ∧ Forest (find m p x).2 root n := by
  obtain ⟨depth, hr, hd⟩ := h
  obtain ⟨h1, h2⟩ := hr.find m x (Nat.le_trans (hd x) hm)
  exact ⟨h1, depth, h2, hd⟩

theorem Forest.findAll (h : Forest p root n) (m : Nat) (hm : n ≤ m) (xs : List α) : findAll m p xs = xs.map root := by
  induction xs generalizing p with
  | nil => rfl
  | cons x xs ih =>
    obtain ⟨h1, h2⟩ := h.find m hm x
    show (Lib.find m p x).1 :: Lib.findAll m (Lib.find m p x).2 xs = _
    rw [h1, ih h2]
    rfl

theorem Ranked.link (h : Ranked p root depth) (a b : α) (hab : root a ≠ root b) :
    Ranked (Function.update p (root a) (root b)) (fun z => if root z = root a then root b else root z)
      (fun z => if root z = root a then depth z + 1 else depth z) := by
  have hroot : ∀ z, root (root z) = root z := fun z => h.self _ (h.top z)
  have hfixed : ∀ z, Function.update p (root a) (root b) z = z → z ≠ root a ∧ p z = z := by
    intro z hz
    by_cases hza : z = root a
    · rw [hza, Function.update_self] at hz
      exact absurd hz.symm hab
    · rw [Function.update_of_ne hza] at hz
      exact ⟨hza, hz⟩
  have hother : ∀ z, z ≠ root a → p z = z → root z ≠ root a := by
    intro z hz hp he
    rw [h.self z hp] at he
    exact hz he
  refine ⟨fun z => ?_, fun z => ?_, fun z hz => ?_, fun z hz => ?_, fun z hz => ?_⟩
  · by_cases hz : root z = root a
    · simp only [hz, if_true]
      rw [Function.update_of_ne (Ne.symm hab)]
      exact h.top b
    · simp only [hz, if_false]
      rw [Function.update_of_ne hz]
      exact h.top z
  · by_cases hz : z = root a
    · rw [hz, Function.update_self]
      simp only [hroot, hab.symm, if_true, if_false]
    · rw [Function.update_of_ne hz]
      simp only [h.up]
  · obtain ⟨hza, hp⟩ := hfixed z hz
    simp only [hother z hza hp, if_false]
    exact h.self z hp
  · by_cases hza : z = root a
    · rw [hza, Function.update_self]
      simp only [hroot, hab.symm, if_true, if_false]
      rw [h.zero (root b) (h.top b)]
      omega
    · rw [Function.update_of_ne hza] at hz ⊢
      have hd := h.down z hz
      simp only [h.up]
      split <;> omega
  · obtain ⟨hza, hp⟩ := hfixed z hz
    simp only [hother z hza hp, if_false]
    exact h.zero z hp

theorem Forest.link (h : Forest p root n) (a b : α) (hab : root a ≠ root b) :
    Forest (Function.update p (root a) (root b)) (fun z => if root z = root a then root b else root z) (n + 1) := by
  obtain ⟨depth, hr, hd⟩ := h
  refine ⟨_, hr.link a b hab, fun x => ?_⟩
  have := hd x
  show (if root x = root a then depth x + 1 else depth x) ≤ n + 1
  split <;> omega

theorem Forest.union (h : Forest p root n) (m : Nat) (hm : n ≤ m) (a b : α) :
    Forest (union m p a b) (fun z => if root z = root a then root b else root z) (n + 1) := by
  obtain ⟨hb, h1⟩ := h.find m hm b
  obtain ⟨ha, h2⟩ := h1.find m hm a
  unfold Lib.union
  simp only [ha, hb]
  by_cases hab : root a = root b
  · obtain ⟨depth, hr, hd⟩ := h2
    have hsame : Function.update (Lib.find m (Lib.find m p b).2 a).2 (root a) (root b) =
        (Lib.find m (Lib.find m p b).2 a).2 := by
      rw [Function.update_eq_self_iff, ← hab, hr.top]
    have hroot : (fun z => if root z = root a then root b else root z) = root := by
      funext z
      split
      · next hz => rw [hz, hab]
      · rfl
    rw [hsame, hroot]
    exact ⟨depth, hr, fun x => Nat.le_succ_of_le (hd x)⟩
  · exact h2.link a b hab

/-! ## Classes -/

/-- The roots say what the pairs of `r` connect. -/
def Classes (root : α → α) (r : α → α → Prop) : Prop :=
  ∀ x y, root x = root y ↔ EqvGen r x y

omit [DecidableEq α] in
theorem classes_id : Classes (id : α → α) fun _ _ => False := by
  intro x y
  constructor
  · rintro (rfl : x = y)
    exact EqvGen.refl x
  · intro h
    induction h with
    | rel _ _ h => exact h.elim
    | refl _ => rfl
    | symm _ _ _ ih => exact ih.symm
    | trans _ _ _ _ _ ih1 ih2 => exact ih1.trans ih2

theorem Classes.join {r : α → α → Prop} (h : Classes root r) (a b : α) :
    Classes (fun z => if root z = root a then root b else root z) (fun x y => r x y ∨ x = a ∧ y = b) := by
  have hmono : ∀ x y, root x = root y → EqvGen (fun x y => r x y ∨ x = a ∧ y = b) x y :=
    fun x y hxy => EqvGen.mono (fun _ _ h => Or.inl h) x y ((h x y).1 hxy)
  have hab : EqvGen (fun x y => r x y ∨ x = a ∧ y = b) a b := EqvGen.rel _ _ (Or.inr ⟨rfl, rfl⟩)
  intro x y
  constructor
  · intro hxy
    by_cases hx : root x = root a
    · by_cases hy : root y = root a
      · exact hmono x y (hx.trans hy.symm)
      · simp only [hx, hy, if_true, if_false] at hxy
        exact (hmono x a hx).trans _ _ _ (hab.trans _ _ _ (hmono b y hxy))
    · by_cases hy : root y = root a
      · simp only [hx, hy, if_true, if_false] at hxy
        exact (hmono x b hxy).trans _ _ _
          ((hab.symm _ _).trans _ _ _ ((hmono y a hy).symm _ _))
      · simp only [hx, hy, if_false] at hxy
        exact hmono x y hxy
  · intro hxy
    induction hxy with
    | rel x y hr =>
      rcases hr with hr | ⟨rfl, rfl⟩
      · have := (h x y).2 (EqvGen.rel _ _ hr)
        simp only [this]
      · simp only [if_true]
        split <;> rfl
    | refl _ => rfl
    | symm _ _ _ ih => exact ih.symm
    | trans _ _ _ _ _ ih1 ih2 => exact ih1.trans ih2

theorem joinAll_classes (pairs : List (α × α)) (m : Nat) (hm : pairs.length ≤ m) :
    ∃ root, Forest (joinAll m id pairs) root m ∧ Classes root fun x y => (x, y) ∈ pairs := by
  have hmain : ∀ (l : List (α × α)) (n : Nat) (p root : α → α) (r : α → α → Prop),
      Forest p root n → Classes root r → n + l.length ≤ m →
      ∃ root', Forest (joinAll m p l) root' (n + l.length) ∧
        Classes root' fun x y => r x y ∨ (x, y) ∈ l := by
    intro l
    induction l with
    | nil =>
      intro n p root r hf hc _
      exact ⟨root, hf, by simpa using hc⟩
    | cons e l ih =>
      intro n p root r hf hc hn
      rw [List.length_cons] at hn ⊢
      obtain ⟨root', hf', hc'⟩ := ih (n + 1) _ _ _ (hf.union m (by omega) e.1 e.2)
        (hc.join e.1 e.2) (by omega)
      refine ⟨root', ?_, ?_⟩
      · rw [Nat.add_comm l.length, ← Nat.add_assoc]
        exact hf'
      · have hrel : (fun x y => (r x y ∨ x = e.1 ∧ y = e.2) ∨ (x, y) ∈ l) =
            fun x y => r x y ∨ (x, y) ∈ e :: l := by
          funext x y
          rw [List.mem_cons, Prod.ext_iff, or_assoc]
        rw [← hrel]
        exact hc'
  obtain ⟨root, hf, hc⟩ := hmain pairs 0 id id _ (forest_id 0) classes_id (by omega)
  refine ⟨root, hf.mono (by omega), ?_⟩
  simpa using hc

end CisApp.Lib
