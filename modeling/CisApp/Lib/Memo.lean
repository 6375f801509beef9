import Mathlib.Data.List.Basic

/-!
# A cache that changes nothing

A program that keeps a cache runs in `StateM σ`.  `Computes I x a` says that
from every cache in `I` the program `x` answers `a` and leaves a cache in `I`:
whatever was asked before, and in whatever order, the answer is the same.

The rules follow the program: `pure`, `bind`, `map` and the list loops with
their early exits.  `ask` is the lookup of a dictionary that computes a missing
entry; `Right` is its invariant, every entry for a query is the query's value.
-/

namespace CisApp.Lib

open List

variable {σ α β γ : Type} {I : σ → Prop}

/-- From every state of `I` the program answers `a` and stays in `I`. -/
def Computes (I : σ → Prop) (x : StateM σ α) (a : α) : Prop :=
  ∀ s, I s → (x.run s).1 = a ∧ I (x.run s).2

theorem Computes.pure (a : α) : Computes I (Pure.pure a : StateM σ α) a :=
  fun _ h => ⟨rfl, h⟩

variable {x : StateM σ α}

theorem Computes.bind {f : α → StateM σ β} {a : α} {b : β}
    (hx : Computes I x a) (hf : Computes I (f a) b) : Computes I (x >>= f) b := by
  intro s hs
  obtain ⟨h1, h2⟩ := hx s hs
  show ((f (x.run s).1).run (x.run s).2).1 = b ∧ I ((f (x.run s).1).run (x.run s).2).2
  rw [h1]
  exact hf _ h2

theorem Computes.map {a : α} (hx : Computes I x a) (f : α → β) : Computes I (f <$> x) (f a) := by
  intro s hs
  obtain ⟨h1, h2⟩ := hx s hs
  exact ⟨congrArg f h1, h2⟩

theorem Computes.eq_of_eq {a b : α} (hx : Computes I x a) (h : a = b) : Computes I x b := h ▸ hx

variable (l : List α)

theorem Computes.foldlM_of {P : β → Prop} {f : β → α → StateM σ β} {g : β → α → β}
    (b : β) (hb : P b) (h : ∀ b, P b → ∀ a ∈ l, Computes I (f b a) (g b a) ∧ P (g b a)) :
    Computes I (l.foldlM f b) (l.foldl g b) := by
  induction l generalizing b with
  | nil => exact Computes.pure b
  | cons a l ih =>
    obtain ⟨h1, h2⟩ := h b hb a mem_cons_self
    exact h1.bind (ih (g b a) h2 fun b' hb' a' h' => h b' hb' a' (mem_cons_of_mem _ h'))

theorem Computes.foldlM {f : β → α → StateM σ β} {g : β → α → β} (b : β)
    (h : ∀ b, ∀ a ∈ l, Computes I (f b a) (g b a)) : Computes I (l.foldlM f b) (l.foldl g b) := by
  have hstep : ∀ b, True → ∀ a ∈ l, Computes I (f b a) (g b a) ∧ True :=
    fun b _ a ha => ⟨h b a ha, trivial⟩
  exact Computes.foldlM_of l b trivial hstep

theorem Computes.anyM {p : α → StateM σ Bool} {q : α → Bool}
    (h : ∀ a ∈ l, Computes I (p a) (q a)) : Computes I (l.anyM p) (l.any q) := by
  induction l with
  | nil => exact Computes.pure false
  | cons a l ih =>
    rw [anyM_cons, any_cons]
    refine (h a mem_cons_self).bind ?_
    cases q a with
    | true => exact Computes.pure true
    | false => exact ih fun a' h' => h a' (mem_cons_of_mem _ h')

theorem Computes.allM {p : α → StateM σ Bool} {q : α → Bool}
    (h : ∀ a ∈ l, Computes I (p a) (q a)) : Computes I (l.allM p) (l.all q) := by
  induction l with
  | nil => exact Computes.pure true
  | cons a l ih =>
    rw [allM_cons, all_cons]
    refine (h a mem_cons_self).bind ?_
    cases q a with
    | true => exact ih fun a' h' => h a' (mem_cons_of_mem _ h')
    | false => exact Computes.pure false

theorem Computes.findSomeM {p : α → StateM σ (Option β)} {q : α → Option β}
    (h : ∀ a ∈ l, Computes I (p a) (q a)) : Computes I (l.findSomeM? p) (l.findSome? q) := by
  induction l with
  | nil => exact Computes.pure none
  | cons a l ih =>
    rw [List.findSomeM?_cons, List.findSome?_cons]
    refine (h a mem_cons_self).bind ?_
    cases q a with
    | some b => exact Computes.pure (some b)
    | none => exact ih fun a' h' => h a' (mem_cons_of_mem _ h')

/-! ## The dictionary -/

section Ask

variable {ι κ : Type} [DecidableEq κ]

/-- `d.get(key)`, and `d[key] = value` when it is missing. -/
def ask (key : κ) (value : β) : StateM (List (κ × β)) β := do
  match (← get).lookup key with
  | some b => return b
  | none =>
    modify ((key, value) :: ·)
    return value

/-- Every entry that answers a query of `Q` has the query's value. -/
def Right (Q : ι → Prop) (key : ι → κ) (value : ι → β) (d : List (κ × β)) : Prop :=
  ∀ q, Q q → ∀ b, d.lookup (key q) = some b → b = value q

theorem right_nil (Q : ι → Prop) (key : ι → κ) (value : ι → β) : Right Q key value [] :=
  nofun

theorem ask_computes {Q : ι → Prop} {key : ι → κ} {value : ι → β}
    (hkey : ∀ q q', Q q → Q q' → key q = key q' → value q = value q') (q : ι) (hq : Q q) :
    Computes (Right Q key value) (ask (key q) (value q)) (value q) := by
  intro d hd
  cases hl : d.lookup (key q) with
  | some b =>
    have hrun : (ask (key q) (value q)).run d = (b, d) := by
      simp [ask, hl]
      rfl
    rw [hrun]
    exact ⟨hd q hq b hl, hd⟩
  | none =>
    have hrun : (ask (key q) (value q)).run d = (value q, (key q, value q) :: d) := by
      simp [ask, hl]
      rfl
    rw [hrun]
    refine ⟨rfl, fun q' hq' b hb => ?_⟩
    by_cases hk : key q' = key q
    · rw [hk, lookup_cons_self] at hb
      cases hb
      exact hkey q q' hq hq' hk.symm
    · rw [lookup_cons, beq_eq_false_iff_ne.2 hk] at hb
      exact hd q' hq' b hb

end Ask

end CisApp.Lib
