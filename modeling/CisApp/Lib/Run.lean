import Mathlib

/-!
# Runs of a labelled step function

A system is a function `step : σ → α → σ`: the label `a` says which party acts
and with what arguments, so an interleaving is a list of labels.  `run` applies
the labels in order.  `Always I` is a safety property (`I` in every state
reached, the first one included) and `Along G` a property of the steps taken
(`G s a` each time the run takes `a` in `s`).

`Along.always` is the invariant rule: if every step that satisfies `G` keeps
`I`, a run whose steps satisfy `G` stays in `I`.  `Always.along` is the other
direction, for a `G` that a step of `I` into `I` must satisfy.
-/

namespace CisApp

open List

variable {σ α : Type} (step : σ → α → σ)

/-- The state after the labels `as`. -/
def run : σ → List α → σ
  | s, [] => s
  | s, a :: as => run (step s a) as

/-- Every state the run reaches satisfies `I`. -/
def Always (I : σ → Prop) : σ → List α → Prop
  | s, [] => I s
  | s, a :: as => I s ∧ Always I (step s a) as

/-- Every step the run takes satisfies `G`. -/
def Along (G : σ → α → Prop) : σ → List α → Prop
  | _, [] => True
  | s, a :: as => G s a ∧ Along G (step s a) as

instance Always.decidable (I : σ → Prop) [DecidablePred I] :
    ∀ (s : σ) (as : List α), Decidable (Always step I s as)
  | s, [] => inferInstanceAs (Decidable (I s))
  | s, a :: as =>
    have := Always.decidable I (step s a) as
    inferInstanceAs (Decidable (I s ∧ Always step I (step s a) as))

instance Along.decidable (G : σ → α → Prop) [∀ s a, Decidable (G s a)] :
    ∀ (s : σ) (as : List α), Decidable (Along step G s as)
  | _, [] => inferInstanceAs (Decidable True)
  | s, a :: as =>
    have := Along.decidable G (step s a) as
    inferInstanceAs (Decidable (G s a ∧ Along step G (step s a) as))

variable {step} {I : σ → Prop} {G H : σ → α → Prop}

variable {s : σ} {as : List α}

theorem Always.head (h : Always step I s as) : I s := by
  cases as with
  | nil => exact h
  | cons a as => exact h.1

theorem Always.mono {J : σ → Prop} (hIJ : ∀ s, I s → J s) (h : Always step I s as) : Always step J s as := by
  induction as generalizing s with
  | nil => exact hIJ s h
  | cons a as ih => exact ⟨hIJ s h.1, ih h.2⟩

theorem Always.and {J : σ → Prop} (hI : Always step I s as)
    (hJ : Always step J s as) : Always step (fun s => I s ∧ J s) s as := by
  induction as generalizing s with
  | nil => exact ⟨hI, hJ⟩
  | cons a as ih => exact ⟨⟨hI.1, hJ.1⟩, ih hI.2 hJ.2⟩

theorem Always.run (h : Always step I s as) : I (run step s as) := by
  induction as generalizing s with
  | nil => exact h
  | cons a as ih => exact ih h.2

theorem Along.always (hstep : ∀ s a, I s → G s a → I (step s a))
    (hs : I s) (h : Along step G s as) : Always step I s as := by
  induction as generalizing s with
  | nil => exact hs
  | cons a as ih => exact ⟨hs, ih (hstep s a hs h.1) h.2⟩

theorem Always.along (hstep : ∀ s a, I s → I (step s a) → G s a) (h : Always step I s as) : Along step G s as := by
  induction as generalizing s with
  | nil => trivial
  | cons a as ih => exact ⟨hstep s a h.1 h.2.head, ih h.2⟩

theorem run_append {bs : List α} : CisApp.run step s (as ++ bs) = CisApp.run step (CisApp.run step s as) bs := by
  induction as generalizing s with
  | nil => rfl
  | cons a as ih => exact ih

theorem along_append {bs : List α} :
    Along step G s (as ++ bs) ↔ Along step G s as ∧ Along step G (CisApp.run step s as) bs := by
  induction as generalizing s with
  | nil => exact ⟨fun h => ⟨trivial, h⟩, fun h => h.2⟩
  | cons a as ih =>
    show G s a ∧ Along step G (step s a) (as ++ bs) ↔ _
    rw [ih, ← and_assoc]
    rfl

theorem along_of_forall {P : α → Prop} (hP : ∀ a ∈ as, P a) : Along step (fun _ a => P a) s as := by
  induction as generalizing s with
  | nil => trivial
  | cons a as ih => exact ⟨hP a mem_cons_self, ih fun b hb => hP b (mem_cons_of_mem _ hb)⟩

theorem Along.and_forall {P : α → Prop} (h : Along step G s as)
    (hP : ∀ a ∈ as, P a) : Along step (fun s a => G s a ∧ P a) s as := by
  induction as generalizing s with
  | nil => trivial
  | cons a as ih =>
    exact ⟨⟨h.1, hP a mem_cons_self⟩, ih h.2 fun b hb => hP b (mem_cons_of_mem _ hb)⟩

theorem Along.mono (hGH : ∀ s a, G s a → H s a) (h : Along step G s as) : Along step H s as := by
  induction as generalizing s with
  | nil => trivial
  | cons a as ih => exact ⟨hGH s a h.1, ih h.2⟩

theorem Along.and (hG : Along step G s as) (hH : Along step H s as) : Along step (fun s a => G s a ∧ H s a) s as := by
  induction as generalizing s with
  | nil => trivial
  | cons a as ih => exact ⟨⟨hG.1, hH.1⟩, ih hG.2 hH.2⟩

theorem along_map {τ : Type} {base : τ → α → τ} {F : τ → α → Prop} (f : σ → τ)
    (hf : ∀ s a, f (step s a) = base (f s) a) : Along base F (f s) as ↔ Along step (fun s a => F (f s) a) s as := by
  induction as generalizing s with
  | nil => exact Iff.rfl
  | cons a as ih =>
    show F (f s) a ∧ Along base F (base (f s) a) as ↔ _
    rw [← hf s a, ih]
    rfl

theorem always_map {τ : Type} {base : τ → α → τ} {J : τ → Prop} (f : σ → τ)
    (hf : ∀ s a, f (step s a) = base (f s) a) : Always base J (f s) as ↔ Always step (fun s => J (f s)) s as := by
  induction as generalizing s with
  | nil => exact Iff.rfl
  | cons a as ih =>
    show J (f s) ∧ Always base J (base (f s) a) as ↔ _
    rw [← hf s a, ih]
    rfl

theorem Along.imp_of_always (hstep : ∀ s a, I s → G s a → H s a)
    (hI : Always step I s as) (h : Along step G s as) : Along step H s as := by
  induction as generalizing s with
  | nil => trivial
  | cons a as ih => exact ⟨hstep s a hI.1 h.1, ih hI.2 h.2⟩

theorem always_of_step (hstep : ∀ s a, I s → I (step s a)) (as : List α) (hs : I s) : Always step I s as := by
  induction as generalizing s with
  | nil => exact hs
  | cons a as ih => exact ⟨hs, ih (hstep s a hs)⟩

theorem run_of_step (hstep : ∀ s a, I s → I (step s a)) (as : List α) (hs : I s) : I (CisApp.run step s as) := (always_of_step hstep as hs).run

end CisApp
