import Mathlib.Data.List.Basic

/-!
# What a program sends

A program that may fail and keeps a log of what it sent runs in `Prog ε σ`, the
log being `sent : σ → List δ`.  `exec` runs it, and the `exec` lemmas are the
equations of a run.  `Emits sent P Q x` says that from every state the program
`x` appends to the log, also when it fails, and only events of `P`, and answers,
if it does, with a value of `Q`.

The rules of `Emits` follow the program: `pure`, `bind`, `throw`, a handler, a
loop.  `Answers` is for the parts of a run that must go through: the program
answers, and leaves a part of the state as it was.
-/

namespace CisApp.Lib

open List

/-- A program that may fail with an `ε`; its state outlives the failure. -/
abbrev Prog (ε σ : Type) := ExceptT ε (StateM σ)

variable {σ δ ε α β : Type}

def exec (x : Prog ε σ α) (s : σ) : Except ε α × σ := x.run.run s

@[simp] theorem exec_pure (a : α) (s : σ) : exec (pure a : Prog ε σ α) s = (.ok a, s) := rfl

theorem exec_bind (x : Prog ε σ α) (f : α → Prog ε σ β) (s : σ) :
    exec (x >>= f) s = match exec x s with
      | (.ok a, s') => exec (f a) s'
      | (.error e, s') => (.error e, s') := by
  show (ExceptT.bindCont f (x.run.run s).1).run (x.run.run s).2 = _
  unfold exec
  cases x.run.run s with
  | mk r s' => cases r <;> rfl

theorem exec_tryCatch (x : Prog ε σ α) (h : ε → Prog ε σ α) (s : σ) :
    exec (tryCatch x h) s = match exec x s with
      | (.ok a, s') => (.ok a, s')
      | (.error e, s') => exec (h e) s' := by
  show ((match (x.run.run s).1 with
    | .ok a => pure (.ok a)
    | .error e => (h e).run : StateM σ (Except ε α))).run (x.run.run s).2 = _
  unfold exec
  cases x.run.run s with
  | mk r s' => cases r <;> rfl

/-! ## Rules -/

variable {sent : σ → List δ} {P : δ → Prop}

/-- From every state: the log grows, by events of `P` only, and an answer is in `Q`. -/
def Emits (sent : σ → List δ) (P : δ → Prop) (Q : α → Prop) (x : Prog ε σ α) : Prop :=
  ∀ s, (∃ l, sent (exec x s).2 = sent s ++ l ∧ ∀ d ∈ l, P d) ∧ ∀ a, (exec x s).1 = .ok a → Q a

namespace Emits

variable {Q : α → Prop} {x : Prog ε σ α}

theorem mono {P' : δ → Prop} {Q' : α → Prop} (hx : Emits sent P Q x)
    (hP : ∀ d, P d → P' d) (hQ : ∀ a, Q a → Q' a) : Emits sent P' Q' x := by
  intro s
  obtain ⟨⟨l, h1, h2⟩, h3⟩ := hx s
  exact ⟨⟨l, h1, fun d hd => hP d (h2 d hd)⟩, fun a ha => hQ a (h3 a ha)⟩

theorem of_silent (hx : ∀ s, sent (exec x s).2 = sent s) (hQ : ∀ s a, (exec x s).1 = .ok a → Q a) : Emits sent P Q x := by
  intro s
  refine ⟨⟨[], ?_, fun d hd => ?_⟩, hQ s⟩
  · rw [hx s, append_nil]
  · cases hd

theorem pure {a : α} (ha : Q a) : Emits sent P Q (Pure.pure a : Prog ε σ α) := by
  refine of_silent (fun _ => rfl) fun s b hb => ?_
  cases hb
  exact ha

theorem throw (e : ε) : Emits sent P Q (throw e : Prog ε σ α) := by
  refine of_silent (fun _ => rfl) fun s b hb => ?_
  cases hb

theorem bind {Q' : β → Prop} {f : α → Prog ε σ β} (hx : Emits sent P Q x) (hf : ∀ a, Q a → Emits sent P Q' (f a)) :
    Emits sent P Q' (x >>= f) := by
  intro s
  obtain ⟨⟨l, h1, h2⟩, h3⟩ := hx s
  rw [exec_bind]
  rcases hr : exec x s with ⟨e | a, s'⟩
  · rw [hr] at h1
    refine ⟨⟨l, h1, h2⟩, fun b hb => ?_⟩
    cases hb
  · rw [hr] at h1 h3
    -- what follows an answer starts where the answer left the log
    obtain ⟨⟨l', h4, h5⟩, h6⟩ := hf a (h3 a rfl) s'
    refine ⟨⟨l ++ l', ?_, fun d hd => ?_⟩, h6⟩
    · show sent (exec (f a) s').2 = _
      rw [h4, h1, append_assoc]
    · rcases mem_append.1 hd with hd | hd
      · exact h2 d hd
      · exact h5 d hd

theorem tryCatch {h : ε → Prog ε σ α} (hx : Emits sent P Q x)
    (hh : ∀ e, Emits sent P Q (h e)) : Emits sent P Q (tryCatch x h) := by
  intro s
  obtain ⟨⟨l, h1, h2⟩, h3⟩ := hx s
  rw [exec_tryCatch]
  rcases hr : exec x s with ⟨e | a, s'⟩
  · rw [hr] at h1
    obtain ⟨⟨l', h4, h5⟩, h6⟩ := hh e s'
    refine ⟨⟨l ++ l', ?_, fun d hd => ?_⟩, h6⟩
    · show sent (exec (h e) s').2 = _
      rw [h4, h1, append_assoc]
    · rcases mem_append.1 hd with hd | hd
      · exact h2 d hd
      · exact h5 d hd
  · rw [hr] at h1 h3
    exact ⟨⟨l, h1, h2⟩, h3⟩

theorem ite {c : Prop} [Decidable c] {y : Prog ε σ α} (hx : c → Emits sent P Q x) (hy : ¬ c → Emits sent P Q y) :
    Emits sent P Q (if c then x else y) := by
  by_cases hc : c
  · rw [if_pos hc]
    exact hx hc
  · rw [if_neg hc]
    exact hy hc

theorem foldlM {Q : β → Prop} {f : β → α → Prog ε σ β} (l : List α) (b : β) (hb : Q b)
    (h : ∀ b, Q b → ∀ a ∈ l, Emits sent P Q (f b a)) : Emits sent P Q (l.foldlM f b) := by
  induction l generalizing b with
  | nil => exact pure hb
  | cons a l ih =>
    refine (h b hb a mem_cons_self).bind fun b' hb' => ?_
    exact ih b' hb' fun c hc a' ha' => h c hc a' (mem_cons_of_mem _ ha')

theorem grows (hx : Emits sent P Q x) (s : σ) {d : δ} (hd : d ∈ sent s) : d ∈ sent (exec x s).2 := by
  obtain ⟨⟨l, h1, -⟩, -⟩ := hx s
  rw [h1]
  exact mem_append_left _ hd

theorem mem_bind {Q : β → Prop} {f : α → Prog ε σ β} {s : σ} {d : δ}
    (hd : d ∈ sent (exec x s).2) (hf : ∀ a, Emits sent P Q (f a)) : d ∈ sent (exec (x >>= f) s).2 := by
  rw [exec_bind]
  rcases hr : exec x s with ⟨e | a, s'⟩
  · rw [hr] at hd
    exact hd
  · rw [hr] at hd
    exact (hf a).grows s' hd

theorem mem_tryCatch {h : ε → Prog ε σ α} {s : σ} {d : δ}
    (hd : d ∈ sent (exec x s).2) (hh : ∀ e, Emits sent P Q (h e)) : d ∈ sent (exec (MonadExcept.tryCatch x h) s).2 := by
  rw [exec_tryCatch]
  rcases hr : exec x s with ⟨e | a, s'⟩
  · rw [hr] at hd
    exact (hh e).grows s' hd
  · rw [hr] at hd
    exact hd

end Emits

/-! ## Programs that answer -/

/-- From every state the program answers, with a value of `Q`, and leaves `keep` as it
was. -/
def Answers {γ : Type} (keep : σ → γ) (Q : α → Prop) (x : Prog ε σ α) : Prop :=
  ∀ s, ∃ a s', exec x s = (.ok a, s') ∧ keep s' = keep s ∧ Q a

namespace Answers

variable {γ : Type} {keep : σ → γ}

variable {Q : α → Prop}

theorem pure {a : α} (ha : Q a) : Answers keep Q (Pure.pure a : Prog ε σ α) :=
  fun s => ⟨a, s, rfl, rfl, ha⟩

theorem andThen {x : Prog ε σ α} (hx : Answers keep Q x) (f : α → Prog ε σ β) (s : σ) :
    ∃ a s', exec (x >>= f) s = exec (f a) s' ∧ keep s' = keep s ∧ Q a := by
  obtain ⟨a, s', h, hk, ha⟩ := hx s
  refine ⟨a, s', ?_, hk, ha⟩
  rw [exec_bind, h]

theorem bind {Q' : β → Prop} {x : Prog ε σ α} {f : α → Prog ε σ β}
    (hx : Answers keep Q x) (hf : ∀ a, Q a → Answers keep Q' (f a)) : Answers keep Q' (x >>= f) := by
  intro s
  obtain ⟨a, s1, h1, hk1, ha⟩ := hx.andThen f s
  obtain ⟨b, s2, h2, hk2, hb⟩ := hf a ha s1
  exact ⟨b, s2, h1.trans h2, hk2.trans hk1, hb⟩

theorem ite {c : Prop} [Decidable c] {x y : Prog ε σ α} (hx : c → Answers keep Q x) (hy : ¬ c → Answers keep Q y) :
    Answers keep Q (if c then x else y) := by
  by_cases hc : c
  · rw [if_pos hc]
    exact hx hc
  · rw [if_neg hc]
    exact hy hc

theorem foldlM {f : β → α → Prog ε σ β} (l : List α) (b : β)
    (h : ∀ b, ∀ a ∈ l, Answers keep (fun _ => True) (f b a)) : Answers keep (fun _ => True) (l.foldlM f b) := by
  induction l generalizing b with
  | nil => exact pure trivial
  | cons a l ih =>
    refine (h b a mem_cons_self).bind fun b' _ => ?_
    exact ih b' fun c a' ha' => h c a' (mem_cons_of_mem _ ha')

end Answers

end CisApp.Lib
