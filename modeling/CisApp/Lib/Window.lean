import Mathlib

/-!
# Rolling windows

A log of dated entries and the part of it a limiter holds.  `recent` is what a
window of the given width shows at a time; `purge` drops entries from the front
of a queue, as a loop over a deque does.  The two agree on a log in time order
(`purge_eq_recent`), and a queue that was only ever appended to and purged still
holds every recent entry of the log (`Holds`).
-/

namespace CisApp.Window

open List

variable {ρ : Type} (time : ρ → Int) (width : Int)

/-- The entries less than `width` old. -/
def recent (now : Int) (l : List ρ) : List ρ := l.filter fun r => decide (now - time r < width)

/-- The entries at least `width` old leave at the front. -/
def purge (now : Int) (l : List ρ) : List ρ := l.dropWhile fun r => decide (width ≤ now - time r)

/-- In time order, and nothing dated after `now`. -/
structure Ordered (now : Int) (l : List ρ) : Prop where
  sorted : l.Pairwise fun a b => time a ≤ time b
  past : ∀ r ∈ l, time r ≤ now

/-- `held` is the log without entries that are too old. -/
def Holds (now : Int) (log held : List ρ) : Prop :=
  ∃ old, log = old ++ held ∧ ∀ r ∈ old, width ≤ now - time r

variable {time width} {now now' : Int} {l log held : List ρ} {r : ρ}

theorem mem_recent : r ∈ recent time width now l ↔ r ∈ l ∧ now - time r < width := by
  simp [recent]

theorem recent_later (h : now ≤ now') : (recent time width now' l).Sublist (recent time width now l) := by
  apply monotone_filter_right
  intro r hr
  simp only [decide_eq_true_eq] at hr ⊢
  omega

theorem recent_append (l l' : List ρ) :
    recent time width now (l ++ l') = recent time width now l ++ recent time width now l' :=
  filter_append ..

theorem recent_of_old (h : ∀ r ∈ l, width ≤ now - time r) : recent time width now l = [] := by
  unfold recent
  rw [filter_eq_nil_iff]
  intro r hr
  have := h r hr
  simp only [decide_eq_true_eq]
  omega

theorem recent_now (hr : time r = now) (hw : 0 < width) : recent time width now [r] = [r] := by
  unfold recent
  rw [filter_eq_self]
  intro r' hr'
  rw [mem_singleton.1 hr', hr, decide_eq_true_eq]
  omega

theorem Holds.recent (h : Holds time width now log held) : recent time width now log = recent time width now held := by
  obtain ⟨old, rfl, hold⟩ := h
  rw [recent_append, recent_of_old hold, nil_append]

theorem purge_eq_recent (h : l.Pairwise fun a b => time a ≤ time b) : purge time width now l = recent time width now l := by
  induction l with
  | nil => rfl
  | cons a l ih =>
    obtain ⟨hle, hl⟩ := pairwise_cons.1 h
    unfold purge recent
    by_cases ha : width ≤ now - time a
    · rw [dropWhile_cons_of_pos (by simpa using ha), filter_cons_of_neg (by simpa using ha)]
      exact ih hl
    · rw [dropWhile_cons_of_neg (by simpa using ha), eq_comm, filter_eq_self]
      intro b hb
      rw [decide_eq_true_eq]
      rcases mem_cons.1 hb with rfl | hb
      · omega
      · have := hle b hb
        omega

theorem Holds.refl : Holds time width now l l := ⟨[], rfl, nofun⟩

theorem Holds.purge (h : Holds time width now log held) : Holds time width now log (purge time width now held) := by
  obtain ⟨old, rfl, hold⟩ := h
  refine ⟨old ++ held.takeWhile fun r => decide (width ≤ now - time r), ?_, ?_⟩
  · rw [append_assoc]
    exact congrArg (old ++ ·) takeWhile_append_dropWhile.symm
  · intro r hr
    rcases mem_append.1 hr with hr | hr
    · exact hold r hr
    · simpa using mem_takeWhile_imp hr

theorem Holds.later (hle : now ≤ now') (h : Holds time width now log held) : Holds time width now' log held := by
  obtain ⟨old, he, hold⟩ := h
  refine ⟨old, he, fun r hr => ?_⟩
  have := hold r hr
  omega

theorem Holds.append (h : Holds time width now log held) (r : ρ) : Holds time width now (log ++ [r]) (held ++ [r]) := by
  obtain ⟨old, rfl, hold⟩ := h
  exact ⟨old, append_assoc .., hold⟩

theorem Ordered.later (hle : now ≤ now') (h : Ordered time now l) : Ordered time now' l :=
  ⟨h.sorted, fun r hr => le_trans (h.past r hr) hle⟩

theorem Ordered.append (h : Ordered time now l) (hr : time r = now) : Ordered time now (l ++ [r]) := by
  refine ⟨pairwise_append.2 ⟨h.sorted, pairwise_singleton .., ?_⟩, ?_⟩
  · intro a ha b hb
    rw [mem_singleton.1 hb, hr]
    exact h.past a ha
  · intro b hb
    rcases mem_append.1 hb with hb | hb
    · exact h.past b hb
    · rw [mem_singleton.1 hb, hr]

theorem Holds.sorted (h : Holds time width now log held) (ho : Ordered time now log) :
    held.Pairwise fun a b => time a ≤ time b := by
  obtain ⟨old, rfl, -⟩ := h
  exact (pairwise_append.1 ho.sorted).2.1

theorem Holds.purge_eq (h : Holds time width now log held) (ho : Ordered time now log) :
    Window.purge time width now held = Window.recent time width now log := by
  rw [purge_eq_recent (h.sorted ho), h.recent]

end CisApp.Window
