import Mathlib.Data.Fintype.EquivFin
import Mathlib.Data.Set.Finite.Basic
import Mathlib.Logic.Relation
import Mathlib.Order.WellFounded

/-! What is on or below a cycle of a relation.

In a finite set where everything has something before it, everything is on a cycle or below one: following the relation backwards
never ends. -/

namespace CisApp.Lib

open Relation

variable {α : Type} {r s : α → α → Prop} {u v w : α}

/-- `v` is on a cycle, or reached from one. -/
def Below (r : α → α → Prop) (v : α) : Prop := ∃ c, TransGen r c c ∧ ReflTransGen r c v

theorem Below.of_cycle (h : TransGen r v v) : Below r v := ⟨v, h, ReflTransGen.refl⟩

theorem Below.step (h : Below r v) (hw : r v w) : Below r w := by
  obtain ⟨c, hc, hv⟩ := h
  exact ⟨c, hc, hv.tail hw⟩

theorem Below.pred (h : Below r v) : ∃ u, Below r u ∧ r u v := by
  obtain ⟨c, hc, hv⟩ := h
  rcases ReflTransGen.cases_tail hv with rfl | ⟨u, hu, huv⟩
  · obtain ⟨u, hu, huv⟩ := TransGen.tail'_iff.1 hc
    exact ⟨u, ⟨v, hc, hu⟩, huv⟩
  · exact ⟨u, ⟨c, hc, hu⟩, huv⟩

theorem Below.restrict (hrs : ∀ a b, Below r a → r a b → s a b) (h : Below r v) : Below s v := by
  obtain ⟨c, hc, hv⟩ := h
  have hpath : ∀ {x}, ReflTransGen r c x → ReflTransGen s c x := by
    intro x hx
    induction hx with
    | refl => exact ReflTransGen.refl
    | tail hb hbx ih => exact ih.tail (hrs _ _ ⟨c, hc, hb⟩ hbx)
  obtain ⟨b, hb, hbc⟩ := TransGen.tail'_iff.1 hc
  exact ⟨c, TransGen.tail'_iff.2 ⟨b, hpath hb, hrs b c ⟨c, hc, hb⟩ hbc⟩, hpath hv⟩

theorem Below.mono (hrs : ∀ a b, r a b → s a b) (h : Below r v) : Below s v := h.restrict fun a b _ => hrs a b

theorem exists_cycle {U : Set α} (hfin : U.Finite) (hne : U.Nonempty) (hpred : ∀ u ∈ U, ∃ w ∈ U, r w u) :
    ∃ c ∈ U, TransGen r c c := by
  by_contra hno
  have hirrefl : ∀ c ∈ U, ¬TransGen r c c := fun c hc h => hno ⟨c, hc, h⟩
  -- without a cycle the relation is a strict order of the finite set, so something comes first
  let before : U → U → Prop := fun a b => TransGen r a b
  have : IsTrans U before := ⟨fun _ _ _ hab hbc => TransGen.trans hab hbc⟩
  have : Std.Irrefl before := ⟨fun a h => hirrefl a a.2 h⟩
  have : Finite U := hfin
  obtain ⟨x, hx⟩ := hne
  obtain ⟨m, -, hmin⟩ := (Finite.wellFounded_of_trans_of_irrefl before).has_min Set.univ ⟨⟨x, hx⟩, trivial⟩
  obtain ⟨w, hw, hwm⟩ := hpred m m.2
  exact hmin ⟨w, hw⟩ trivial (TransGen.single hwm)

theorem below_of_preds {U : Set α} (hfin : U.Finite) (hpred : ∀ u ∈ U, ∃ w ∈ U, r w u) (hv : v ∈ U) : Below r v := by
  -- what leads to `v` has something before it that leads to `v`
  obtain ⟨c, ⟨-, hcv⟩, hc⟩ := exists_cycle (U := {u | u ∈ U ∧ ReflTransGen r u v}) (r := r)
    (hfin.subset fun u hu => hu.1) ⟨v, hv, ReflTransGen.refl⟩ fun u hu => by
      obtain ⟨w, hw, hwu⟩ := hpred u hu.1
      exact ⟨w, ⟨hw, ReflTransGen.head hwu hu.2⟩, hwu⟩
  exact ⟨c, hc, hcv⟩

end CisApp.Lib
