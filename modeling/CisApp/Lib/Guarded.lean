import CisApp.Lib.UnionFind
import Mathlib.Data.List.Sublists
import Mathlib.Order.Lattice
import Mathlib.Tactic.Ring

/-!
# Classes with at most one label

Nodes are joined pair by pair, and some of them are labelled.  Two classes are joined
unless they have different labels; the smaller root stays.  `Labelled` is what a
union-find keeps of this: the root of every node, and the label at a root.

`Fair` is what holds after any list of pairs: a class has the label of its nodes and
no other, two nodes of a class are connected by pairs inside it, and a pair that was
not joined still has different labels at both sides.
-/

namespace CisApp.Lib

open List

open Relation

/-! ## Pairs -/

section pairs

variable {ι : Type}

def pairsOf : List ι → List (ι × ι)
  | [] => []
  | a :: rest => rest.map (fun b => (a, b)) ++ pairsOf rest

theorem mem_pairsOf {l : List ι} {a b : ι} : (a, b) ∈ pairsOf l ↔ [a, b].Sublist l := by
  induction l with
  | nil => simp [pairsOf]
  | cons c l ih =>
    rw [pairsOf, mem_append, ih, mem_map]
    constructor
    · rintro (⟨b', hb', heq⟩ | hsub)
      · obtain ⟨rfl, rfl⟩ := Prod.mk.inj heq
        exact List.Sublist.cons_cons _ (singleton_sublist.2 hb')
      · exact hsub.cons c
    · intro hsub
      cases hsub with
      | cons _ h => exact Or.inr h
      | cons_cons _ h => exact Or.inl ⟨b, singleton_sublist.1 h, rfl⟩

theorem pairsOf_filter (p : ι → Bool) (l : List ι) : pairsOf (l.filter p) = (pairsOf l).filter fun e => p e.1 && p e.2 := by
  induction l with
  | nil => rfl
  | cons a l ih =>
    rw [pairsOf, filter_append, filter_map, ← ih]
    by_cases ha : p a = true
    · rw [filter_cons_of_pos ha, pairsOf]
      congr 2
      refine filter_congr fun b _ => ?_
      rw [Function.comp, ha, Bool.true_and]
    · rw [filter_cons_of_neg ha]
      have hnone : l.filter ((fun e : ι × ι => p e.1 && p e.2) ∘ fun b => (a, b)) = [] := by
        refine filter_eq_nil_iff.2 fun b _ hb => ha ?_
        rw [Function.comp, Bool.and_eq_true] at hb
        exact hb.1
      rw [hnone]
      rfl

theorem length_pairsOf (l : List ι) : (pairsOf l).length ≤ l.length * l.length := by
  induction l with
  | nil => exact Nat.zero_le _
  | cons a l ih =>
    rw [pairsOf, length_append, length_map, length_cons]
    have hsq : (l.length + 1) * (l.length + 1) = l.length * l.length + 2 * l.length + 1 := by ring
    omega

end pairs

/-! ## Classes -/

section classes

variable {α β : Type} [LinearOrder α] [DecidableEq β]

structure Labelled (α β : Type) where
  root : α → α
  label : α → Option β

def differ (x y : Option β) : Bool := x.isSome && y.isSome && x ≠ y

def Labelled.link (c : Labelled α β) (a b : α) : Labelled α β :=
  let x := c.label (c.root a)
  let y := c.label (c.root b)
  if c.root a = c.root b || differ x y then c
  else
    { root := fun z => if c.root z = max (c.root a) (c.root b) then min (c.root a) (c.root b) else c.root z
      label := Function.update c.label (min (c.root a) (c.root b)) (x.or y) }

/-- What the joins of the pairs `P` leave, for nodes labelled by `known`. -/
structure Fair (known : α → Option β) (P : α → α → Prop) (c : Labelled α β) : Prop where
  label : ∀ a x, known a = some x → c.label (c.root a) = some x
  known : ∀ a x, c.label (c.root a) = some x → ∃ b, c.root b = c.root a ∧ known b = some x
  chain : ∀ a b, c.root a = c.root b →
    ReflTransGen (fun u v => c.root u = c.root a ∧ c.root v = c.root a ∧ (P u v ∨ P v u)) a b
  apart : ∀ a b, P a b → c.root a = c.root b ∨
    ∃ x y, c.label (c.root a) = some x ∧ c.label (c.root b) = some y ∧ x ≠ y

variable {known : α → Option β} {P P' : α → α → Prop} {c : Labelled α β}

omit [LinearOrder α] [DecidableEq β] in
theorem fair_start (known : α → Option β) : Fair known (fun _ _ => False) ⟨id, known⟩ := by
  refine ⟨fun a x h => h, fun a x h => ⟨a, rfl, h⟩, ?_, fun a b h => h.elim⟩
  intro a b h
  rw [show a = b from h]

omit [LinearOrder α] [DecidableEq β] in
theorem Fair.skip (h : Fair known P c) {a b : α} (hab : c.root a = c.root b ∨
      ∃ x y, c.label (c.root a) = some x ∧ c.label (c.root b) = some y ∧ x ≠ y) :
    Fair known (fun u v => P u v ∨ u = a ∧ v = b) c := by
  refine ⟨h.label, h.known, fun u v huv => ?_, fun u v huv => ?_⟩
  · refine ReflTransGen.mono ?_ _ _ (h.chain u v huv)
    rintro s t ⟨hs, ht, hP | hP⟩
    · exact ⟨hs, ht, Or.inl (Or.inl hP)⟩
    · exact ⟨hs, ht, Or.inr (Or.inl hP)⟩
  · rcases huv with hP | ⟨rfl, rfl⟩
    · exact h.apart u v hP
    · exact hab

omit [DecidableEq β] in
theorem Fair.point (h : Fair known P c) {x y : α} {l : Option β}
    (hl : ∀ v, l = some v ↔ c.label (c.root x) = some v ∨ c.label (c.root y) = some v)
    (hmono : ∀ u v, P u v → P' u v) (hpair : P' x y ∨ P' y x)
    (hnew : ∀ u v, P' u v → P u v ∨ (u = x ∧ v = y) ∨ (u = y ∧ v = x)) :
    Fair known P' ⟨fun z => if c.root z = c.root x then c.root y else c.root z, Function.update c.label (c.root y) l⟩ := by
  obtain ⟨root', hroot'⟩ : ∃ root' : α → α, root' = fun z => if c.root z = c.root x then c.root y else c.root z :=
    ⟨_, rfl⟩
  have hx : root' x = c.root y := by
    rw [hroot']
    exact if_pos rfl
  have hy : root' y = c.root y := by
    rw [hroot']
    dsimp only
    split <;> rfl
  have hjoined : ∀ z, c.root z = c.root x → root' z = c.root y := by
    intro z hz
    rw [hroot']
    exact if_pos hz
  have hother : ∀ z, c.root z ≠ c.root x → root' z = c.root z := by
    intro z hz
    rw [hroot']
    exact if_neg hz
  have hclass : ∀ u v, c.root u = c.root v → root' u = root' v := by
    intro u v huv
    rw [hroot']
    dsimp only
    rw [huv]
  have hkeep : ∀ z v, c.label (c.root z) = some v → Function.update c.label (c.root y) l (root' z) = some v := by
    intro z v hv
    by_cases hzx : c.root z = c.root x
    · rw [hjoined z hzx, Function.update_self]
      exact (hl v).2 (Or.inl (hzx ▸ hv))
    · rw [hother z hzx]
      by_cases hzy : c.root z = c.root y
      · rw [hzy, Function.update_self]
        exact (hl v).2 (Or.inr (hzy ▸ hv))
      · rw [Function.update_of_ne hzy]
        exact hv
  rw [← hroot']
  refine ⟨fun a v hv => hkeep a v (h.label a v hv), fun a v hv => ?_, fun a b hab => ?_, fun a b hab => ?_⟩
  · dsimp only at hv ⊢
    by_cases hay : root' a = c.root y
    · rw [hay, Function.update_self] at hv
      rcases (hl v).1 hv with hv | hv
      · obtain ⟨b, hb, hknown⟩ := h.known x v hv
        exact ⟨b, (hjoined b hb).trans hay.symm, hknown⟩
      · obtain ⟨b, hb, hknown⟩ := h.known y v hv
        exact ⟨b, ((hclass b y hb).trans hy).trans hay.symm, hknown⟩
    · have hax : c.root a ≠ c.root x := fun heq => hay (hjoined a heq)
      rw [Function.update_of_ne hay, hother a hax] at hv
      obtain ⟨b, hb, hknown⟩ := h.known a v hv
      exact ⟨b, hclass b a hb, hknown⟩
  · dsimp only at hab ⊢
    -- chains inside the old classes stay, and the new pair connects the two
    have hlift : ∀ u v, root' u = root' a → c.root u = c.root v →
        ReflTransGen (fun s t => root' s = root' a ∧ root' t = root' a ∧ (P' s t ∨ P' t s)) u v := by
      intro u v hu huv
      refine ReflTransGen.mono ?_ _ _ (h.chain u v huv)
      rintro s t ⟨hs, ht, hP⟩
      exact ⟨(hclass s u hs).trans hu, (hclass t u ht).trans hu, hP.imp (hmono s t) (hmono t s)⟩
    by_cases heq : c.root a = c.root b
    · exact hlift a b rfl heq
    · by_cases hax : c.root a = c.root x
      · have ha := hjoined a hax
        have hb : c.root b = c.root y := by
          have hbx : c.root b ≠ c.root x := fun hbx => heq (hax.trans hbx.symm)
          rw [← hother b hbx, ← hab, ha]
        have hstep : root' x = root' a ∧ root' y = root' a ∧ (P' x y ∨ P' y x) :=
          ⟨hx.trans ha.symm, hy.trans ha.symm, hpair⟩
        exact ((hlift a x rfl hax).tail hstep).trans (hlift y b (hy.trans ha.symm) hb.symm)
      · have hbx : c.root b = c.root x := by
          by_contra hbx
          rw [hother a hax, hother b hbx] at hab
          exact heq hab
        have hay : c.root a = c.root y := by
          rw [← hother a hax, hab, hjoined b hbx]
        have ha := (hclass a y hay).trans hy
        have hstep : root' y = root' a ∧ root' x = root' a ∧ (P' y x ∨ P' x y) :=
          ⟨hy.trans ha.symm, hx.trans ha.symm, hpair.symm⟩
        exact ((hlift a y rfl hay).tail hstep).trans (hlift x b (hx.trans ha.symm) hbx.symm)
  · dsimp only
    rcases hnew a b hab with hP | ⟨rfl, rfl⟩ | ⟨rfl, rfl⟩
    · rcases h.apart a b hP with heq | ⟨v, w, hv, hw, hne⟩
      · exact Or.inl (hclass a b heq)
      · exact Or.inr ⟨v, w, hkeep a v hv, hkeep b w hw, hne⟩
    · exact Or.inl (hx.trans hy.symm)
    · exact Or.inl (hy.trans hx.symm)

theorem Fair.link (h : Fair known P c) (a b : α) : Fair known (fun u v => P u v ∨ u = a ∧ v = b) (c.link a b) := by
  unfold Labelled.link
  dsimp only
  split
  · next hskip =>
    refine h.skip ?_
    rw [Bool.or_eq_true, decide_eq_true_eq] at hskip
    refine hskip.imp_right fun hdiffer => ?_
    unfold differ at hdiffer
    rw [Bool.and_eq_true, Bool.and_eq_true, decide_eq_true_eq] at hdiffer
    obtain ⟨⟨hx, hy⟩, hne⟩ := hdiffer
    obtain ⟨x, hx⟩ := Option.isSome_iff_exists.1 hx
    obtain ⟨y, hy⟩ := Option.isSome_iff_exists.1 hy
    rw [hx, hy] at hne
    exact ⟨x, y, hx, hy, fun heq => hne (congrArg some heq)⟩
  · next hjoin =>
    rw [Bool.or_eq_true, decide_eq_true_eq, not_or] at hjoin
    obtain ⟨hab, hdiffer⟩ := hjoin
    have hl : ∀ v, (c.label (c.root a)).or (c.label (c.root b)) = some v ↔
        c.label (c.root a) = some v ∨ c.label (c.root b) = some v := by
      intro v
      cases hx : c.label (c.root a) with
      | none => simp
      | some x =>
        cases hy : c.label (c.root b) with
        | none => simp
        | some y =>
          have hxy : x = y := by
            by_contra hne
            refine hdiffer ?_
            unfold differ
            rw [hx, hy]
            simp [hne]
          simp [hxy]
    rcases lt_or_gt_of_ne hab with hlt | hlt
    · rw [min_eq_left hlt.le, max_eq_right hlt.le]
      refine h.point (x := b) (y := a) (fun v => (hl v).trans Or.comm) (fun u v hP => Or.inl hP)
        (Or.inr (Or.inr ⟨rfl, rfl⟩)) fun u v hP => hP.imp_right fun hnew => Or.inr hnew
    · rw [min_eq_right hlt.le, max_eq_left hlt.le]
      exact h.point (x := a) (y := b) hl (fun u v hP => Or.inl hP) (Or.inl (Or.inr ⟨rfl, rfl⟩))
        fun u v hP => hP.imp_right fun hnew => Or.inl hnew

def Labelled.links (c : Labelled α β) (pairs : List (α × α)) : Labelled α β :=
  pairs.foldl (fun c e => c.link e.1 e.2) c

theorem fair_links (known : α → Option β) (pairs : List (α × α)) :
    Fair known (fun u v => (u, v) ∈ pairs) ((⟨id, known⟩ : Labelled α β).links pairs) := by
  unfold Labelled.links
  induction pairs using List.reverseRecOn with
  | nil =>
    have h := fair_start known
    have hnone : (fun u v : α => (u, v) ∈ ([] : List (α × α))) = fun _ _ => False := by
      funext u v
      exact eq_false not_mem_nil
    rw [hnone]
    exact h
  | append_singleton pairs e ih =>
    have hpair : (fun u v : α => (u, v) ∈ pairs ++ [e]) = fun u v => (u, v) ∈ pairs ∨ u = e.1 ∧ v = e.2 := by
      funext u v
      rw [mem_append, mem_singleton, Prod.ext_iff]
    rw [foldl_concat, hpair]
    exact ih.link e.1 e.2

/-! ## Nodes that are in no pair -/

/-- The same classes, and the same labels where `K` holds; a node outside is alone. -/
structure Agree (K : α → Prop) (c d : Labelled α β) : Prop where
  root : c.root = d.root
  label : ∀ a, K a → c.label a = d.label a
  inside : ∀ a, K a → K (c.root a)
  outside : ∀ a, ¬K a → c.root a = a

theorem Agree.link {K : α → Prop} {c d : Labelled α β} (h : Agree K c d) {a b : α} (ha : K a) (hb : K b) :
    Agree K (c.link a b) (d.link a b) := by
  have hra := h.inside a ha
  have hrb := h.inside b hb
  have hmin : K (min (c.root a) (c.root b)) := by
    rcases min_choice (c.root a) (c.root b) with heq | heq <;> rw [heq]
    · exact hra
    · exact hrb
  have hmax : K (max (c.root a) (c.root b)) := by
    rcases max_choice (c.root a) (c.root b) with heq | heq <;> rw [heq]
    · exact hra
    · exact hrb
  unfold Labelled.link
  dsimp only
  rw [← h.root, ← h.label _ hra, ← h.label _ hrb]
  split
  · exact h
  · refine ⟨rfl, fun z hz => ?_, fun z hz => ?_, fun z hz => ?_⟩
    · dsimp only
      by_cases hzr : z = min (c.root a) (c.root b)
      · rw [hzr, Function.update_self, Function.update_self]
      · rw [Function.update_of_ne hzr, Function.update_of_ne hzr]
        exact h.label z hz
    · dsimp only
      split
      · exact hmin
      · exact h.inside z hz
    · dsimp only
      rw [h.outside z hz, if_neg]
      intro heq
      exact hz (heq ▸ hmax)

theorem agree_links {K : α → Prop} {f g : α → Option β} (hlabel : ∀ a, K a → f a = g a) {pairs : List (α × α)}
    (hpairs : ∀ e ∈ pairs, K e.1 ∧ K e.2) :
    Agree K ((⟨id, f⟩ : Labelled α β).links pairs) ((⟨id, g⟩ : Labelled α β).links pairs) := by
  unfold Labelled.links
  induction pairs using List.reverseRecOn with
  | nil => exact ⟨rfl, hlabel, fun a ha => ha, fun a _ => rfl⟩
  | append_singleton pairs e ih =>
    rw [foldl_concat, foldl_concat]
    have he := hpairs e (mem_append_right _ mem_cons_self)
    exact (ih fun e' he' => hpairs e' (mem_append_left _ he')).link he.1 he.2

end classes

end CisApp.Lib
