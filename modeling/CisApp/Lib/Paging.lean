import Mathlib

/-! Working through a list page by page, where a page is the first `n` items and the items that are held stay.

`rest n held l` is the list after one page.  Items held at the front are read again with every page, so an item
behind `n` of them is never reached: the pages come to an end with no item left to do if and only if no such item
has `n` held ones before it (`Within`). -/

namespace CisApp.Lib.Paging

open List

variable {α : Type} (n : Nat) (held : α → Bool)

def rest (l : List α) : List α := (l.take n).filter held ++ l.drop n

def Stuck (l : List α) : Prop := ∀ a ∈ l.take n, held a = true

/-- Fewer than `n` held items stand before an item to do. -/
def Within (l : List α) : Prop := ∀ before a after, l = before ++ a :: after → held a = false → before.countP held < n

variable {n held}

theorem within_iff_filter_append {page tail : List α} : Within n held (page.filter held ++ tail) ↔
      ∀ before a after, tail = before ++ a :: after → held a = false → page.countP held + before.countP held < n := by
  constructor
  · intro h before a after htail ha
    have := h (page.filter held ++ before) a after (by rw [htail, append_assoc]) ha
    rwa [countP_append, countP_filter, show (fun x => held x && held x) = held by
      funext x; exact Bool.and_self _] at this
  · intro h before a after hl ha
    rw [append_eq_append_iff] at hl
    rcases hl with ⟨mid, hbefore, htail⟩ | ⟨mid, hpage, htail⟩
    · rw [hbefore, countP_append, countP_filter, show (fun x => held x && held x) = held by
        funext x; exact Bool.and_self _]
      exact h mid a after htail ha
    · cases mid with
      | nil =>
        rw [append_nil] at hpage
        have := h [] a after (by simpa using htail.symm) ha
        rwa [← hpage, countP_filter, show (fun x => held x && held x) = held by
          funext x; exact Bool.and_self _]
      | cons b mid =>
        -- `a` would be a held item of the page
        rw [cons_append, List.cons.injEq] at htail
        have hmem : a ∈ page.filter held := by rw [hpage, htail.1]; simp
        rw [(mem_filter.1 hmem).2] at ha
        cases ha

theorem within_append {page tail : List α} (hpage : page.length ≤ n) : Within n held (page ++ tail) ↔
      ∀ before a after, tail = before ++ a :: after → held a = false → page.countP held + before.countP held < n := by
  constructor
  · intro h before a after htail ha
    have := h (page ++ before) a after (by rw [htail, append_assoc]) ha
    rwa [countP_append] at this
  · intro h before a after hl ha
    rw [append_eq_append_iff] at hl
    rcases hl with ⟨mid, hbefore, htail⟩ | ⟨mid, hpage', htail⟩
    · rw [hbefore, countP_append]
      exact h mid a after htail ha
    · have hcount := countP_le_length (p := held) (l := before)
      cases mid with
      | nil =>
        rw [append_nil] at hpage'
        have := h [] a after (by simpa using htail.symm) ha
        rwa [hpage'] at this
      | cons b mid =>
        rw [hpage', length_append, length_cons] at hpage
        omega

theorem within_rest (l : List α) : Within n held (rest n held l) ↔ Within n held l := by
  have hsplit : Within n held l ↔ Within n held (l.take n ++ l.drop n) := by rw [take_append_drop]
  rw [hsplit, within_append (by rw [length_take]; omega), rest, within_iff_filter_append]

theorem Stuck.all_iff {l : List α} (hstuck : Stuck n held l) : (∀ a ∈ l, held a = true) ↔ Within n held l := by
  constructor
  · intro h before a after hl ha
    rw [h a (by rw [hl]; simp)] at ha
    cases ha
  · intro h
    by_contra hnot
    push Not at hnot
    obtain ⟨a, hmem, ha⟩ := hnot
    -- the first item to do
    obtain ⟨before, b, after, hl, hb, hbefore⟩ : ∃ before b after, l = before ++ b :: after ∧ held b = false ∧
        ∀ c ∈ before, held c = true := by
      clear hstuck h
      induction l with
      | nil => cases hmem
      | cons c l ih =>
        by_cases hc : held c = true
        · have hne : a ≠ c := fun heq => ha (heq ▸ hc)
          obtain ⟨before, b, after, hl, hb, hbefore⟩ := ih ((mem_cons.1 hmem).resolve_left hne)
          refine ⟨c :: before, b, after, by rw [hl]; rfl, hb, fun d hd => ?_⟩
          rcases mem_cons.1 hd with rfl | hd
          · exact hc
          · exact hbefore d hd
        · exact ⟨[], c, l, rfl, by simpa using hc, nofun⟩
    have hcount : before.countP held = before.length := countP_eq_length.2 hbefore
    have hlt := h before b after hl hb
    -- so it is on the page, where every item is held
    obtain ⟨k, hk⟩ : ∃ k, n - before.length = k + 1 := ⟨n - before.length - 1, by omega⟩
    have : held b = true := hstuck b (by rw [hl, take_append, hk, take_succ_cons]; simp)
    rw [this] at hb
    cases hb

theorem length_rest_lt {l : List α} (h : ¬ Stuck n held l) : (rest n held l).length < l.length := by
  unfold Stuck at h
  push Not at h
  obtain ⟨a, hmem, ha⟩ := h
  have hlt : ((l.take n).filter held).length < (l.take n).length :=
    length_filter_lt_length_iff_exists.2 ⟨a, hmem, by simpa using ha⟩
  have hsplit := congrArg List.length (take_append_drop n l)
  rw [length_append] at hsplit
  rw [rest, length_append]
  omega

end CisApp.Lib.Paging
