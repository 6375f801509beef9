import CisApp.Lifecycle.Perform

/-!
# The notices to tenants

A tenant with a derivative of a retired key is sent `tour.discontinued`, and
`tour.reinstated` when the key is served again.  Each action announces the change
from the state it read when it began to the state it saw at its end, and looks for
outstanding warnings among the committed notices.

As long as nothing else on the key is committed while an action is open
(`Undisturbed`), warnings follow the served state (`undisturbed_warnings`).  With
two actions open at once they need not: both find the key paused and the tenant not
warned, both retire it, and the tenant is warned twice (`warned_twice`).
-/

namespace CisApp.Lifecycle

open Lib List

def Note.to (t : Tenant) (n : Note) : Bool := n.tenant = t

def Note.about (p : Tenant × Tour) (n : Note) : Bool := n.tenant = p.1 && n.entity = p.2

/-- Warnings follow the served state: nobody is left warned about a served key, and nobody is warned
twice in a row. -/
structure WarningsFollow (rows : Rows) (notes : List Note) : Prop where
  served : servedState rows = some .served → ∀ p n, latest notes p = some n → n.kind ≠ .discontinued
  once : ∀ t, (notes.filter (Note.to t)).IsChain fun a b =>
    ¬ (a.kind = .discontinued ∧ b.kind = .discontinued)

/-- The action that commits began after the last commit on the key. -/
def Undisturbed (s : Sys) : Label Request → Prop
  | .commit i => (s.txns.get? i).all (fun x => s.last < x.start) = true
  | _ => True

instance (s : Sys) (l : Label Request) : Decidable (Undisturbed s l) := by
  unfold Undisturbed
  split <;> infer_instance

/-! ## Reading the notices -/

theorem filter_about (p : Tenant × Tour) (l : List Note) :
    l.filter (Note.about p) = (l.filter (Note.to p.1)).filter fun n => n.entity = p.2 := by
  rw [filter_filter]
  congr 1
  funext n
  unfold Note.about Note.to
  rw [Bool.and_comm]

variable {notes : List Note}

theorem latest_eq_getLast? (hsorted : notes.Pairwise fun a b => a.createdAt ≤ b.createdAt) (p : Tenant × Tour) :
    latest notes p = (notes.filter (Note.about p)).getLast? := by
  have hrev : ((notes.filter (Note.about p)).reverse).Pairwise
      fun a b => b.createdAt ≤ a.createdAt :=
    pairwise_reverse.2 (hsorted.sublist filter_sublist)
  show Table.firstBy (fun a b : Note => b.createdAt ≤ a.createdAt)
    (notes.filter (Note.about p)).reverse = _
  rw [← List.head?_reverse]
  cases hl : (notes.filter (Note.about p)).reverse with
  | nil => rfl
  | cons a l =>
    rw [hl] at hrev
    rw [Table.firstBy]
    cases hf : Table.firstBy (fun a b : Note => b.createdAt ≤ a.createdAt) l with
    | none => rfl
    | some b =>
      have hmem : b ∈ l := by
        refine (Table.firstBy_spec _ ?_ ?_ l b hf).1
        · intro a b
          simp only [decide_eq_true_eq]
          omega
        · intro a b c
          simp only [decide_eq_true_eq]
          omega
      have hle := rel_of_pairwise_cons hrev hmem
      dsimp only
      rw [if_pos (by simpa using hle)]
      rfl

theorem mem_outstandingWarnings {tours : List Tour} {p : Tenant × Tour} : p ∈ outstandingWarnings notes tours ↔
      p.2 ∈ tours ∧ ∃ n, latest notes p = some n ∧ n.kind = .discontinued := by
  unfold outstandingWarnings
  rw [mem_filter, mem_dedup]
  have hkind : ((latest notes p).any fun n => n.kind = .discontinued) = true ↔
      ∃ n, latest notes p = some n ∧ n.kind = .discontinued := by
    cases latest notes p <;> simp
  rw [hkind]
  constructor
  · rintro ⟨hmem, hlatest⟩
    obtain ⟨n, hn, rfl⟩ := mem_map.1 hmem
    exact ⟨by simpa using (mem_filter.1 hn).2, hlatest⟩
  · rintro ⟨htour, n, hn, hdisc⟩
    refine ⟨?_, n, hn, hdisc⟩
    have hmem : n ∈ (notes.filter (Note.about p)).reverse := by
      refine (Table.firstBy_spec _ ?_ ?_ _ n hn).1
      · intro a b
        simp only [decide_eq_true_eq]
        omega
      · intro a b c
        simp only [decide_eq_true_eq]
        omega
    rw [mem_reverse, mem_filter] at hmem
    have habout : n.tenant = p.1 ∧ n.entity = p.2 := by simpa [Note.about] using hmem.2
    refine mem_map.2 ⟨n, mem_filter.2 ⟨hmem.1, ?_⟩, Prod.ext habout.1 habout.2⟩
    rw [habout.2]
    simpa using htour

theorem filter_to_map {α : Type} {l : List α} (f : α → Note) (t : Tenant) (hnodup : l.Nodup)
    (hone : ∀ a ∈ l, ∀ b ∈ l, (f a).tenant = t → (f b).tenant = t → a = b) :
    ((l.map f).filter (Note.to t) = [] ∧ ∀ a ∈ l, (f a).tenant ≠ t) ∨
      ∃ a ∈ l, (f a).tenant = t ∧ (l.map f).filter (Note.to t) = [f a] := by
  have hmem : ∀ a, a ∈ l.filter (Note.to t ∘ f) ↔ a ∈ l ∧ (f a).tenant = t := by
    intro a
    simp [Note.to]
  rw [filter_map]
  cases hl : l.filter (Note.to t ∘ f) with
  | nil =>
    refine Or.inl ⟨rfl, fun a ha hat => ?_⟩
    have := (hmem a).2 ⟨ha, hat⟩
    rw [hl] at this
    cases this
  | cons a rest =>
    right
    obtain ⟨ha, hat⟩ := (hmem a).1 (by rw [hl]; exact mem_cons_self)
    refine ⟨a, ha, hat, ?_⟩
    cases rest with
    | nil => rfl
    | cons b rest =>
      obtain ⟨hb, hbt⟩ := (hmem b).1 (by rw [hl]; simp)
      have hnodup' : (a :: b :: rest).Nodup := hl ▸ hnodup.filter _
      rw [hone a ha b hb hat hbt] at hnodup'
      simp at hnodup'

/-! ## The notices of one action -/

/-- The notices of a key between actions; `last` is when the last action was committed. -/
structure NotesInv (rows : Rows) (notes : List Note) (last : Nat) : Prop where
  sorted : notes.Pairwise fun a b => a.createdAt ≤ b.createdAt
  old : ∀ n ∈ notes, n.createdAt ≤ last
  known : ∀ n ∈ notes, (source? rows n.entity).isSome
  one : ∀ p n, (notes.filter (Note.about p)).getLast? = some n → n.kind = .discontinued →
    (notes.filter (Note.to p.1)).getLast? = some n
  once : ∀ t, (notes.filter (Note.to t)).IsChain fun a b =>
    ¬ (a.kind = .discontinued ∧ b.kind = .discontinued)
  served : servedState rows = some .served → ∀ p n,
    (notes.filter (Note.about p)).getLast? = some n → n.kind ≠ .discontinued

variable {rows : Rows}

theorem NotesInv.follow {last : Nat} (h : NotesInv rows notes last) : WarningsFollow rows notes := by
  refine ⟨fun hserved p n hn => ?_, h.once⟩
  rw [latest_eq_getLast? h.sorted] at hn
  exact h.served hserved p n hn

theorem to_of_about {p : Tenant × Tour} {n : Note} {l : List Note}
    (h : (l.filter (Note.about p)).getLast? = some n) : n ∈ l ∧ n.tenant = p.1 ∧ n.entity = p.2 := by
  have hmem := mem_filter.1 (mem_of_getLast? h)
  refine ⟨hmem.1, ?_⟩
  simpa [Note.about] using hmem.2

theorem about_of_to {t : Tenant} {n : Note} {l : List Note} (h : (l.filter (Note.to t)).getLast? = some n) :
    (l.filter (Note.about (t, n.entity))).getLast? = some n := by
  rw [filter_about]
  obtain ⟨init, hinit⟩ := List.getLast?_eq_some_iff.1 h
  show ((l.filter (Note.to t)).filter fun m => m.entity = n.entity).getLast? = some n
  rw [hinit, filter_append, filter_cons_of_pos (by simp)]
  simp

/-- What one tenant gets: nothing, a warning when it has none, or the end of the one it has. -/
inductive Gets (notes : List Note) (t : Tenant) : List Note → Prop
  | nothing : Gets notes t []
  | warning (n : Note) (hto : n.tenant = t) (hkind : n.kind = .discontinued)
      (hnew : ∀ m, (notes.filter (Note.to t)).getLast? = some m → m.kind ≠ .discontinued) :
      Gets notes t [n]
  | reinstated (n m : Note) (hto : n.tenant = t) (hkind : n.kind = .reinstated)
      (hlast : (notes.filter (Note.about (t, n.entity))).getLast? = some m)
      (hdisc : m.kind = .discontinued) : Gets notes t [n]

theorem NotesInv.append {rows' : Rows} {new : List Note} {last start now : Nat}
    (h : NotesInv rows notes last) (hfresh : last < start) (hnow : start ≤ now)
    (hdate : ∀ n ∈ new, n.createdAt = start) (hpersist : ∀ t, (source? rows t).isSome → (source? rows' t).isSome)
    (hknown : ∀ n ∈ new, (source? rows' n.entity).isSome) (hgets : ∀ t, Gets notes t (new.filter (Note.to t)))
    (hends : servedState rows' = some .served → ∀ n ∈ new, n.kind = .reinstated)
    (hserved : servedState rows' = some .served → ∀ p n,
      (notes.filter (Note.about p)).getLast? = some n → n.kind = .discontinued →
      ∃ r, new.filter (Note.to p.1) = [r] ∧ r.entity = p.2 ∧ r.kind = .reinstated) : NotesInv rows' (notes ++ new) now := by
  -- the last notice about a tour, after the new ones
  have habout : ∀ p n, ((notes ++ new).filter (Note.about p)).getLast? = some n →
      n.kind = .discontinued →
      (new.filter (Note.to p.1) = [] ∧ (notes.filter (Note.about p)).getLast? = some n) ∨
      (new.filter (Note.to p.1) = [n] ∧ n.entity = p.2) ∨
      (∃ r, new.filter (Note.to p.1) = [r] ∧ r.entity ≠ p.2 ∧
        (notes.filter (Note.about p)).getLast? = some n) := by
    intro p n hn hdisc
    rw [filter_about, filter_append, filter_append] at hn
    rw [filter_about]
    cases hget : new.filter (Note.to p.1) with
    | nil =>
      rw [hget, filter_nil, append_nil] at hn
      exact Or.inl ⟨rfl, hn⟩
    | cons r rest =>
      have hrest : rest = [] := by
        have := hgets p.1
        rw [hget] at this
        cases this <;> rfl
      subst hrest
      by_cases hr : r.entity = p.2
      · rw [hget, filter_cons_of_pos (by simpa using hr), filter_nil, List.getLast?_append_cons] at hn
        cases hn
        exact Or.inr (Or.inl ⟨rfl, hr⟩)
      · rw [hget, filter_cons_of_neg (by simpa using hr), filter_nil, append_nil] at hn
        exact Or.inr (Or.inr ⟨r, rfl, hr, hn⟩)
  refine ⟨?_, ?_, ?_, ?_, ?_, ?_⟩
  · rw [pairwise_append]
    refine ⟨h.sorted, pairwise_iff_forall_sublist.2 fun {a b} hsub => ?_, fun a ha b hb => ?_⟩
    · have hab := hsub.subset
      rw [hdate a (hab (by simp)), hdate b (hab (by simp))]
    · have := h.old a ha
      rw [hdate b hb]
      omega
  · intro n hn
    rcases mem_append.1 hn with hn | hn
    · have := h.old n hn
      omega
    · rw [hdate n hn]
      exact hnow
  · intro n hn
    rcases mem_append.1 hn with hn | hn
    · exact hpersist _ (h.known n hn)
    · exact hknown n hn
  · intro p n hn hdisc
    rw [filter_append]
    rcases habout p n hn hdisc with ⟨hnil, hold⟩ | ⟨hone, -⟩ | ⟨r, hone, hr, hold⟩
    · rw [hnil, append_nil]
      exact h.one p n hold hdisc
    · rw [hone]
      simp
    · -- the tenant was warned about this tour, so what it gets now is about this tour
      have hlast := h.one p n hold hdisc
      have hget := hgets p.1
      rw [hone] at hget
      cases hget with
      | warning _ _ _ hnew => exact absurd hdisc (hnew n hlast)
      | reinstated _ m _ _ hm hmdisc =>
        have hlast' := h.one (p.1, r.entity) m hm hmdisc
        rw [hlast] at hlast'
        cases hlast'
        have h₁ := (to_of_about hm).2.2
        have h₂ := (to_of_about hold).2.2
        exact absurd (h₁.symm.trans h₂) hr
  · intro t
    rw [filter_append]
    have hget := hgets t
    generalize new.filter (Note.to t) = l at hget
    cases hget with
    | nothing =>
      rw [append_nil]
      exact h.once t
    | warning n _ hkind hnew =>
      refine (h.once t).append (isChain_singleton n) ?_
      intro a ha b hb hab
      exact hnew a ha hab.1
    | reinstated n m _ hkind =>
      refine (h.once t).append (isChain_singleton n) ?_
      intro a ha b hb hab
      simp only [List.head?_cons, Option.mem_def, Option.some.injEq] at hb
      rw [← hb, hkind] at hab
      cases hab.2
  · intro hs p n hn hdisc
    rcases habout p n hn hdisc with ⟨hnil, hold⟩ | ⟨hone, hentity⟩ | ⟨r, hone, hr, hold⟩
    · obtain ⟨r, hr, -⟩ := hserved hs p n hold hdisc
      rw [hnil] at hr
      cases hr
    · have hmem : n ∈ new.filter (Note.to p.1) := by
        rw [hone]
        exact mem_singleton.2 rfl
      rw [hends hs n (mem_filter.1 hmem).1] at hdisc
      cases hdisc
    · obtain ⟨r', hr', hentity, -⟩ := hserved hs p n hold hdisc
      rw [hone] at hr'
      cases hr'
      exact hr hentity

theorem notices_cases (out : Outcome) (notes : List Note) :
    (out.notices notes = [] ∧ (out.after.map Liveness.state = some .served →
      out.before.map Liveness.state = some .served)) ∨ (out.after.map Liveness.state = some .retired ∧
      out.notices notes = (out.derivs.filter fun t =>
        t ∉ (outstandingWarnings notes out.tours).map Prod.fst).map fun t => (t, out.action.tour, .discontinued)) ∨
    (out.after.map Liveness.state = some .served ∧
      out.notices notes = (outstandingWarnings notes out.tours).map fun p => (p.1, p.2, .reinstated)) := by
  unfold Outcome.notices
  split
  · next hafter =>
    split
    · exact Or.inr (Or.inl ⟨hafter, rfl⟩)
    · exact Or.inl ⟨rfl, fun h => by rw [hafter] at h; cases h⟩
  · next hafter =>
    split
    · exact Or.inr (Or.inr ⟨hafter, rfl⟩)
    · next hbefore => exact Or.inl ⟨rfl, fun _ => by simpa using hbefore⟩
  · next hnot =>
    refine Or.inl ⟨rfl, fun h => absurd h ?_⟩
    exact hnot

theorem mem_tours {t : Tour} (h : (source? rows t).isSome) : t ∈ (versions rows).map Prod.fst := by
  obtain ⟨r, hr⟩ := Option.isSome_iff_exists.1 h
  exact mem_map.2 ⟨(t, r), mem_versions.2 hr, rfl⟩

theorem map_state_eq_served {a : Option Liveness} : a.map Liveness.state = some .served ↔ a = some .served := by
  cases a with
  | none => simp
  | some s => cases s <;> simp [Liveness.state]

theorem NotesInv.performed {d : Record} {rows' : Rows} {req : Request} {out : Outcome}
    {last start now : Nat} (h : NotesInv rows d.notes last) (hp : Performed d rows rows' req out)
    (hfresh : last < start) (hnow : start ≤ now) (hpersist : ∀ t, (source? rows t).isSome → (source? rows' t).isSome)
    (htour : (source? rows' req.action.tour).isSome) : NotesInv rows' (commitRecord d start out).notes now := by
  show NotesInv rows' (d.notes ++ out.notes.map fun n => ⟨n.1, n.2.1, n.2.2, start⟩) now
  -- every notice is about a version of the key, so the query for outstanding ones finds it
  have hout : ∀ p, p ∈ outstandingWarnings d.notes out.tours ↔
      ∃ n, (d.notes.filter (Note.about p)).getLast? = some n ∧ n.kind = .discontinued := by
    intro p
    rw [mem_outstandingWarnings, latest_eq_getLast? h.sorted]
    refine ⟨fun hp => hp.2, fun ⟨n, hn, hdisc⟩ => ⟨?_, n, hn, hdisc⟩⟩
    obtain ⟨hmem, -, hentity⟩ := to_of_about hn
    rw [hp.tours, ← hentity]
    exact mem_tours (hpersist _ (h.known n hmem))
  rw [hp.notes]
  rcases notices_cases out d.notes with ⟨hnil, hstays⟩ | ⟨hretired, hnew⟩ | ⟨-, hnew⟩
  · -- nothing is sent
    rw [hnil]
    refine h.append hfresh hnow (fun n hn => absurd hn not_mem_nil) hpersist
      (fun n hn => absurd hn not_mem_nil) (fun t => .nothing)
      (fun _ n hn => absurd hn not_mem_nil) ?_
    intro hs p n hn hdisc
    rw [hp.after, hp.before] at hstays
    have hbefore := map_state_eq_served.1 (hstays (map_state_eq_served.2 hs))
    exact absurd hdisc (h.served hbefore p n hn)
  · -- warnings
    have hsent : ((out.notices d.notes).map fun n => Note.mk n.1 n.2.1 n.2.2 start) =
        (out.derivs.filter fun t => t ∉ (outstandingWarnings d.notes out.tours).map Prod.fst).map
          fun t => ⟨t, out.action.tour, .discontinued, start⟩ := by
      rw [hnew, map_map]
      rfl
    rw [hsent]
    refine h.append hfresh hnow ?_ hpersist ?_ ?_ ?_ ?_
    · intro n hn
      obtain ⟨t, -, rfl⟩ := mem_map.1 hn
      rfl
    · intro n hn
      obtain ⟨t, -, rfl⟩ := mem_map.1 hn
      show (source? rows' out.action.tour).isSome
      rw [hp.action]
      exact htour
    · intro t
      have hnodup : (out.derivs.filter fun t =>
          t ∉ (outstandingWarnings d.notes out.tours).map Prod.fst).Nodup := by
        rw [hp.derivs]
        exact req.nodup.filter _
      rcases filter_to_map (fun t => ⟨t, out.action.tour, .discontinued, start⟩) t hnodup
          (fun a _ b _ hat hbt => hat.trans hbt.symm) with
        ⟨hnone, -⟩ | ⟨a, ha, hat, hone⟩
      · rw [hnone]
        exact .nothing
      · rw [hone]
        have hat : a = t := hat
        refine .warning _ hat rfl ?_
        intro m hm hdisc
        have hnot := (mem_filter.1 ha).2
        rw [decide_eq_true_eq] at hnot
        apply hnot
        rw [hat]
        exact mem_map.2 ⟨(t, m.entity), (hout _).2 ⟨m, about_of_to hm, hdisc⟩, rfl⟩
    · intro hs
      rw [hp.after, hs] at hretired
      cases hretired
    · intro hs
      rw [hp.after, hs] at hretired
      cases hretired
  · -- the ends of all outstanding warnings
    have hsent : ((out.notices d.notes).map fun n => Note.mk n.1 n.2.1 n.2.2 start) =
        (outstandingWarnings d.notes out.tours).map fun p => ⟨p.1, p.2, .reinstated, start⟩ := by
      rw [hnew, map_map]
      rfl
    rw [hsent]
    have hnodup : (outstandingWarnings d.notes out.tours).Nodup := (nodup_dedup _).filter _
    have hone : ∀ t, ∀ a ∈ outstandingWarnings d.notes out.tours,
        ∀ b ∈ outstandingWarnings d.notes out.tours, a.1 = t → b.1 = t → a = b := by
      intro t a ha b hb hat hbt
      obtain ⟨n, hn, hdisc⟩ := (hout a).1 ha
      obtain ⟨m, hm, hmdisc⟩ := (hout b).1 hb
      have h₁ := h.one a n hn hdisc
      have h₂ := h.one b m hm hmdisc
      rw [hat] at h₁
      rw [hbt, h₁] at h₂
      cases h₂
      exact Prod.ext (hat.trans hbt.symm) ((to_of_about hn).2.2.symm.trans (to_of_about hm).2.2)
    refine h.append hfresh hnow ?_ hpersist ?_ ?_ ?_ ?_
    · intro n hn
      obtain ⟨t, -, rfl⟩ := mem_map.1 hn
      rfl
    · intro n hn
      obtain ⟨p, hp, rfl⟩ := mem_map.1 hn
      obtain ⟨m, hm, -⟩ := (hout p).1 hp
      obtain ⟨hmem, -, hentity⟩ := to_of_about hm
      show (source? rows' p.2).isSome
      rw [← hentity]
      exact hpersist _ (h.known m hmem)
    · intro t
      rcases filter_to_map (fun p => ⟨p.1, p.2, .reinstated, start⟩) t hnodup (hone t) with ⟨hnone, -⟩ | ⟨a, ha, hat, hsingle⟩
      · rw [hnone]
        exact .nothing
      · rw [hsingle]
        obtain ⟨m, hm, hdisc⟩ := (hout a).1 ha
        refine .reinstated _ m hat rfl ?_ hdisc
        rw [← hat]
        exact hm
    · intro _ n hn
      obtain ⟨p, -, rfl⟩ := mem_map.1 hn
      rfl
    · intro _ p n hn hdisc
      have hmem : p ∈ outstandingWarnings d.notes out.tours := (hout p).2 ⟨n, hn, hdisc⟩
      rcases filter_to_map (fun p => ⟨p.1, p.2, .reinstated, start⟩) p.1 hnodup (hone p.1) with ⟨-, hnone⟩ | ⟨a, ha, hat, hsingle⟩
      · exact absurd rfl (hnone p hmem)
      · have hap : a = p := hone p.1 a ha p hmem hat rfl
        subst hap
        rw [hsingle]
        exact ⟨_, rfl, rfl, rfl⟩

theorem does_tour {d : Record} {rows' : Rows} {out : Outcome} {req : Request} (hkey : KeyInv rows)
    (h : lifecycle.Does d rows (lifecycle.data req) (program req.action) rows' out) :
    (source? rows' req.action.tour).isSome := by
  obtain ⟨hpersist, -⟩ := does_persist h
  -- the version, or its Master, is looked up first
  have hversion : ∀ t refuse rest, program req.action = .version t refuse :: rest →
      (source? rows t).isSome := by
    intro t refuse rest hprog
    rw [hprog] at h
    obtain ⟨e, hexec, -⟩ := h.next
    have hexec : exec d rows (lifecycle.data req) (.version t refuse) = .ok e := hexec
    simp only [exec] at hexec
    split at hexec
    · cases hexec
    · next v hv =>
      rw [hv]
      rfl
  have hmaster : ∀ t refuse reads rest, program req.action = reads ++ .master t refuse :: rest →
      (∀ st ∈ reads, st.reads = true) → (source? rows t).isSome := by
    intro t refuse reads rest hprog hreads
    rw [hprog] at h
    obtain ⟨rows₁, out₁, hread, hrest⟩ := h.append _ _ rfl
    obtain ⟨rfl, -⟩ := does_reads hread hreads
    obtain ⟨e, hexec, -⟩ := hrest.next
    have hexec : exec d rows₁ out₁ (.master t refuse) = .ok e := hexec
    simp only [exec] at hexec
    split at hexec
    · cases hexec
    · next m hm => exact hkey.based t (by rw [hm]; rfl)
  cases hreq : req.action with
  | retireSource t => exact hpersist t (hversion t _ _ (by rw [hreq]; rfl))
  | restoreSource t => exact hpersist t (hversion t _ _ (by rw [hreq]; rfl))
  | setActive t => exact hpersist t (hversion t _ _ (by rw [hreq]; rfl))
  | pauseMaster t => exact hpersist t (hmaster t _ [] _ (by rw [hreq]; rfl) (by simp))
  | activateMaster t =>
    exact hpersist t (hmaster t _ [.lockedSourceState t] _ (by rw [hreq]; rfl)
      (by simp [Statement.reads]))
  | trashMaster t => exact hpersist t (hmaster t _ [] _ (by rw [hreq]; rfl) (by simp))
  | restoreMaster t => exact hpersist t (hmaster t _ [] _ (by rw [hreq]; rfl) (by simp))
  | publish t =>
    apply hpersist t
    rw [hreq] at h
    obtain ⟨e₁, hexec₁, h₁⟩ := h.next
    have hexec₁ : exec d rows (lifecycle.data req) (.lockedSourceState t) = .ok e₁ := hexec₁
    simp only [exec] at hexec₁
    split at hexec₁
    · -- no source, and the check refuses
      cases hexec₁
      obtain ⟨e₂, hexec₂, -⟩ := h₁.next
      cases hexec₂
    · next v hv =>
      rw [hv]
      rfl
  | supersede decision new =>
    -- the new version is inserted
    obtain ⟨reads, status, hprog⟩ : ∃ pre status,
        program (.supersede decision new) = pre ++ .insertVersion new status :: cascade := by
      cases decision with
      | keepBoth => exact ⟨[_, _, _, _], _, rfl⟩
      | replace => exact ⟨[_, _, _, _, _], _, rfl⟩
      | update => exact ⟨[_, _, _, _, _], _, rfl⟩
    rw [hreq, hprog] at h
    obtain ⟨rows₁, out₁, -, hrest⟩ := h.append _ _ rfl
    obtain ⟨e, hexec, hlast⟩ := hrest.next
    have hexec : exec d rows₁ out₁ (.insertVersion new status) = .ok e := hexec
    simp only [exec] at hexec
    split at hexec
    · cases hexec
    · cases hexec
      refine (does_persist hlast).1 new ?_
      show (source? (rows₁.upsert _ _) new).isSome
      rw [source?_upsert, if_pos rfl]
      rfl

/-! ## Runs -/

structure WarnInv (s : Sys) : Prop where
  alone : AloneInv lifecycle s
  key : KeyInv s.rows
  notes : NotesInv s.rows s.shared.notes s.last

theorem WarnInv.step {s : Sys} (h : WarnInv s) {l : Label Request} (hl : Undisturbed s l) : WarnInv (step s l) := by
  have halone := h.alone.step l
  rcases commit_cases lifecycle s l with ⟨hrows, hshared, hlast⟩ |
    ⟨i, x, rfl, hx, hdone, hrows, hshared, hlast, -⟩
  · refine ⟨halone, ?_, ?_⟩
    · rw [hrows]
      exact h.key
    · rw [hrows, hshared, hlast]
      exact h.notes
  · have hfresh : s.last < x.start := by
      have hall : (s.txns.get? i).all (fun x => s.last < x.start) = true := hl
      rw [hx] at hall
      simpa using hall
    obtain ⟨req, hran⟩ := h.alone.alone i x hx hfresh
    have hdoes := hran.does hdone
    have hstart := h.alone.start i x hx
    refine ⟨halone, ?_, ?_⟩
    · rw [hrows]
      exact does_keyInv h.key hdoes
    · rw [hrows, hshared, hlast]
      exact h.notes.performed (does_performed hdoes) hfresh (by omega) (does_persist hdoes).1
        (does_tour h.key hdoes)

theorem warnInv_init {d : Record} (h : NeverServed rows) (hd : d.notes = []) : WarnInv (Sys.init rows d) := by
  refine ⟨aloneInv_init rows d, h.keyInv, ?_⟩
  show NotesInv rows d.notes 0
  rw [hd]
  refine ⟨List.Pairwise.nil, ?_, ?_, ?_, fun _ => List.IsChain.nil, ?_⟩
  · intro n hn
    cases hn
  · intro n hn
    cases hn
  · intro p n hn
    cases hn
  · intro _ p n hn
    cases hn

/-- **Warnings follow the served state** in every run in which an action is committed only if
nothing else on the key was since it began. -/
theorem undisturbed_warnings (rows : Rows) (d : Record) (h : NeverServed rows) (hd : d.notes = [])
    (ls : List (Label Request)) (hls : Along step Undisturbed (Sys.init rows d) ls) :
    Always step (fun s => WarningsFollow s.rows s.shared.notes) (Sys.init rows d) ls := by
  have hinv := Along.always (I := WarnInv) (fun _ _ hs hl => hs.step hl) (warnInv_init h hd) hls
  exact hinv.mono fun s hs => hs.notes.follow

/-- The labels of an action that runs by itself, in `n` statements. -/
def byItself (req : Request) (n : Nat) : List (Label Request) :=
  Label.start 0 req :: List.replicate n (Label.advance 0) ++ [Label.commit 0]

def heard (a : Action) : Request := ⟨a, [7], List.nodup_singleton 7⟩

/-- The Master is trashed, restored and set active again. -/
def trashRestore : List (Label Request) :=
  byItself (heard (.publish 1)) 8 ++ byItself (heard (.trashMaster 1)) 7 ++
    byItself (heard (.restoreMaster 1)) 7 ++ byItself (heard (.activateMaster 1)) 9

set_option maxRecDepth 100000 in
theorem undisturbed_warnings_restored :
    ((run step (Sys.init (ingested 1) ⟨[], []⟩) trashRestore).shared.notes.map Note.kind =
      [.discontinued, .reinstated]) ∧
    Always step (fun s => WarningsFollow s.rows s.shared.notes) (Sys.init (ingested 1) ⟨[], []⟩) trashRestore :=
  ⟨by decide +kernel, undisturbed_warnings (ingested 1) ⟨[], []⟩ (neverServed_ingested 1) rfl
    trashRestore (by decide +kernel)⟩

/-- The key is paused; one admin deletes the version while another trashes its Master. -/
def bothRetire : List (Label Request) :=
  byItself (heard (.publish 1)) 8 ++ byItself (heard (.pauseMaster 1)) 7 ++
    [Label.start 0 (heard (.retireSource 1)), Label.start 1 (heard (.trashMaster 1))] ++
    List.replicate 7 (Label.advance 0) ++ List.replicate 7 (Label.advance 1) ++ [Label.commit 0, Label.commit 1]

set_option maxRecDepth 100000 in
/-- Both found the key paused and the tenant not warned. -/
theorem warned_twice : (run step (Sys.init (ingested 1) ⟨[], []⟩) bothRetire).txns.rows.isEmpty = true ∧
    ¬ WarningsFollow (run step (Sys.init (ingested 1) ⟨[], []⟩) bothRetire).rows
      (run step (Sys.init (ingested 1) ⟨[], []⟩) bothRetire).shared.notes := by
  refine ⟨by decide +kernel, fun h => ?_⟩
  have hnotes : (run step (Sys.init (ingested 1) ⟨[], []⟩) bothRetire).shared.notes =
      [⟨7, 1, .discontinued, 5⟩, ⟨7, 1, .discontinued, 6⟩] := by decide +kernel
  have honce := h.once 7
  rw [hnotes] at honce
  simp [Note.to] at honce

end CisApp.Lifecycle
