import CisApp.Places.Dedupe

/-!
# The plan without its cache

What `plan_country` computes, with every decision computed where it is used.
The decision of a pair is symmetric and an id is the id of one row, so what the
cache holds under the ids of a pair is the decision of the pair, whoever asked
first: `planCountry_eq` says that the function with the cache computes the plan
below, and everything after it is about that plan.
-/

namespace CisApp.Places

open Lib List

def Input.Known (I : Input) (x : Row) : Prop := x ∈ I.rows ∨ ∃ k, x ∈ I.merged k

theorem Input.eq_of_id {I : Input} {x y : Row} (hx : I.Known x) (hy : I.Known y) (h : x.id = y.id) : x = y := I.determined x y hx hy h

section

variable (R : Rules) (I : Input)

/-! ## Decisions -/

def dec (x y : Row) : Decision := R.decide (I.context R) x y

def edge (x y : Row) : Option String := edgeBy I x y (dec R I x y)

def clash (x y : Row) : Option String :=
  if I.verdicts (pairKey x.id y.id) = some .different then some "verdict_different"
  else clashBy (dec R I x y)

def firstClash (pairs : List (Row × Row)) : Option (String × String × String) :=
  pairs.findSome? fun p => (clash R I p.1 p.2).map (p.1.id, p.2.id, ·)

def bundlesClash (x y : Row × String) : Bool :=
  (across I x.1 y.1).any fun p => (clash R I p.1 p.2).isSome

def largestConsistent {α : Type} (cands : List α) (clash : α → α → Bool) : List α :=
  if cands.length ≤ maxExactSubset then
    ((subsets cands).findSome? fun combo =>
      if (pairsOf combo).all (fun p => !clash p.1 p.2) then some combo else none).getD []
  else
    cands.foldl (fun out c => if out.all (fun o => !clash c o) then out ++ [c] else out) []

/-! ## Clusters -/

/-- The members with an edge of their own to the keeper, without the manual ones. -/
def candidates (k : Row) (members : List Row) : List (Row × String) :=
  members.filterMap fun m => if m.manual then none else (edge R I k m).map (m, ·)

def skippedOf (k : Row) (members : List Row) : List (String × String) :=
  members.filterMap fun m =>
    if m.manual then (edge R I k m).map fun _ => (m.id, k.id) else none

def why (k m : Row) : Option (String × String × String) :=
  match hidesLine k m with
  | some hidden => some (m.id, k.id, hidden)
  | none => firstClash R I (across I m k)

/-- The candidates that hide no line and clash with nothing of the keeper's. -/
def clear (k : Row) (cands : List (Row × String)) : List (Row × String) :=
  cands.filter fun c => (why R I k c.1).isNone

def cutByKeeper (k : Row) (cands : List (Row × String)) : List Cut :=
  (cands.filter fun c => (why R I k c.1).isSome).map fun c => (c.1, why R I k c.1)

def cutByMembers (chosen left : List (Row × String)) : List Cut :=
  left.map fun m => (m.1, firstClash R I (chosen.flatMap fun c => across I m.1 c.1))

/-- The members merged into the keeper `k`. -/
def chosen (k : Row) (members : List Row) : List (Row × String) :=
  largestConsistent (clear R I k (candidates R I k members)) (bundlesClash R I)

/-- The merges, the conflicts and the skipped rows of a sorted cluster. -/
def clusterPlan : List Row → List Merge × List Conflict × List (String × String)
  | [] => ([], [], [])
  | k :: rest =>
    if rest = [] then ([], [], [])
    else
      let members := (k :: rest).filter (·.id ≠ k.id)
      let cands := candidates R I k members
      let ch := chosen R I k members
      ( ch.map fun c => mergeOf R I k c.1 c.2 (dec R I k c.1),
        (cutByKeeper R I k cands ++ cutByMembers R I ch (leftOut (clear R I k cands) ch)).map
          (conflictOf k),
        skippedOf R I k members )

/-- The loop over the candidate pairs. -/
def scan (fuel : Nat) (pairs : List (Row × Row)) : Scan :=
  pairs.foldl (fun s p => s.note I fuel p (dec R I p.1 p.2) (edge R I p.1 p.2)) {}

/-- The sorted clusters. -/
def sortedClusters : List (List Row) :=
  let pairs := candidatePairs R I.rows
  (clusters I pairs.length (scan R I pairs.length pairs).parent).map (sortBy (keeperKey R))

/-- The plan. -/
def plan : Plan where
  merges := sortBy (fun m => (toLex (m.keeperId, m.mergedId) : String ×ₗ String))
    ((sortedClusters R I).flatMap fun g => (clusterPlan R I g).1)
  llmNeeded :=
    let pairs := candidatePairs R I.rows
    sortBy (fun x => (toLex (-x.2.2, toLex (x.1, x.2.1)) : Rat ×ₗ String ×ₗ String))
      (scan R I pairs.length pairs).llmNeeded
  possible :=
    let pairs := candidatePairs R I.rows
    (scan R I pairs.length pairs).possible
  conflicts := sortBy (fun c => (toLex (c.keeperId, c.destinationId) : String ×ₗ String))
    ((sortedClusters R I).flatMap fun g => (clusterPlan R I g).2.1)
  defects :=
    let pairs := candidatePairs R I.rows
    (scan R I pairs.length pairs).defects
  skipped := (sortedClusters R I).flatMap fun g => (clusterPlan R I g).2.2

/-! ## The cache is transparent -/

theorem decide_symm (ctx : Ctx) (a b : Row) : R.decide ctx a b = R.decide ctx b a := by
  unfold Rules.decide
  rcases lt_trichotomy a.id b.id with h | h | h
  · have h1 : ¬ b.id < a.id := not_lt.2 h.le
    simp [h, h1, ne_of_lt h]
  · simp [h]
  · have h1 : ¬ a.id < b.id := not_lt.2 h.le
    simp [h, h1, ne_of_lt h]

theorem pairKey_comm (a b : String) : pairKey a b = pairKey b a := by
  unfold pairKey
  rcases lt_trichotomy a b with h | h | h
  · simp [h.le, not_le.2 h]
  · simp [h]
  · simp [h.le, not_le.2 h]

theorem pairKey_eq_iff (a b c d : String) : pairKey a b = pairKey c d ↔ (a = c ∧ b = d) ∨ (a = d ∧ b = c) := by
  constructor
  · intro h
    unfold pairKey at h
    split at h
    · split at h
      · exact .inl (Prod.ext_iff.1 h)
      · exact .inr (Prod.ext_iff.1 h)
    · split at h
      · have := Prod.ext_iff.1 h
        exact .inr ⟨this.2, this.1⟩
      · have := Prod.ext_iff.1 h
        exact .inl ⟨this.2, this.1⟩
  · rintro (⟨rfl, rfl⟩ | ⟨rfl, rfl⟩)
    · rfl
    · exact pairKey_comm a b

/-- The cache holds decisions of pairs of known rows. -/
def Cached : List ((String × String) × Decision) → Prop :=
  Right (fun q : Row × Row => I.Known q.1 ∧ I.Known q.2) (fun q => pairKey q.1.id q.2.id)
    (fun q => dec R I q.1 q.2)

theorem decOf_computes {x y : Row} (hx : I.Known x) (hy : I.Known y) :
    Computes (Cached R I) (decOf R I x y) (dec R I x y) := by
  refine ask_computes (fun q q' hq hq' hkey => ?_) (x, y) ⟨hx, hy⟩
  rcases (pairKey_eq_iff _ _ _ _).1 hkey with ⟨h1, h2⟩ | ⟨h1, h2⟩
  · rw [Input.eq_of_id hq.1 hq'.1 h1, Input.eq_of_id hq.2 hq'.2 h2]
  · rw [Input.eq_of_id hq.1 hq'.2 h1, Input.eq_of_id hq.2 hq'.1 h2]
    exact decide_symm R _ _ _

theorem edgeM_computes {x y : Row} (hx : I.Known x) (hy : I.Known y) :
    Computes (Cached R I) (edgeM R I x y) (edge R I x y) :=
  (decOf_computes R I hx hy).map _

theorem clashM_computes {x y : Row} (hx : I.Known x) (hy : I.Known y) :
    Computes (Cached R I) (clashM R I x y) (clash R I x y) := by
  unfold clashM clash
  split
  · exact Computes.pure _
  · exact (decOf_computes R I hx hy).map _

/-! ### Known rows -/

variable {I}

theorem Input.Known.bundle {m : Row} (h : I.Known m) : ∀ p ∈ bundle I m, I.Known p := by
  intro p hp
  rcases mem_cons.1 hp with rfl | hp
  · exact h
  · exact .inr ⟨m.id, hp⟩

theorem across_known {x y : Row} (hx : I.Known x) (hy : I.Known y) : ∀ p ∈ across I x y, I.Known p.1 ∧ I.Known p.2 := by
  intro p hp
  obtain ⟨h1, h2⟩ := mem_product.1 hp
  exact ⟨hx.bundle p.1 h1, hy.bundle p.2 h2⟩

variable {α : Type}

theorem mem_of_mem_pairsOf {l : List α} {p : α × α} (h : p ∈ pairsOf l) : p.1 ∈ l ∧ p.2 ∈ l := by
  induction l with
  | nil => simp [pairsOf] at h
  | cons a l ih =>
    rcases mem_append.1 h with h | h
    · obtain ⟨b, hb, rfl⟩ := mem_map.1 h
      exact ⟨mem_cons_self, mem_cons_of_mem _ hb⟩
    · obtain ⟨h1, h2⟩ := ih h
      exact ⟨mem_cons_of_mem _ h1, mem_cons_of_mem _ h2⟩

theorem mem_of_mem_candidatePairs {rows : List Row} {p : Row × Row}
    (h : p ∈ candidatePairs R rows) : p.1 ∈ rows ∧ p.2 ∈ rows := by
  obtain ⟨e, he, hp⟩ := mem_flatMap.1 h
  obtain ⟨h1, h2⟩ := mem_of_mem_pairsOf (mem_filter.1 hp).1
  rw [mem_sortBy] at h1 h2
  rw [((mem_groups _ rows e).1 he).2] at h1 h2
  exact ⟨(mem_filter.1 h1).1, (mem_filter.1 h2).1⟩

theorem mem_of_mem_clusters {fuel : Nat} {parent : String → String} {g : List Row} {r : Row}
    (hg : g ∈ clusters I fuel parent) (hr : r ∈ g) : r ∈ I.rows := by
  obtain ⟨e, he, rfl⟩ := mem_map.1 hg
  obtain ⟨x, hx, rfl⟩ := mem_map.1 hr
  rw [((mem_groups _ _ e).1 he).2] at hx
  exact (of_mem_zip (mem_filter.1 hx).1).2

theorem combinations_sublist (n : Nat) (l combo : List α) (h : combo ∈ combinations n l) : combo.Sublist l := by
  induction l generalizing n combo with
  | nil =>
    cases n with
    | zero =>
      rw [mem_singleton.1 h]
    | succ n => cases h
  | cons a l ih =>
    cases n with
    | zero =>
      rw [mem_singleton.1 h]
      exact nil_sublist _
    | succ n =>
      rcases mem_append.1 h with h | h
      · obtain ⟨c, hc, rfl⟩ := mem_map.1 h
        exact (ih n c hc).cons_cons a
      · exact (ih (n + 1) combo h).cons a

theorem subsets_sublist {l combo : List α} (h : combo ∈ subsets l) : combo.Sublist l := by
  obtain ⟨n, _, hc⟩ := mem_flatMap.1 h
  exact combinations_sublist _ l combo hc

/-! ### Piece by piece -/

theorem firstClashM_computes (pairs : List (Row × Row)) (h : ∀ p ∈ pairs, I.Known p.1 ∧ I.Known p.2) :
    Computes (Cached R I) (firstClashM R I pairs) (firstClash R I pairs) :=
  Computes.findSomeM pairs fun p hp => (clashM_computes R I (h p hp).1 (h p hp).2).map _

theorem bundlesClashM_computes (x y : Row × String) (hx : I.Known x.1) (hy : I.Known y.1) :
    Computes (Cached R I) (bundlesClashM R I x y) (bundlesClash R I x y) :=
  Computes.anyM _ fun p hp =>
    (clashM_computes R I (across_known hx hy p hp).1 (across_known hx hy p hp).2).map _

theorem largestConsistentM_computes (cands : List α) (clashM : α → α → PlanM Bool) (clash : α → α → Bool)
    (h : ∀ x ∈ cands, ∀ y ∈ cands, Computes (Cached R I) (clashM x y) (clash x y)) :
    Computes (Cached R I) (largestConsistentM cands clashM) (largestConsistent cands clash) := by
  unfold largestConsistentM largestConsistent
  split
  · refine Computes.map (Computes.findSomeM _ fun combo hc => ?_) _
    refine Computes.map (Computes.allM _ fun p hp => ?_) _
    have hsub := subsets_sublist hc
    obtain ⟨h1, h2⟩ := mem_of_mem_pairsOf hp
    exact (h p.1 (hsub.subset h1) p.2 (hsub.subset h2)).map _
  · refine Computes.foldlM_of (P := fun out => out ⊆ cands) cands [] (nil_subset _) ?_
    intro out hout c hc
    refine ⟨(Computes.allM _ fun o ho => (h c hc o (hout ho)).map _).map _, ?_⟩
    split
    · exact append_subset.2 ⟨hout, by simpa using hc⟩
    · exact hout

theorem candsM_computes (k : Row) (members : List Row) (hk : I.Known k) (hm : ∀ m ∈ members, I.Known m) :
    Computes (Cached R I) (candsM R I k members) (candidates R I k members, skippedOf R I k members) := by
  refine (Computes.foldlM members ([], []) fun acc m h =>
    (edgeM_computes R I hk (hm m h)).map _).eq_of_eq ?_
  have hfold : ∀ (l : List Row) (acc : List (Row × String) × List (String × String)),
      l.foldl (fun acc m => (edge R I k m).elim acc fun basis =>
        if m.manual then (acc.1, acc.2 ++ [(m.id, k.id)]) else (acc.1 ++ [(m, basis)], acc.2)) acc =
        (acc.1 ++ candidates R I k l, acc.2 ++ skippedOf R I k l) := by
    intro l
    induction l with
    | nil => simp [candidates, skippedOf]
    | cons m l ih =>
      intro acc
      rw [foldl_cons, ih]
      unfold candidates skippedOf
      cases he : edge R I k m with
      | none => simp [he]
      | some basis =>
        by_cases hmm : m.manual
        · simp [he, hmm]
        · simp [he, hmm]
  have hall := hfold members ([], [])
  rw [nil_append, nil_append] at hall
  rw [← hall]
  congr 1
  funext acc m
  cases edge R I k m with
  | none => rfl
  | some basis => rfl

theorem whyM_computes {k m : Row} (hk : I.Known k) (hm : I.Known m) :
    Computes (Cached R I) (whyM R I k m) (why R I k m) := by
  unfold whyM why
  cases hidesLine k m with
  | some hidden => exact Computes.pure _
  | none => exact firstClashM_computes R _ (across_known hm hk)

theorem checkM_computes (k : Row) (cands : List (Row × String)) (hk : I.Known k) (hm : ∀ c ∈ cands, I.Known c.1) :
    Computes (Cached R I) (checkM R I k cands) (clear R I k cands, cutByKeeper R I k cands) := by
  refine (Computes.foldlM cands ([], []) fun acc c h =>
    (whyM_computes R hk (hm c h)).map _).eq_of_eq ?_
  have hfold : ∀ (l : List (Row × String)) (acc : List (Row × String) × List Cut),
      l.foldl (fun acc c => if (why R I k c.1).isSome then (acc.1, acc.2 ++ [(c.1, why R I k c.1)])
        else (acc.1 ++ [c], acc.2)) acc =
        (acc.1 ++ clear R I k l, acc.2 ++ cutByKeeper R I k l) := by
    intro l
    induction l with
    | nil => simp [clear, cutByKeeper]
    | cons c l ih =>
      intro acc
      rw [foldl_cons, ih]
      unfold clear cutByKeeper
      cases hw : why R I k c.1 with
      | none => simp [hw]
      | some w => simp [hw]
  exact (hfold cands ([], [])).trans (by simp)

theorem foldl_append_map {β : Type} (f : α → β) (l : List α) (acc : List β) :
    l.foldl (fun acc a => acc ++ [f a]) acc = acc ++ l.map f := by
  induction l generalizing acc with
  | nil => simp
  | cons a l ih => rw [foldl_cons, ih, map_cons, append_assoc, singleton_append]

theorem cutM_computes (chosen left : List (Row × String)) (cut : List Cut)
    (hc : ∀ c ∈ chosen, I.Known c.1) (hl : ∀ m ∈ left, I.Known m.1) :
    Computes (Cached R I) (cutM R I chosen left cut) (cut ++ cutByMembers R I chosen left) := by
  refine (Computes.foldlM left cut fun _ m h =>
    (firstClashM_computes R _ ?_).map _).eq_of_eq (foldl_append_map _ left cut)
  intro p hp
  obtain ⟨c, hcm, hp⟩ := mem_flatMap.1 hp
  exact across_known (hl m h) (hc c hcm) p hp

theorem mergesM_computes (k : Row) (chosen : List (Row × String)) (hk : I.Known k) (hc : ∀ c ∈ chosen, I.Known c.1) :
    Computes (Cached R I) (mergesM R I k chosen) (chosen.map fun c => mergeOf R I k c.1 c.2 (dec R I k c.1)) :=
  (Computes.foldlM chosen [] fun _ c h =>
    (decOf_computes R I hk (hc c h)).map _).eq_of_eq (foldl_append_map _ chosen [])

/-! ### What is chosen -/

theorem pairsOf_all (l : List α) (p : α → α → Bool) :
    (pairsOf l).all (fun q => p q.1 q.2) = true ↔ l.Pairwise fun x y => p x y = true := by
  induction l with
  | nil => simp [pairsOf]
  | cons a l ih =>
    rw [pairsOf, all_append, Bool.and_eq_true, ih, pairwise_cons]
    simp

theorem greedy_spec (clash : α → α → Bool) (hsymm : ∀ x y, clash x y = clash y x)
    (l out : List α) (hout : out.Pairwise fun x y => clash x y = false) :
    let r := l.foldl (fun out c => if out.all (fun o => !clash c o) then out ++ [c] else out) out
    r.Sublist (out ++ l) ∧ r.Pairwise fun x y => clash x y = false := by
  induction l generalizing out with
  | nil => simpa using hout
  | cons c l ih =>
    simp only [foldl_cons]
    by_cases hc : out.all (fun o => !clash c o) = true
    · rw [if_pos hc]
      have hfree : ∀ o ∈ out, clash o c = false := by
        intro o ho
        have := List.all_eq_true.1 hc o ho
        rw [hsymm]
        simpa using this
      have hout' : (out ++ [c]).Pairwise fun x y => clash x y = false := by
        refine pairwise_append.2 ⟨hout, by simp, ?_⟩
        intro o ho x hx
        rw [mem_singleton.1 hx]
        exact hfree o ho
      obtain ⟨h1, h2⟩ := ih (out ++ [c]) hout'
      refine ⟨?_, h2⟩
      rw [append_assoc] at h1
      exact h1
    · rw [if_neg hc]
      obtain ⟨h1, h2⟩ := ih out hout
      refine ⟨h1.trans ?_, h2⟩
      exact (sublist_cons_self c l).append_left out

theorem largestConsistent_spec (cands : List α) (clash : α → α → Bool) (hsymm : ∀ x y, clash x y = clash y x) :
    (largestConsistent cands clash).Sublist cands ∧
      (largestConsistent cands clash).Pairwise fun x y => clash x y = false := by
  unfold largestConsistent
  split
  · cases hf : (subsets cands).findSome? fun combo =>
      if (pairsOf combo).all (fun p => !clash p.1 p.2) then some combo else none with
    | none => simp
    | some combo =>
      obtain ⟨c, hc, hcond⟩ := List.exists_of_findSome?_eq_some hf
      by_cases hfine : (pairsOf c).all (fun p => !clash p.1 p.2) = true
      · rw [if_pos hfine] at hcond
        cases hcond
        refine ⟨subsets_sublist hc, ?_⟩
        have := (pairsOf_all combo fun x y => !clash x y).1 hfine
        simpa using this
      · rw [if_neg hfine] at hcond
        cases hcond
  · exact greedy_spec clash hsymm cands [] List.Pairwise.nil

variable (I) in
theorem clash_symm (x y : Row) : clash R I x y = clash R I y x := by
  unfold clash dec
  rw [pairKey_comm x.id y.id, decide_symm R _ x y]

variable (I) in
theorem bundlesClash_symm (x y : Row × String) : bundlesClash R I x y = bundlesClash R I y x := by
  have hmono : ∀ x y : Row × String, bundlesClash R I x y = true → bundlesClash R I y x = true := by
    intro x y h
    obtain ⟨p, hp, hc⟩ := List.any_eq_true.1 h
    obtain ⟨h1, h2⟩ := mem_product.1 hp
    refine List.any_eq_true.2 ⟨(p.2, p.1), mem_product.2 ⟨h2, h1⟩, ?_⟩
    rw [clash_symm]
    exact hc
  exact Bool.eq_iff_iff.2 ⟨hmono x y, hmono y x⟩

/-! ### The whole -/

theorem mem_candidates {k : Row} {members : List Row} {c : Row × String} : c ∈ candidates R I k members ↔
      c.1 ∈ members ∧ c.1.manual = false ∧ edge R I k c.1 = some c.2 := by
  unfold candidates
  rw [mem_filterMap]
  constructor
  · rintro ⟨m, hm, hc⟩
    by_cases hmm : m.manual
    · rw [if_pos hmm] at hc
      cases hc
    · rw [if_neg hmm] at hc
      obtain ⟨b, hb, rfl⟩ := Option.map_eq_some_iff.1 hc
      exact ⟨hm, by simpa using hmm, hb⟩
  · rintro ⟨hm, hmm, he⟩
    exact ⟨c.1, hm, by simp [hmm, he]⟩

theorem chosen_subset (k : Row) (members : List Row) :
    (chosen R I k members).Sublist (clear R I k (candidates R I k members)) :=
  (largestConsistent_spec _ _ (bundlesClash_symm R I)).1

theorem clusterM_computes (g : List Row) (hg : ∀ r ∈ g, r ∈ I.rows) :
    Computes (Cached R I) (clusterM R I g) (clusterPlan R I (sortBy (keeperKey R) g)) := by
  have hlen : (sortBy (keeperKey R) g).length = g.length := (sortBy_perm _ g).length_eq
  have hmem : ∀ r ∈ sortBy (keeperKey R) g, I.Known r :=
    fun r hr => .inl (hg r ((mem_sortBy _ g r).1 hr))
  unfold clusterM
  cases hs : sortBy (keeperKey R) g with
  | nil => exact Computes.pure _
  | cons k rest =>
    rw [hs] at hlen hmem
    unfold clusterPlan
    simp only
    by_cases hrest : rest = []
    · have h2 : g.length < 2 := by
        rw [← hlen, hrest]
        simp
      rw [if_pos h2, if_pos hrest]
      exact Computes.pure _
    · have h2 : ¬ g.length < 2 := by
        have := length_pos_of_ne_nil hrest
        rw [length_cons] at hlen
        omega
      rw [if_neg h2, if_neg hrest]
      have hk : I.Known k := hmem k mem_cons_self
      have hmembers : ∀ m ∈ (k :: rest).filter (·.id ≠ k.id), I.Known m :=
        fun m hm => hmem m (mem_filter.1 hm).1
      have hcands : ∀ c ∈ candidates R I k ((k :: rest).filter (·.id ≠ k.id)), I.Known c.1 :=
        fun c hc => hmembers c.1 ((mem_candidates R).1 hc).1
      have hclear : ∀ c ∈ clear R I k (candidates R I k ((k :: rest).filter (·.id ≠ k.id))),
          I.Known c.1 := fun c hc => hcands c (mem_filter.1 hc).1
      refine (candsM_computes R k _ hk hmembers).bind ?_
      simp only
      split
      · next hnil =>
        have hch : chosen R I k ((k :: rest).filter (·.id ≠ k.id)) = [] := by
          unfold chosen
          rw [hnil]
          rfl
        refine (Computes.pure _).eq_of_eq ?_
        rw [hnil, hch]
        rfl
      · refine (checkM_computes R k _ hk hcands).bind ?_
        refine (largestConsistentM_computes R _ _ (bundlesClash R I) fun x hx y hy =>
          bundlesClashM_computes R x y (hclear x hx) (hclear y hy)).bind ?_
        have hch : ∀ c ∈ chosen R I k ((k :: rest).filter (·.id ≠ k.id)), I.Known c.1 :=
          fun c hc => hclear c ((chosen_subset R k _).subset hc)
        refine (cutM_computes R (chosen R I k _) _ _ hch fun m hm =>
          hclear m (mem_filter.1 hm).1).bind ?_
        refine (mergesM_computes R k (chosen R I k _) hk hch).bind ?_
        exact Computes.pure _

variable (I) in
theorem scanM_computes (fuel : Nat) (pairs : List (Row × Row)) (h : ∀ p ∈ pairs, I.Known p.1 ∧ I.Known p.2) :
    Computes (Cached R I) (scanM R I fuel pairs) (scan R I fuel pairs) := by
  refine Computes.foldlM pairs ({} : Scan) fun s p hp => ?_
  obtain ⟨h1, h2⟩ := h p hp
  exact (decOf_computes R I h1 h2).bind ((edgeM_computes R I h1 h2).bind (Computes.pure _))

theorem foldl_append_flatMap {β γ δ : Type} (f : α → List β × List γ × List δ) (l : List α)
    (acc : List β × List γ × List δ) :
    l.foldl (fun acc a => (acc.1 ++ (f a).1, acc.2.1 ++ (f a).2.1, acc.2.2 ++ (f a).2.2)) acc =
      (acc.1 ++ l.flatMap fun a => (f a).1, acc.2.1 ++ l.flatMap fun a => (f a).2.1,
        acc.2.2 ++ l.flatMap fun a => (f a).2.2) := by
  induction l generalizing acc with
  | nil => simp
  | cons a l ih =>
    rw [foldl_cons, ih]
    simp only [flatMap_cons, append_assoc]

variable (I) in
theorem planM_computes : Computes (Cached R I) (planM R I) (plan R I) := by
  unfold planM
  refine (scanM_computes R I _ _ fun p hp => ?_).bind ?_
  · obtain ⟨h1, h2⟩ := mem_of_mem_candidatePairs R hp
    exact ⟨.inl h1, .inl h2⟩
  · have hclusters := (Computes.foldlM
      (clusters I (candidatePairs R I.rows).length
        (scan R I (candidatePairs R I.rows).length (candidatePairs R I.rows)).parent)
      (([], [], []) : List Merge × List Conflict × List (String × String)) fun acc g hg =>
        (clusterM_computes R g fun r hr => mem_of_mem_clusters hg hr).map fun out =>
          (acc.1 ++ out.1, acc.2.1 ++ out.2.1, acc.2.2 ++ out.2.2)).eq_of_eq
      (foldl_append_flatMap _ _ _)
    refine hclusters.bind ((Computes.pure _).eq_of_eq ?_)
    simp only [plan, sortedClusters, flatMap_map, nil_append]

variable (I) in
theorem planCountry_eq : planCountry R I = plan R I :=
  (planM_computes R I [] (right_nil _ _ _)).1

end

end CisApp.Places
