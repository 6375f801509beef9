import CisApp.Lib.Sorted
import CisApp.Lib.Table

/-!
# Keeping the ids of Segments

`services/acp_contract/segment_matching.py`: `reconcile_ids` gives derived
Segments the ids their atoms had before.  `claims` says which Segment an old id
goes to; one pass in the order of the old ids moves each claimant to it, unless
another Segment holds it; a second pass and `flatten` make the alias map.

* `Claimant` says, without the dicts, which Segment has the best claim.
* `Given` says, from the claims alone, which old ids the pass hands over.
* `reconcileIds_resolvable_iff`: the result keeps every old id resolvable exactly
  when each derived id that another Segment claims is given up by its own.
-/

namespace CisApp.Segments

open CisApp.Lib List

/-! ## The source -/

/-- One real-world moment, and the atoms that describe it. -/
structure Segment where
  id : String
  place : String
  action : String
  atomIds : List String
deriving Repr, DecidableEq

/-- What a run can raise. -/
inductive SegmentError where
  /-- `DuplicateSegmentIdError`: the first ten ids that two derived Segments share. -/
  | duplicateSegmentId (ids : List String)
  /-- `MixedCountrySegmentError`: one Segment of several known countries. -/
  | mixedCountry (countries : List String)
  /-- `SegmentCoverageError`: atoms in no Segment to write, and in several. -/
  | coverage (missing repeated : List String)
  /-- `RemintExhausted`: every probed replacement of an id was taken. -/
  | remintExhausted (id : String)
deriving Repr, DecidableEq

/-- `held[segment.id]`: the atoms of the old Segment `prior` in the Segments of `id`. -/
def held (derived : List Segment) (assigned : String → Option String) (prior id : String) : Nat :=
  ((derived.filter fun s => s.id = id).flatMap fun s => s.atomIds.filterMap assigned).count prior

def priors (derived : List Segment) (assigned : String → Option String) : List String :=
  (derived.flatMap fun s => s.atomIds.filterMap assigned).dedup

/-- The Segment that is the old id, or the one with most of its atoms, least id first. -/
def bestClaim (derived : List Segment) (assigned : String → Option String) (prior : String) :
    Option String :=
  let contenders := (derived.map Segment.id).filter fun id => 0 < held derived assigned prior id
  if prior ∈ contenders then some prior
  else (sortBy (fun id => toLex (-(held derived assigned prior id : Int), id)) contenders).head?

/-- `_claims`, in the order `sorted(…items())` gives. -/
def claims (derived : List Segment) (assigned : String → Option String) : List (String × String) :=
  (sortBy id (priors derived assigned)).filterMap fun prior =>
    (bestClaim derived assigned prior).map fun claimant => (prior, claimant)

/-- What the first pass of `reconcile_ids` keeps: the id each derived Segment holds,
the ids held, and the aliases so far. -/
structure Grants where
  ids : String → String
  taken : Finset String
  aliases : Table String String

def Grants.init (derived : List Segment) : Grants :=
  ⟨id, (derived.map Segment.id).toFinset, Table.empty⟩

/-- One claim of the first pass. -/
def Grants.claim (g : Grants) (claim : String × String) : Grants :=
  let (prior, claimant) := claim
  let current := g.ids claimant
  if current = prior then g
  else if prior ∈ g.taken then
    { g with aliases := g.aliases.upsert prior prior }
  else
    ⟨Function.update g.ids claimant prior, insert prior (g.taken.erase current),
      g.aliases.upsert prior prior⟩

/-- One claim of the second pass: an old id points at what its claimant holds. -/
def settle (ids : String → String) (aliases : Table String String) (claim : String × String) :
    Table String String :=
  if claim.1 ≠ ids claim.2 then aliases.upsert claim.1 (ids claim.2) else aliases

/-- `while target in aliases and target not in seen`. -/
def chase (aliases : Table String String) : Nat → List String → String → String
  | 0, _, target => target
  | fuel + 1, seen, target =>
    match aliases.get? target with
    | none => target
    | some next => if target ∈ seen then target else chase aliases fuel (target :: seen) next

/-- `_flatten`: every alias at the id that is actually live. -/
def flatten (aliases : Table String String) : Table String String :=
  aliases.update (fun _ _ => true) fun start target =>
    chase aliases (aliases.rows.length + 1) [start] target

def duplicates (derived : List Segment) : List String :=
  sortBy id ((derived.map Segment.id).dedup.filter fun i => 1 < (derived.map Segment.id).count i)

def granted (derived : List Segment) (assigned : String → Option String) : Grants :=
  (claims derived assigned).foldl Grants.claim (Grants.init derived)

/-- The aliases of the second pass, before `_flatten`. -/
def settled (derived : List Segment) (assigned : String → Option String) : Table String String :=
  ((claims derived assigned).foldl (settle (granted derived assigned).ids)
    (granted derived assigned).aliases).delete fun was target => was = target

def reconcileIds (derived : List Segment) (assigned : String → Option String) :
    Except SegmentError (List Segment × Table String String) :=
  if duplicates derived ≠ [] then .error (.duplicateSegmentId ((duplicates derived).take 10))
  else
    .ok (derived.map fun s => { s with id := (granted derived assigned).ids s.id },
      flatten (settled derived assigned))

/-! ## The claims -/

/-- `s` has the best claim on the old id `p`: it is that id, or no Segment that is holds
an atom of it and `s` has most of its atoms, the least id among those. -/
structure Claimant (derived : List Segment) (assigned : String → Option String) (p c : String) :
    Prop where
  mem : c ∈ derived.map Segment.id
  holds : 0 < held derived assigned p c
  own : 0 < held derived assigned p p → p ∈ derived.map Segment.id → c = p
  most : c ≠ p → ∀ c' ∈ derived.map Segment.id, 0 < held derived assigned p c' →
    held derived assigned p c' < held derived assigned p c ∨
      held derived assigned p c' = held derived assigned p c ∧ c ≤ c'

variable {derived : List Segment} {assigned : String → Option String}

variable {p : String}

theorem mem_priors :
    p ∈ priors derived assigned ↔ ∃ s ∈ derived, ∃ a ∈ s.atomIds, assigned a = some p := by
  unfold priors
  rw [mem_dedup, mem_flatMap]
  simp only [mem_filterMap]

variable {c : String}

theorem held_pos :
    0 < held derived assigned p c ↔
      ∃ s ∈ derived, s.id = c ∧ ∃ a ∈ s.atomIds, assigned a = some p := by
  unfold held
  rw [count_pos_iff, mem_flatMap]
  simp only [mem_filter, decide_eq_true_eq, mem_filterMap, and_assoc]

theorem bestClaim_spec (h : bestClaim derived assigned p = some c) :
    Claimant derived assigned p c := by
  unfold bestClaim at h
  dsimp only at h
  split at h
  · next hp =>
    rw [mem_filter, decide_eq_true_eq] at hp
    cases h
    exact ⟨hp.1, hp.2, fun _ _ => rfl, fun hne => absurd rfl hne⟩
  · next hp =>
    rw [mem_filter, decide_eq_true_eq] at hp
    obtain ⟨hmem, hmin⟩ := head?_sortBy h
    rw [mem_filter, decide_eq_true_eq] at hmem
    refine ⟨hmem.1, hmem.2, fun hpos hin => absurd ⟨hin, hpos⟩ hp, fun _ c' hc' hpos => ?_⟩
    have hle := hmin c' (List.mem_filter.2 ⟨hc', decide_eq_true hpos⟩)
    rw [Prod.Lex.toLex_le_toLex] at hle
    rcases hle with hlt | ⟨heq, hid⟩
    · left
      omega
    · right
      exact ⟨by omega, hid⟩

theorem bestClaim_isSome (h : p ∈ priors derived assigned) :
    ∃ c, bestClaim derived assigned p = some c := by
  obtain ⟨s, hs, hap⟩ := mem_priors.1 h
  have hpos : 0 < held derived assigned p s.id := held_pos.2 ⟨s, hs, rfl, hap⟩
  unfold bestClaim
  dsimp only
  split
  · exact ⟨p, rfl⟩
  · cases hh : (sortBy (fun id => toLex (-(held derived assigned p id : Int), id))
        ((derived.map Segment.id).filter fun id => 0 < held derived assigned p id)).head? with
    | some c => exact ⟨c, rfl⟩
    | none =>
      -- the Segment of the atom is a contender
      rw [List.head?_eq_none_iff] at hh
      have hin : s.id ∈ (derived.map Segment.id).filter fun id => 0 < held derived assigned p id :=
        List.mem_filter.2 ⟨mem_map_of_mem hs, decide_eq_true hpos⟩
      rw [← mem_sortBy fun id => toLex (-(held derived assigned p id : Int), id), hh] at hin
      cases hin

theorem Claimant.unique {c' : String} (h : Claimant derived assigned p c)
    (h' : Claimant derived assigned p c') : c = c' := by
  by_cases hc : c = p
  · subst hc
    exact (h'.own h.holds h.mem).symm
  · by_cases hc' : c' = p
    · subst hc'
      exact h.own h'.holds h'.mem
    · have h1 := h.most hc c' h'.mem h'.holds
      have h2 := h'.most hc' c h.mem h.holds
      rcases h1 with h1 | ⟨he, h1⟩
      · omega
      · rcases h2 with h2 | ⟨-, h2⟩
        · omega
        · exact le_antisymm h1 h2

theorem Claimant.prior (h : Claimant derived assigned p c) :
    p ∈ priors derived assigned := by
  obtain ⟨s, hs, -, hap⟩ := held_pos.1 h.holds
  exact mem_priors.2 ⟨s, hs, hap⟩

theorem mem_claims {e : String × String} :
    e ∈ claims derived assigned ↔ Claimant derived assigned e.1 e.2 := by
  unfold claims
  simp only [mem_filterMap, mem_sortBy, Option.map_eq_some_iff]
  constructor
  · rintro ⟨p, -, c, hc, rfl⟩
    exact bestClaim_spec hc
  · intro h
    obtain ⟨c, hc⟩ := bestClaim_isSome h.prior
    exact ⟨e.1, h.prior, c, hc, by rw [(bestClaim_spec hc).unique h]⟩

theorem claims_sorted (derived : List Segment) (assigned : String → Option String) :
    (claims derived assigned).Pairwise fun e e' => e.1 < e'.1 := by
  have hsorted := sortBy_pairwise id (priors derived assigned)
  have hnodup : (sortBy id (priors derived assigned)).Nodup :=
    (sortBy_perm id _).nodup_iff.2 (nodup_dedup _)
  have hlt : (sortBy id (priors derived assigned)).Pairwise (· < ·) :=
    (hsorted.and hnodup).imp fun h => lt_of_le_of_ne h.1 h.2
  unfold claims
  rw [pairwise_filterMap]
  refine hlt.imp fun {a b} hab e he e' he' => ?_
  rw [Option.map_eq_some_iff] at he he'
  obtain ⟨c, -, rfl⟩ := he
  obtain ⟨c', -, rfl⟩ := he'
  exact hab

/-! ## The first pass -/

/-- The first pass hands the old id `q` over: another Segment claims it, and it is free,
because no Segment derived it or the one that did was moved to a lesser old id. -/
inductive Given (derived : List Segment) (assigned : String → Option String) : String → Prop
  | free {q c : String} (hc : Claimant derived assigned q c) (hne : c ≠ q)
      (hfree : q ∉ derived.map Segment.id) : Given derived assigned q
  | left {q c q' : String} (hc : Claimant derived assigned q c) (hne : c ≠ q) (hlt : q' < q)
      (hq' : Claimant derived assigned q' q) (hgiven : Given derived assigned q') :
      Given derived assigned q

/-- After the claims `done`: the ids held are distinct and are what `taken` says, a Segment
holds what it derived or a claim of its own, and one that does not claim its own id has left
it exactly if an id it claims was handed over. -/
structure Granted (derived : List Segment) (assigned : String → Option String)
    (done : List (String × String)) (g : Grants) : Prop where
  taken : ∀ i, i ∈ g.taken ↔ ∃ d ∈ derived.map Segment.id, g.ids d = i
  distinct : ∀ d ∈ derived.map Segment.id, ∀ d' ∈ derived.map Segment.id,
    g.ids d = g.ids d' → d = d'
  source : ∀ d ∈ derived.map Segment.id, g.ids d = d ∨ (g.ids d, d) ∈ done
  left : ∀ d ∈ derived.map Segment.id, ¬ Claimant derived assigned d d →
    (g.ids d ≠ d ↔ ∃ q, (q, d) ∈ done ∧ Given derived assigned q)
  keys : ∀ p t, g.aliases.get? p = some t → t = p ∧ ∃ c, (p, c) ∈ done

theorem granted_init : Granted derived assigned [] (Grants.init derived) := by
  refine ⟨fun i => ?_, fun d _ d' _ h => h, fun d _ => Or.inl rfl, fun d _ _ => ?_, fun p t h => ?_⟩
  · simp [Grants.init]
  · simp [Grants.init]
  · cases h

variable {done : List (String × String)}

theorem given_snoc {d : String} :
    (∃ q, (q, d) ∈ done ++ [(p, c)] ∧ Given derived assigned q) ↔
      (∃ q, (q, d) ∈ done ∧ Given derived assigned q) ∨ d = c ∧ Given derived assigned p := by
  constructor
  · rintro ⟨q, hq, hg⟩
    rcases List.mem_append.1 hq with hq | hq
    · exact Or.inl ⟨q, hq, hg⟩
    · rw [mem_singleton, Prod.mk.injEq] at hq
      exact Or.inr ⟨hq.2, hq.1 ▸ hg⟩
  · rintro (⟨q, hq, hg⟩ | ⟨rfl, hg⟩)
    · exact ⟨q, mem_append_left _ hq, hg⟩
    · exact ⟨p, by simp, hg⟩

theorem Granted.keep {g : Grants}
    (h : Granted derived assigned done g) {aliases : Table String String}
    (hkeys : ∀ q t, aliases.get? q = some t → t = q ∧ ∃ c', (q, c') ∈ done ++ [(p, c)])
    (hnone : ¬ Claimant derived assigned c c → ¬ Given derived assigned p) :
    Granted derived assigned (done ++ [(p, c)]) { g with aliases := aliases } := by
  refine ⟨h.taken, h.distinct, fun d hd => ?_, fun d hd hself => ?_, hkeys⟩
  · exact (h.source d hd).imp_right fun hs => mem_append_left _ hs
  · rw [given_snoc, ← h.left d hd hself]
    constructor
    · exact Or.inl
    · rintro (hne | ⟨rfl, hg⟩)
      · exact hne
      · exact absurd hg (hnone hself)

theorem Granted.take {g : Grants}
    (h : Granted derived assigned done g) (hc : c ∈ derived.map Segment.id) {aliases : Table String String}
    (hkeys : ∀ q t, aliases.get? q = some t → t = q ∧ ∃ c', (q, c') ∈ done ++ [(p, c)])
    (hfree : ∀ d ∈ derived.map Segment.id, g.ids d ≠ p)
    (hgiven : ¬ Claimant derived assigned c c → p ≠ c ∧ Given derived assigned p) :
    Granted derived assigned (done ++ [(p, c)])
      ⟨Function.update g.ids c p, insert p (g.taken.erase (g.ids c)), aliases⟩ := by
  refine ⟨fun i => ?_, fun d hd d' hd' heq => ?_, fun d hd => ?_, fun d hd hself => ?_, hkeys⟩
  · rw [Finset.mem_insert, Finset.mem_erase, h.taken]
    constructor
    · rintro (rfl | ⟨hne, d, hd, hi⟩)
      · exact ⟨c, hc, Function.update_self ..⟩
      · refine ⟨d, hd, ?_⟩
        have hdc : d ≠ c := by
          rintro rfl
          exact hne hi.symm
        dsimp only
        rw [Function.update_of_ne hdc, hi]
    · rintro ⟨d, hd, hi⟩
      dsimp only at hi
      by_cases hdc : d = c
      · rw [hdc, Function.update_self] at hi
        exact Or.inl hi.symm
      · rw [Function.update_of_ne hdc] at hi
        refine Or.inr ⟨?_, d, hd, hi⟩
        intro hic
        exact hdc (h.distinct d hd c hc (hi.trans hic))
  · dsimp only at heq
    by_cases hdc : d = c <;> by_cases hdc' : d' = c
    · rw [hdc, hdc']
    · rw [hdc, Function.update_self, Function.update_of_ne hdc'] at heq
      exact absurd heq.symm (hfree d' hd')
    · rw [hdc', Function.update_self, Function.update_of_ne hdc] at heq
      exact absurd heq (hfree d hd)
    · rw [Function.update_of_ne hdc, Function.update_of_ne hdc'] at heq
      exact h.distinct d hd d' hd' heq
  · by_cases hdc : d = c
    · rw [hdc]
      simp
    · simp only [Function.update_of_ne hdc]
      exact (h.source d hd).imp_right fun hs => mem_append_left _ hs
  · rw [given_snoc]
    by_cases hdc : d = c
    · subst hdc
      obtain ⟨hne, hg⟩ := hgiven hself
      simp only [Function.update_self]
      exact ⟨fun _ => Or.inr ⟨trivial, hg⟩, fun _ => hne⟩
    · simp only [Function.update_of_ne hdc]
      rw [h.left d hd hself]
      exact ⟨Or.inl, fun ho => ho.resolve_right fun hd => hdc hd.1⟩

theorem Granted.claim {rest : List (String × String)} {g : Grants}
    (hl : claims derived assigned = done ++ (p, c) :: rest) (h : Granted derived assigned done g) :
    Granted derived assigned (done ++ [(p, c)]) (g.claim (p, c)) := by
  have hclaim : Claimant derived assigned p c := by
    refine mem_claims (e := (p, c)).1 ?_
    rw [hl]
    simp
  have hsorted := claims_sorted derived assigned
  rw [hl, pairwise_append] at hsorted
  have hbefore : ∀ q d, (q, d) ∈ done → q < p := fun q d he =>
    hsorted.2.2 (q, d) he _ mem_cons_self
  have hdone : ∀ q d, (q, d) ∈ done → Claimant derived assigned q d := by
    intro q d hq
    refine mem_claims (e := (q, d)).1 ?_
    rw [hl]
    exact mem_append_left _ hq
  have hearlier : ∀ q d, Claimant derived assigned q d → q < p → (q, d) ∈ done := by
    intro q d hq hlt
    have hin : (q, d) ∈ done ++ (p, c) :: rest := hl ▸ mem_claims.2 hq
    rcases List.mem_append.1 hin with hin | hin
    · exact hin
    · rcases List.mem_cons.1 hin with heq | hin
      · cases heq
        exact absurd hlt (lt_irrefl _)
      · exact absurd hlt (lt_asymm ((List.pairwise_cons.1 hsorted.2.1).1 _ hin))
  -- an id that is held at this moment and has no claim before was derived by its holder
  have hheld : ∀ d ∈ derived.map Segment.id, g.ids d = p → d = p := by
    intro d hd hp
    rcases h.source d hd with hs | hs
    · rw [← hs, hp]
    · rw [hp] at hs
      exact absurd (hbefore p d hs) (lt_irrefl _)
  have hself : c ≠ p → ¬ Claimant derived assigned p p := fun hcp hp => hcp (hclaim.unique hp)
  have hkeys : ∀ q t, (g.aliases.upsert p p).get? q = some t →
      t = q ∧ ∃ c', (q, c') ∈ done ++ [(p, c)] := by
    intro q t hq
    rw [Table.get?_upsert] at hq
    split at hq
    · next hqp =>
      cases hq
      exact ⟨hqp.symm, c, by rw [hqp]; simp⟩
    · obtain ⟨ht, c', hc'⟩ := h.keys q t hq
      exact ⟨ht, c', mem_append_left _ hc'⟩
  unfold Grants.claim
  dsimp only
  by_cases hcur : g.ids c = p
  · -- the claimant already is that id
    rw [if_pos hcur]
    have hcp : c = p := hheld c hclaim.mem hcur
    refine h.keep (fun q t hq => ?_) fun hno => absurd (hcp ▸ hclaim) hno
    obtain ⟨ht, c', hc'⟩ := h.keys q t hq
    exact ⟨ht, c', mem_append_left _ hc'⟩
  · rw [if_neg hcur]
    by_cases htaken : p ∈ g.taken
    · -- another Segment holds the id: nothing is handed over
      rw [if_pos htaken]
      obtain ⟨d, hd, hp⟩ := (h.taken p).1 htaken
      obtain rfl := hheld d hd hp
      have hcp : c ≠ d := by
        rintro rfl
        exact hcur hp
      refine h.keep hkeys fun _ hg => ?_
      cases hg with
      | free _ _ hfree => exact hfree hd
      | left _ _ hlt hq' hg' =>
        exact (h.left d hd (hself hcp)).2 ⟨_, hearlier _ _ hq' hlt, hg'⟩ hp
    · -- the id is free: the claimant takes it and frees its own
      rw [if_neg htaken]
      have hfree : ∀ d ∈ derived.map Segment.id, g.ids d ≠ p := fun d hd hp =>
        htaken ((h.taken p).2 ⟨d, hd, hp⟩)
      refine h.take hclaim.mem hkeys hfree fun hno => ?_
      have hcp : c ≠ p := by
        rintro rfl
        exact hno hclaim
      refine ⟨hcp.symm, ?_⟩
      by_cases hp : p ∈ derived.map Segment.id
      · obtain ⟨q, hq, hg⟩ := (h.left p hp (hself hcp)).1 (hfree p hp)
        exact Given.left hclaim hcp (hbefore q p hq) (hdone q p hq) hg
      · exact Given.free hclaim hcp hp

theorem granted_spec (derived : List Segment) (assigned : String → Option String) :
    Granted derived assigned (claims derived assigned) (granted derived assigned) := by
  have hmain : ∀ (rest done : List (String × String)) (g : Grants),
      claims derived assigned = done ++ rest → Granted derived assigned done g →
      Granted derived assigned (claims derived assigned) (rest.foldl Grants.claim g) := by
    intro rest
    induction rest with
    | nil =>
      intro done g hl h
      rw [hl, append_nil]
      exact h
    | cons e rest ih =>
      intro done g hl h
      obtain ⟨p, c⟩ := e
      exact ih (done ++ [(p, c)]) _ (by rw [hl, append_assoc]; rfl) (h.claim hl)
  exact hmain _ [] _ rfl granted_init

/-! ## The second pass -/

theorem get?_settle (ids : String → String) (l : List (String × String))
    (hl : l.Pairwise fun e e' => e.1 < e'.1) (aliases : Table String String) (p : String) :
    (l.foldl (settle ids) aliases).get? p =
      ((l.find? fun e => e.1 = p ∧ p ≠ ids e.2).map fun e => ids e.2).or (aliases.get? p) := by
  induction l generalizing aliases with
  | nil => simp
  | cons e l ih =>
    rw [pairwise_cons] at hl
    rw [foldl_cons, ih hl.2, List.find?_cons]
    by_cases he : e.1 = p
    · -- the other claims are of other old ids
      have hnone : l.find? (fun e => e.1 = p ∧ p ≠ ids e.2) = none := by
        rw [List.find?_eq_none]
        intro e' he' h
        have hlt := hl.1 e' he'
        rw [decide_eq_true_eq] at h
        rw [he, h.1] at hlt
        exact lt_irrefl _ hlt
      rw [hnone]
      by_cases hp : p ≠ ids e.2
      · simp [settle, he, hp]
      · simp [settle, he, hp]
    · have hset : (settle ids aliases e).get? p = aliases.get? p := by
        unfold settle
        split
        · rw [Table.get?_upsert, if_neg fun h => he h.symm]
        · rfl
      simp [he, hset]

theorem get?_settled (p t : String) :
    (settled derived assigned).get? p = some t ↔
      ∃ c, Claimant derived assigned p c ∧ t = (granted derived assigned).ids c ∧ p ≠ t := by
  unfold settled
  rw [Table.get?_delete, Option.filter_eq_some_iff, get?_settle _ _ (claims_sorted _ _)]
  constructor
  · rintro ⟨h, hne⟩
    have hne : p ≠ t := by simpa using hne
    rcases Option.or_eq_some_iff.1 h with h | ⟨-, h⟩
    · rw [Option.map_eq_some_iff] at h
      obtain ⟨e, he, rfl⟩ := h
      have hp := List.find?_some he
      rw [decide_eq_true_eq] at hp
      exact ⟨e.2, hp.1 ▸ mem_claims.1 (List.mem_of_find?_eq_some he), rfl, hne⟩
    · exact absurd ((granted_spec _ _).keys p t h).1.symm hne
  · rintro ⟨c, hc, rfl, hne⟩
    refine ⟨Option.or_eq_some_iff.2 (Or.inl ?_), by simpa using hne⟩
    rw [Option.map_eq_some_iff]
    cases hf : (claims derived assigned).find?
        (fun e => e.1 = p ∧ p ≠ (granted derived assigned).ids e.2) with
    | none =>
      rw [List.find?_eq_none] at hf
      exact absurd (decide_eq_true ⟨rfl, hne⟩) (hf (p, c) (mem_claims.2 hc))
    | some e =>
      have hp := List.find?_some hf
      rw [decide_eq_true_eq] at hp
      have hec := mem_claims.1 (List.mem_of_find?_eq_some hf)
      rw [hp.1] at hec
      exact ⟨e, rfl, by rw [hec.unique hc]⟩

/-! ## Old ids keep resolving -/

/-- What `reconcile_ids` is for: the derived Segments with distinct ids, where every old id
is live or an alias, not both, and an alias leads to what the claimant of the old id holds. -/
structure Resolvable (derived : List Segment) (assigned : String → Option String)
    (kept : List Segment) (aliases : Table String String) : Prop where
  same : List.Forall₂ (fun k s => k.place = s.place ∧ k.action = s.action ∧ k.atomIds = s.atomIds)
    kept derived
  distinct : (kept.map Segment.id).Nodup
  found : ∀ s ∈ derived, ∀ a ∈ s.atomIds, ∀ p, assigned a = some p →
    p ∈ kept.map Segment.id ∨ (aliases.get? p).isSome
  notBoth : ∀ s ∈ derived, ∀ a ∈ s.atomIds, ∀ p, assigned a = some p →
    ¬ (p ∈ kept.map Segment.id ∧ (aliases.get? p).isSome)
  live : ∀ p t, aliases.get? p = some t → t ∈ kept.map Segment.id
  moved : ∀ p t, aliases.get? p = some t → t ≠ p
  claimant : ∀ p c, Claimant derived assigned p c → p ∉ kept.map Segment.id →
    ∃ e ∈ derived.zip kept, e.1.id = c ∧ aliases.get? p = some e.2.id

/-- Each derived id that another Segment claims is given up: the Segment that derived it
claims an old id that is handed over. -/
def GivesUp (derived : List Segment) (assigned : String → Option String) : Prop :=
  ∀ p c, Claimant derived assigned p c → c ≠ p → p ∈ derived.map Segment.id →
    ∃ q, Claimant derived assigned q p ∧ Given derived assigned q

def keptSegments (derived : List Segment) (assigned : String → Option String) : List Segment :=
  derived.map fun s => { s with id := (granted derived assigned).ids s.id }

theorem reconcileIds_eq (h : (derived.map Segment.id).Nodup) :
    reconcileIds derived assigned =
      .ok (keptSegments derived assigned, flatten (settled derived assigned)) := by
  have hdup : duplicates derived = [] := by
    unfold duplicates
    rw [nodup_iff_count_le_one] at h
    have : (derived.map Segment.id).dedup.filter
        (fun i => 1 < (derived.map Segment.id).count i) = [] := by
      rw [filter_eq_nil_iff]
      intro i _
      simpa using h i
    rw [this]
    rfl
  unfold reconcileIds
  rw [if_neg (by rw [hdup]; simp)]
  rfl

theorem reconcileIds_ok {kept : List Segment} {aliases : Table String String}
    (h : reconcileIds derived assigned = .ok (kept, aliases)) :
    (derived.map Segment.id).Nodup ∧ kept = keptSegments derived assigned ∧
      aliases = flatten (settled derived assigned) := by
  unfold reconcileIds at h
  split at h
  · cases h
  · next hdup =>
    have heq := Prod.mk.inj (Except.ok.inj h)
    refine ⟨List.nodup_iff_count_le_one.2 fun i => ?_, heq.1.symm, heq.2.symm⟩
    -- an id that comes twice would be listed
    by_contra hlt
    have hin : i ∈ duplicates derived := by
      unfold duplicates
      rw [mem_sortBy, mem_filter, mem_dedup, decide_eq_true_eq]
      exact ⟨List.count_pos_iff.1 (by omega), by omega⟩
    rw [ne_eq, not_not] at hdup
    rw [hdup] at hin
    cases hin

theorem keptSegments_ids : (keptSegments derived assigned).map Segment.id =
    (derived.map Segment.id).map (granted derived assigned).ids := by
  simp [keptSegments]

theorem mem_keptSegments_ids {i : String} : i ∈ (keptSegments derived assigned).map Segment.id ↔
    ∃ d ∈ derived.map Segment.id, (granted derived assigned).ids d = i := by
  rw [keptSegments_ids, mem_map]

theorem keptSegments_distinct (h : (derived.map Segment.id).Nodup) :
    ((keptSegments derived assigned).map Segment.id).Nodup := by
  rw [keptSegments_ids]
  exact List.Nodup.map_on (fun d hd d' hd' => (granted_spec _ _).distinct d hd d' hd') h

theorem flatten_isSome (hc : Claimant derived assigned p c) :
    ((flatten (settled derived assigned)).get? p).isSome ↔ (granted derived assigned).ids c ≠ p := by
  unfold flatten
  rw [Table.get?_update, Option.isSome_map, Option.isSome_iff_exists]
  constructor
  · rintro ⟨t, ht⟩
    obtain ⟨c', hc', rfl, hne⟩ := (get?_settled p t).1 ht
    rw [hc.unique hc']
    exact hne.symm
  · intro hne
    exact ⟨_, (get?_settled p _).2 ⟨c, hc, rfl, hne.symm⟩⟩

theorem live_and_alias_iff (hc : Claimant derived assigned p c) :
    (p ∈ (keptSegments derived assigned).map Segment.id ∧
        ((flatten (settled derived assigned)).get? p).isSome) ↔
      c ≠ p ∧ p ∈ derived.map Segment.id ∧ (granted derived assigned).ids p = p := by
  have hg := granted_spec derived assigned
  rw [flatten_isSome hc, mem_keptSegments_ids]
  constructor
  · rintro ⟨⟨d, hd, hdp⟩, hne⟩
    have hdc : d ≠ c := by
      rintro rfl
      exact hne hdp
    rcases hg.source d hd with hs | hs
    · have hd' : d = p := hs.symm.trans hdp
      subst hd'
      exact ⟨hdc.symm, hd, hdp⟩
    · -- the holder would be the claimant
      rw [hdp] at hs
      exact absurd ((mem_claims (e := (p, d)).1 hs).unique hc) hdc
  · rintro ⟨hcp, hp, hpp⟩
    refine ⟨⟨p, hp, hpp⟩, fun hcur => hcp ?_⟩
    exact hg.distinct c hc.mem p hp (hcur.trans hpp.symm)

theorem givesUp_iff : GivesUp derived assigned ↔
    ∀ p c, Claimant derived assigned p c → ¬ (p ∈ (keptSegments derived assigned).map Segment.id ∧
      ((flatten (settled derived assigned)).get? p).isSome) := by
  have hg := granted_spec derived assigned
  have hleft : ∀ p c, Claimant derived assigned p c → c ≠ p → p ∈ derived.map Segment.id →
      ((granted derived assigned).ids p ≠ p ↔
        ∃ q, Claimant derived assigned q p ∧ Given derived assigned q) := by
    intro p c hc hcp hp
    rw [hg.left p hp fun hself => hcp (hc.unique hself)]
    simp only [mem_claims]
  constructor
  · intro h p c hc hboth
    obtain ⟨hcp, hp, hpp⟩ := (live_and_alias_iff hc).1 hboth
    exact (hleft p c hc hcp hp).2 (h p c hc hcp hp) hpp
  · intro h p c hc hcp hp
    rw [← hleft p c hc hcp hp]
    intro hpp
    exact h p c hc ((live_and_alias_iff hc).2 ⟨hcp, hp, hpp⟩)

theorem flatten_eq (h : GivesUp derived assigned) (p : String) :
    (flatten (settled derived assigned)).get? p = (settled derived assigned).get? p := by
  unfold flatten
  rw [Table.get?_update]
  cases hp : (settled derived assigned).get? p with
  | none => rfl
  | some t =>
    have hstop : (settled derived assigned).get? t = none := by
      by_contra hne
      obtain ⟨u, hu⟩ := Option.ne_none_iff_exists'.1 hne
      obtain ⟨c, hc, rfl, -⟩ := (get?_settled p t).1 hp
      obtain ⟨c', hc', rfl, hne'⟩ := (get?_settled _ u).1 hu
      refine givesUp_iff.1 h _ c' hc' ⟨mem_keptSegments_ids.2 ⟨c, hc.mem, rfl⟩, ?_⟩
      exact (flatten_isSome hc').2 hne'.symm
    simp [chase, hstop]

theorem exists_claimant {s : Segment} {a : String} (hs : s ∈ derived) (ha : a ∈ s.atomIds)
    (hp : assigned a = some p) : ∃ c, Claimant derived assigned p c := by
  obtain ⟨c, hc⟩ := bestClaim_isSome (mem_priors.2 ⟨s, hs, a, ha, hp⟩)
  exact ⟨c, bestClaim_spec hc⟩

/-- **Old ids stay resolvable, exactly when claimed ids are given up.** -/
theorem reconcileIds_resolvable_iff (derived : List Segment) (assigned : String → Option String)
    (h : (derived.map Segment.id).Nodup) :
    (∃ kept aliases, reconcileIds derived assigned = .ok (kept, aliases) ∧
        Resolvable derived assigned kept aliases) ↔
      GivesUp derived assigned := by
  rw [reconcileIds_eq h]
  constructor
  · rintro ⟨kept, aliases, heq, hr⟩
    cases heq
    rw [givesUp_iff]
    intro p c hc
    obtain ⟨s, hs, a, ha, hap⟩ := mem_priors.1 hc.prior
    exact hr.notBoth s hs a ha p hap
  · intro hgives
    refine ⟨_, _, rfl, ?_⟩
    have hvalue : ∀ p t, (flatten (settled derived assigned)).get? p = some t →
        ∃ c, Claimant derived assigned p c ∧ t = (granted derived assigned).ids c ∧ p ≠ t := by
      intro p t ht
      rw [flatten_eq hgives] at ht
      exact (get?_settled p t).1 ht
    refine ⟨?_, keptSegments_distinct h, fun s hs a ha p hp => ?_, fun s hs a ha p hp => ?_,
      fun p t ht => ?_, fun p t ht => ?_, fun p c hc hp => ?_⟩
    · unfold keptSegments
      rw [forall₂_map_left_iff, forall₂_same]
      exact fun s _ => ⟨rfl, rfl, rfl⟩
    · obtain ⟨c, hc⟩ := exists_claimant hs ha hp
      rw [flatten_isSome hc, mem_keptSegments_ids]
      by_cases hcur : (granted derived assigned).ids c = p
      · exact Or.inl ⟨c, hc.mem, hcur⟩
      · exact Or.inr hcur
    · obtain ⟨c, hc⟩ := exists_claimant hs ha hp
      exact givesUp_iff.1 hgives p c hc
    · obtain ⟨c, hc, rfl, -⟩ := hvalue p t ht
      exact mem_keptSegments_ids.2 ⟨c, hc.mem, rfl⟩
    · obtain ⟨c, hc, rfl, hne⟩ := hvalue p t ht
      exact hne.symm
    · obtain ⟨s, hs, rfl⟩ := List.mem_map.1 hc.mem
      refine ⟨(s, { s with id := (granted derived assigned).ids s.id }), ?_, rfl, ?_⟩
      · unfold keptSegments
        rw [← map_prod_left_eq_zip]
        exact mem_map_of_mem hs
      · rw [flatten_eq hgives]
        refine (get?_settled p _).2 ⟨s.id, hc, rfl, ?_⟩
        rintro rfl
        exact hp (mem_keptSegments_ids.2 ⟨s.id, hc.mem, rfl⟩)

/-- A Segment that takes back the id its atom had. -/
theorem reconcileIds_resolvable_taken_back :
    ∃ kept aliases,
      reconcileIds [⟨"new", "Hutong", "walk through", ["x"]⟩]
        (fun a => if a = "x" then some "old" else none) = .ok (kept, aliases) ∧
      Resolvable [⟨"new", "Hutong", "walk through", ["x"]⟩]
        (fun a => if a = "x" then some "old" else none) kept aliases := by
  refine (reconcileIds_resolvable_iff _ _ (by decide)).2 ?_
  intro p c hc hne hp
  rw [map_singleton, mem_singleton] at hp
  have hpos := hc.holds
  rw [List.mem_singleton.1 hc.mem, hp] at hpos
  exact absurd hpos (by decide)

/-- Two derived Segments; the atom of the first was a member of the id that the second
derives, and no atom of the second has an old id. -/
def blockedClaim : List Segment :=
  [⟨"a", "the Hutong", "stroll through", ["x"]⟩,
    ⟨"b", "Hutong", "walk through to see the local lifestyle", ["y"]⟩]

def blockedAssigned (a : String) : Option String := if a = "x" then some "b" else none

/-- The claim is refused because the second Segment holds `b`, and yet `b` ends as an alias:
the second pass points the old id at its claimant, not at whoever holds it. -/
theorem reconcileIds_live_and_alias :
    ¬ ∀ (derived : List Segment) (assigned : String → Option String),
      (derived.map Segment.id).Nodup →
      (derived.Pairwise fun s s' => s.atomIds.Disjoint s'.atomIds) →
      ∃ kept aliases, reconcileIds derived assigned = .ok (kept, aliases) ∧
        Resolvable derived assigned kept aliases := by
  intro h
  obtain ⟨kept, aliases, heq, hr⟩ := h blockedClaim blockedAssigned (by decide)
    (by simp [blockedClaim, List.Disjoint])
  rw [reconcileIds_eq (by decide)] at heq
  cases heq
  refine hr.notBoth _ mem_cons_self "x" (by decide) "b" (by decide) ?_
  decide

end CisApp.Segments
