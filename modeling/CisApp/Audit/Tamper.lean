import CisApp.Audit.Chain

/-! What an edit of the audit log leaves for the verifier to see.

`verify_chain` accepts a table exactly when its rows numbered from 1 on are a chain with the hashes of their
canonical texts (`verifyChain_iff`).  With the hashes left as they were and SHA-256 injective, an edited row
then has its old canonical text.  The text starts with the row's previous hash, id and number, so these are
the old ones too (`canonicalText_inj`), and the rows that are left are a beginning of the chain.

The rest of the text joins free-text columns with `|`, which the columns may contain: an edit that moves a
`|` from one column's end to its neighbour's start keeps the text.  `Copy.Unseen` says what passes. -/

namespace CisApp.Audit

open List

variable {sha : String → String}

def contentHash (sha : String → String) (r : Row) : String := sha (canonicalText r)

/-! ## Tables with unique numbers -/

/-- The unique index on `chain_seq`. -/
def UniqueSeqs (rows : List Row) : Prop := (rows.filterMap Row.chainSeq).Nodup

/-- The rows that a verifier reads, in its order. -/
def sortedRows (rows : List Row) : List Row :=
  (rows.filter fun r => r.chainSeq.any (0 < ·)).mergeSort fun a b => a.seq ≤ b.seq

variable {r : Row}

theorem any_lt_iff {k : Int} : r.chainSeq.any (k < ·) = true ↔ r.chainSeq = some r.seq ∧ k < r.seq := by
  unfold Row.seq
  cases r.chainSeq <;> simp

theorem mergeSort_strict {rows : List Row} (hu : UniqueSeqs rows) (k : Int) :
    ((rows.filter fun r => r.chainSeq.any (k < ·)).mergeSort fun a b => a.seq ≤ b.seq).Pairwise
      fun a b => a.seq < b.seq := by
  have hne : (rows.filter fun r => r.chainSeq.any (k < ·)).Pairwise fun a b => a.seq ≠ b.seq := by
    unfold UniqueSeqs List.Nodup at hu
    rw [pairwise_filterMap] at hu
    refine List.Pairwise.imp_of_mem ?_ (hu.sublist filter_sublist)
    intro a b ha hb hab heq
    have hsome : ∀ r ∈ rows.filter (fun r => r.chainSeq.any (k < ·)), r.chainSeq = some r.seq :=
      fun r hr => (any_lt_iff.1 (List.mem_filter.1 hr).2).1
    exact hab a.seq (hsome a ha) b.seq (hsome b hb) heq
  have hperm := mergeSort_perm (rows.filter fun r => r.chainSeq.any (k < ·)) fun a b => a.seq ≤ b.seq
  have hne' := hne.perm hperm.symm fun h => h.symm
  have hle : (List.mergeSort (rows.filter fun r => r.chainSeq.any (k < ·)) fun a b => a.seq ≤ b.seq).Pairwise
      fun a b => decide (a.seq ≤ b.seq) = true :=
    pairwise_mergeSort (fun a b c hab hbc => by simp at *; omega) (fun a b => by simp; omega) _
  refine (hle.and hne').imp fun h => ?_
  have := of_decide_eq_true h.1
  omega

theorem mem_sortedRows {rows : List Row} : r ∈ sortedRows rows ↔ r ∈ rows ∧ r.chainSeq.any (0 < ·) = true := by
  unfold sortedRows
  rw [mem_mergeSort, mem_filter]

variable {hash : Row → String}

theorem fetch_eq_drop {rows : List Row} (hu : UniqueSeqs rows) {k : Nat}
    (hk : k ≤ (sortedRows rows).length) (hlinked : Linked hash 0 none ((sortedRows rows).take k))
    (limit : Nat) : fetch rows k limit = ((sortedRows rows).drop k).take limit := by
  have hstrict : (sortedRows rows).Pairwise fun a b => a.seq < b.seq := mergeSort_strict hu 0
  have hbefore : ∀ r ∈ (sortedRows rows).take k, ¬r.chainSeq.any ((k : Int) < ·) = true := by
    intro r hr
    obtain ⟨i, hi⟩ := mem_iff_getElem?.1 hr
    have hlt := (List.getElem?_eq_some_iff.1 hi).1
    rw [length_take] at hlt
    rw [hlinked.getElem? hi]
    simp
    omega
  have hafter : ∀ r ∈ (sortedRows rows).drop k, r.chainSeq.any ((k : Int) < ·) = true := by
    intro r hr
    obtain ⟨hsome, hpos⟩ := any_lt_iff.1 (mem_sortedRows.1 (mem_of_mem_drop hr)).2
    refine any_lt_iff.2 ⟨hsome, ?_⟩
    cases k with
    | zero => exact hpos
    | succ k =>
      -- the row before it has the number `k + 1`
      have hlast : ((sortedRows rows).take (k + 1))[k]? = some (sortedRows rows)[k] := by
        rw [List.getElem?_take_of_lt (Nat.lt_succ_self k), List.getElem?_eq_getElem hk]
      have hseq := hlinked.getElem? hlast
      have hmem : (sortedRows rows)[k] ∈ (sortedRows rows).take (k + 1) := mem_of_getElem? hlast
      rw [← take_append_drop (k + 1) (sortedRows rows), pairwise_append] at hstrict
      have hlt := hstrict.2.2 _ hmem r hr
      unfold Row.seq at hlt ⊢
      rw [hseq, Option.getD_some] at hlt
      omega
  have hfilter : (sortedRows rows).filter (fun r => r.chainSeq.any ((k : Int) < ·)) =
      (sortedRows rows).drop k := by
    conv_lhs => rw [← take_append_drop k (sortedRows rows)]
    rw [filter_append, List.filter_eq_nil_iff.2 hbefore, nil_append, List.filter_eq_self.2 hafter]
  have hperm : ((rows.filter fun r => r.chainSeq.any ((k : Int) < ·)).mergeSort fun a b => a.seq ≤ b.seq).Perm
      ((sortedRows rows).drop k) := by
    refine (mergeSort_perm _ _).trans ?_
    rw [← hfilter]
    have hall := (mergeSort_perm (rows.filter fun r => r.chainSeq.any (0 < ·))
      fun a b => a.seq ≤ b.seq).symm.filter fun r => r.chainSeq.any ((k : Int) < ·)
    rw [filter_filter] at hall
    refine List.Perm.trans (List.Perm.of_eq ?_) hall
    refine filter_congr fun r _ => ?_
    rw [Bool.eq_iff_iff, Bool.and_eq_true, any_lt_iff, any_lt_iff]
    constructor
    · rintro ⟨hsome, hlt⟩
      exact ⟨⟨hsome, hlt⟩, hsome, by omega⟩
    · exact fun h => h.1
  unfold fetch
  rw [List.Perm.eq_of_pairwise (fun a b _ _ hab hba => absurd hab (lt_asymm hba)) (mergeSort_strict hu k)
    hstrict.drop hperm]

/-! ## What the verifier accepts -/

theorem checkHash_ok {fromSeq : Option Int} {t t' : Scan} (h : checkHash sha fromSeq t r = .ok t') :
    r.rowHash = some (contentHash sha r) := by
  unfold checkHash at h
  split at h
  · cases h
  · next heq =>
    rw [not_not] at heq
    exact heq.symm

variable {prev : Option String}

theorem scanRow_ok {n : Nat} {cursor : Int} {t : Scan} (hprev : n = 0 → prev = none) (hsome : r.chainSeq = some r.seq)
    (h : scanRow sha none (scanAt n prev cursor) r = .ok t) :
    r.chainSeq = some ((n : Int) + 1) ∧ r.prevHash = prev ∧ r.rowHash = some (contentHash sha r) := by
  unfold scanRow at h
  dsimp only at h
  split at h
  · next hfirst =>
    have hn : n = 0 := by simpa [scanAt] using hfirst
    subst hn
    split at h
    · cases h
    · next hseq =>
      split at h
      · cases h
      · next hnone =>
        refine ⟨?_, ?_, checkHash_ok h⟩
        · rw [hsome, not_not.1 hseq]
          rfl
        · rw [hprev rfl]
          simpa using hnone
  · next hfirst =>
    have hn : ¬n = 0 := by simpa [scanAt] using hfirst
    split at h
    · cases h
    · next hseq =>
      split at h
      · cases h
      · next hlink =>
        refine ⟨?_, not_not.1 hlink, checkHash_ok h⟩
        rw [hsome, not_not.1 hseq]
        simp [scanAt, hn]

theorem scanRow_error {fromSeq : Option Int} {t : Scan} {v : Verdict}
    (h : scanRow sha fromSeq t r = .error v) : v.ok = false := by
  have hcheck : ∀ v, checkHash sha fromSeq t r = .error v → v.ok = false := by
    intro v hv
    unfold checkHash at hv
    split at hv
    · cases hv
      rfl
    · cases hv
  unfold scanRow at h
  dsimp only at h
  split at h
  · split at h
    · cases h
      rfl
    · split at h
      · cases h
        rfl
      · exact hcheck v h
  · split at h
    · cases h
      rfl
    · split at h
      · cases h
        rfl
      · exact hcheck v h

theorem scan_page {n : Nat} (hprev : n = 0 → prev = none) (cursor : Int)
    {page : List Row} (hsome : ∀ r ∈ page, r.chainSeq = some r.seq) : Linked (contentHash sha) n prev page ∧
        page.foldlM (scanRow sha none) (scanAt n prev cursor) =
          .ok (scanAt (n + page.length) (endHash prev page) cursor) ∨ ¬Linked (contentHash sha) n prev page ∧
        ∃ v, page.foldlM (scanRow sha none) (scanAt n prev cursor) = .error v ∧ v.ok = false := by
  induction page generalizing n prev with
  | nil => exact Or.inl ⟨trivial, rfl⟩
  | cons r rest ih =>
    rw [foldlM_cons]
    cases hr : scanRow sha none (scanAt n prev cursor) r with
    | error v =>
      refine Or.inr ⟨fun hlinked => ?_, v, rfl, scanRow_error hr⟩
      rw [scanRow_linked cursor hprev hlinked.1 hlinked.2.1 hlinked.2.2.1] at hr
      cases hr
    | ok t =>
      obtain ⟨hseq, hlink, hhash⟩ := scanRow_ok hprev (hsome r mem_cons_self) hr
      rw [scanRow_linked cursor hprev hseq hlink hhash] at hr
      cases hr
      have hnext := ih (show n + 1 = 0 → r.rowHash = none by omega)
        fun r' hr' => hsome r' (mem_cons_of_mem _ hr')
      rcases hnext with ⟨hlinked, hfold⟩ | ⟨hnot, v, hfold, hbad⟩
      · refine Or.inl ⟨⟨hseq, hlink, hhash, hlinked⟩, ?_⟩
        show rest.foldlM _ (scanAt (n + 1) r.rowHash cursor) = _
        rw [hfold, show n + 1 + rest.length = n + (r :: rest).length by rw [length_cons]; omega]
        rfl
      · exact Or.inr ⟨fun hlinked => hnot hlinked.2.2.2, v, hfold, hbad⟩

theorem verifyLoop_iff {rows : List Row} (hu : UniqueSeqs rows) (fuel k : Nat)
    (hk : k ≤ (sortedRows rows).length) (hfuel : (sortedRows rows).length < k + fuel)
    (hlinked : Linked (contentHash sha) 0 none ((sortedRows rows).take k)) :
    ∃ v, verifyLoop sha none rows fuel (scanAt k (endHash none ((sortedRows rows).take k)) k) = some v ∧
      (v.ok = true ↔ Linked (contentHash sha) 0 none (sortedRows rows)) := by
  induction fuel generalizing k with
  | zero => omega
  | succ fuel ih =>
    have hpage := fetch_eq_drop hu hk hlinked verifyBatch
    generalize hp : ((sortedRows rows).drop k).take verifyBatch = page at hpage
    have hsplit : (sortedRows rows).take (k + page.length) = (sortedRows rows).take k ++ page := by
      rw [take_add, ← hp, length_take]
      congr 1
      rw [take_eq_take_iff]
      omega
    have hiff : Linked (contentHash sha) 0 none ((sortedRows rows).take (k + page.length)) ↔
        Linked (contentHash sha) k (endHash none ((sortedRows rows).take k)) page := by
      rw [hsplit, linked_append, length_take, Nat.min_eq_left hk, Nat.zero_add]
      exact ⟨fun h => h.2, fun h => ⟨hlinked, h⟩⟩
    have hsome : ∀ r ∈ page, r.chainSeq = some r.seq := by
      intro r hr
      rw [← hp] at hr
      exact (any_lt_iff.1 (mem_sortedRows.1 (mem_of_mem_drop (mem_of_mem_take hr))).2).1
    have hlen : page.length < verifyBatch → k + page.length = (sortedRows rows).length := by
      intro hlt
      rw [← hp, length_take, length_drop] at hlt ⊢
      omega
    unfold verifyLoop batch
    rw [show (scanAt k (endHash none ((sortedRows rows).take k)) k).cursor = (k : Int) from rfl, hpage]
    by_cases hempty : page.isEmpty = true
    · -- nothing is left, so all of it was read
      have hnil : page = [] := by simpa using hempty
      have hall : (sortedRows rows).take k = sortedRows rows := by
        have := hlen (by rw [hnil]; decide)
        rw [hnil, length_nil, Nat.add_zero] at this
        exact take_of_length_le (Nat.le_of_eq this.symm)
      rw [if_pos hempty]
      rw [hall] at hlinked
      exact ⟨_, rfl, fun _ => hlinked, fun _ => rfl⟩
    · have hpos : 0 < page.length := by
        rw [length_pos_iff]
        simpa using hempty
      rw [if_neg hempty]
      have hprev : k = 0 → endHash none ((sortedRows rows).take k) = none := by
        rintro rfl
        rfl
      rcases scan_page hprev (k : Int) hsome with ⟨hgood, hfold⟩ | ⟨hnot, v, hfold, hbad⟩
      · rw [hfold]
        dsimp only
        have hgood' := hiff.2 hgood
        by_cases hlt : page.length < verifyBatch
        · rw [if_pos hlt]
          rw [hlen hlt, take_length] at hgood'
          exact ⟨_, rfl, fun _ => hgood', fun _ => rfl⟩
        · rw [if_neg hlt, ← endHash_append, ← hsplit]
          have hne : k + page.length ≠ 0 := by omega
          have hscan : ({ scanAt (k + page.length) (endHash none ((sortedRows rows).take (k + page.length)))
              (k : Int) with cursor := (scanAt (k + page.length) (endHash none ((sortedRows rows).take
                (k + page.length))) (k : Int)).lastSeq.getD 0 } : Scan) =
              scanAt (k + page.length) (endHash none ((sortedRows rows).take (k + page.length)))
                ((k + page.length : Nat) : Int) := by
            unfold scanAt
            rw [if_neg hne]
            rfl
          rw [hscan]
          refine ih (k + page.length) ?_ (by omega) hgood'
          rw [← hp, length_take, length_drop]
          omega
      · rw [hfold]
        refine ⟨v, rfl, fun hok => ?_, fun hall => absurd (hiff.1 ?_) hnot⟩
        · rw [hbad] at hok
          cases hok
        · rw [← take_append_drop (k + page.length) (sortedRows rows), linked_append] at hall
          exact hall.1

theorem verifyChain_iff {rows : List Row} (hu : UniqueSeqs rows) : ∃ v, verifyChain sha none rows = some v ∧
      (v.ok = true ↔ Linked (contentHash sha) 0 none (sortedRows rows)) := by
  have hlen : (sortedRows rows).length ≤ rows.length := by
    unfold sortedRows
    rw [length_mergeSort]
    exact length_filter_le _ _
  exact verifyLoop_iff hu (rows.length + 1) 0 (Nat.zero_le _) (by omega) trivial

/-! ## The canonical text -/

theorem joined_cons {x : String} {xs : List String} (h : xs ≠ []) :
    (joined (x :: xs)).toList = x.toList ++ '|' :: (joined xs).toList := by
  unfold joined
  rw [String.toList_ofList, String.toList_ofList, map_cons, intercalate_cons_of_ne_nil (by simpa using h)]
  simp

theorem cut_inj {u u' v v' : List Char} (hu : '|' ∉ u) (hu' : '|' ∉ u')
    (h : u ++ '|' :: v = u' ++ '|' :: v') : u = u' ∧ v = v' := by
  induction u generalizing u' with
  | nil =>
    cases u' with
    | nil => exact ⟨rfl, (List.cons.inj h).2⟩
    | cons c u' =>
      rw [← (List.cons.inj h).1] at hu'
      exact absurd mem_cons_self hu'
  | cons c u ih =>
    cases u' with
    | nil =>
      rw [(List.cons.inj h).1] at hu
      exact absurd mem_cons_self hu
    | cons c' u' =>
      obtain ⟨rfl, htail⟩ := List.cons.inj h
      obtain ⟨rfl, hv⟩ := ih (fun hin => hu (mem_cons_of_mem _ hin))
        (fun hin => hu' (mem_cons_of_mem _ hin)) htail
      exact ⟨rfl, hv⟩

theorem parts_ne_nil (r : Row) : r.parts ≠ [] := cons_ne_nil _ _

theorem joined_head (a b c : String) (r : Row) : (joined (a :: b :: c :: r.parts)).toList =
      a.toList ++ '|' :: (b.toList ++ '|' :: (c.toList ++ '|' :: (joined r.parts).toList)) := by
  rw [joined_cons (cons_ne_nil _ _), joined_cons (cons_ne_nil _ _), joined_cons (parts_ne_nil r)]

theorem notMem_uuid (u : Uuid) : '|' ∉ u.text.toList := by
  intro hmem
  have := List.all_eq_true.1 u.hex '|' hmem
  revert this
  decide

theorem notMem_nat (n : Nat) : '|' ∉ (toString n).toList := by
  intro hmem
  rw [show toString n = n.repr from rfl, Nat.repr_eq_ofList_toDigits, String.toList_ofList] at hmem
  have := Nat.isDigit_of_mem_toDigits (by omega) (by omega) hmem
  revert this
  decide

theorem notMem_int (n : Int) : '|' ∉ (toString n).toList := by
  cases n with
  | ofNat n => exact notMem_nat n
  | negSucc n =>
    rw [show toString (Int.negSucc n) = "-" ++ toString (n + 1) from rfl, String.toList_append]
    intro hmem
    rcases List.mem_append.1 hmem with hmem | hmem
    · revert hmem
      decide
    · exact notMem_nat (n + 1) hmem

theorem canonicalText_inj {r' : Row} (hprev : r.prevHash = r'.prevHash) (hseq : r.chainSeq = some r.seq)
    (hseq' : r'.chainSeq = some r'.seq) (h : canonicalText r = canonicalText r') :
    r.id = r'.id ∧ r.chainSeq = r'.chainSeq ∧ joined r.parts = joined r'.parts := by
  have htext := congrArg String.toList h
  unfold canonicalText at htext
  rw [hseq, hseq', hprev, Option.map_some, Option.map_some, Option.getD_some, Option.getD_some,
    joined_head, joined_head] at htext
  have hrest := (List.cons.inj (append_cancel_left htext)).2
  obtain ⟨hid, hrest⟩ := cut_inj (notMem_uuid r.id) (notMem_uuid r'.id) hrest
  obtain ⟨hno, hparts⟩ := cut_inj (notMem_int r.seq) (notMem_int r'.seq) hrest
  refine ⟨?_, ?_, String.toList_injective hparts⟩
  · have : r.id.text = r'.id.text := String.toList_injective hid
    cases hr : r.id
    cases hr' : r'.id
    rw [hr, hr'] at this
    cases this
    rfl
  · rw [hseq, hseq', Int.repr_injective (String.toList_injective hno)]

theorem canonicalText_congr {r' : Row} (hprev : r.prevHash = r'.prevHash) (hid : r.id = r'.id)
    (hseq : r.chainSeq = r'.chainSeq) (hparts : joined r.parts = joined r'.parts) : canonicalText r = canonicalText r' := by
  refine String.toList_injective ?_
  unfold canonicalText
  rw [joined_head, joined_head, hprev, hid, hseq, hparts]

/-! ## Chains and edited copies -/

/-- The chain that the trigger builds of these INSERTs. -/
def built (sha : String → String) (inserts : List (Stamp × Columns)) : List Row :=
  inserts.foldl (fun rows x => rows ++ [auditLogChain sha x.1 rows x.2]) []

/-- A copy of the chain: which rows are left, by their place, and how they read now.  No `row_hash` or
`prev_hash` is rewritten, and the unique index on `chain_seq` holds. -/
structure Copy (chain : List Row) where
  kept : List (Nat × Row)
  nodup : (kept.map Prod.fst).Nodup
  unique : UniqueSeqs (kept.map Prod.snd)
  hashes : ∀ e ∈ kept, ∃ r, chain[e.1]? = some r ∧ e.2.rowHash = r.rowHash ∧ e.2.prevHash = r.prevHash

namespace Copy

variable {chain : List Row}

def rows (copy : Copy chain) : List Row := copy.kept.map Prod.snd

/-- The columns an edit may change, NULL and the empty text alike. -/
def listed (r : Row) : Uuid × Option Int × List String × Option ActorType × Option Stamp × Option Int :=
  (r.id, r.chainSeq, [r.tenantId, r.actor, r.action, r.resourceType, r.resourceId, r.details, r.httpMethod,
    r.route].map orEmpty, r.actorType, r.createdAt, r.status)

/-- A row that is left differs, a row is gone that is not part of a suffix, or two rows have swapped their
numbers. -/
def Changed (copy : Copy chain) : Prop :=
  (∃ e ∈ copy.kept, ∃ r, chain[e.1]? = some r ∧ listed e.2 ≠ listed r) ∨
    (∃ e ∈ copy.kept, ∃ i < e.1, i ∉ copy.kept.map Prod.fst) ∨
    ∃ e ∈ copy.kept, ∃ e' ∈ copy.kept, ∃ r r', chain[e.1]? = some r ∧ chain[e'.1]? = some r' ∧ e.1 ≠ e'.1 ∧
      e.2.chainSeq = r'.chainSeq ∧ e'.2.chainSeq = r.chainSeq

def Seen (e : Nat × Row) : Prop := e.2.chainSeq.any (0 < ·) = true

/-- The rows numbered from 1 on are the first ones of the chain, under their old ids and numbers, and their
other columns read the same when they are joined with `|`. -/
def Unseen (copy : Copy chain) : Prop :=
  ∀ e ∈ copy.kept, Seen e →
    (∀ i < e.1, ∃ e' ∈ copy.kept, Seen e' ∧ e'.1 = i) ∧
    ∃ r, chain[e.1]? = some r ∧ e.2.id = r.id ∧ e.2.chainSeq = r.chainSeq ∧ joined e.2.parts = joined r.parts

end Copy

theorem linked_iff {n : Nat} {rows : List Row} :
    Linked hash n prev rows ↔ ∀ (k : Nat) r, rows[k]? = some r → r.chainSeq = some ((n : Int) + k + 1) ∧
      r.prevHash = (if k = 0 then prev else rows[k - 1]?.bind Row.rowHash) ∧ r.rowHash = some (hash r) := by
  induction rows generalizing n prev with
  | nil => exact ⟨fun _ k r hr => (not_mem_nil (mem_of_getElem? hr)).elim, fun _ => trivial⟩
  | cons r₀ rows ih =>
    constructor
    · rintro ⟨hseq, hlink, hhash, hrest⟩ k r hr
      cases k with
      | zero =>
        cases hr
        refine ⟨?_, ?_, hhash⟩
        · rw [hseq]
          simp
        · exact hlink
      | succ k =>
        obtain ⟨hseq', hlink', hhash'⟩ := ih.1 hrest k r hr
        refine ⟨?_, ?_, hhash'⟩
        · rw [hseq']
          congr 1
          omega
        · rw [hlink', if_neg (Nat.succ_ne_zero k)]
          cases k with
          | zero => rfl
          | succ k => rfl
    · intro h
      obtain ⟨hseq, hlink, hhash⟩ := h 0 r₀ rfl
      refine ⟨?_, ?_, hhash, ih.2 fun k r hr => ?_⟩
      · rw [hseq]
        simp
      · rwa [if_pos rfl] at hlink
      · obtain ⟨hseq', hlink', hhash'⟩ := h (k + 1) r hr
        refine ⟨?_, ?_, hhash'⟩
        · rw [hseq']
          congr 1
          omega
        · rw [hlink', if_neg (Nat.succ_ne_zero k)]
          cases k with
          | zero => rfl
          | succ k => rfl

theorem sortedRows_of_linked {rows : List Row} (h : Linked hash 0 none rows) : sortedRows rows = rows := by
  have hall : rows.filter (fun r => r.chainSeq.any (0 < ·)) = rows := by
    have := Linked.filter h 0
    rwa [Nat.zero_add, drop_zero] at this
  unfold sortedRows
  rw [hall, mergeSort_of_pairwise]
  refine h.pairwise.imp fun hlt => ?_
  simp
  omega

theorem uniqueSeqs_of_linked {rows : List Row} (h : Linked hash 0 none rows) : UniqueSeqs rows := by
  unfold UniqueSeqs List.Nodup
  rw [pairwise_filterMap]
  refine h.pairwise.imp fun hlt a ha b hb heq => ?_
  unfold Row.seq at hlt
  rw [ha, hb, heq] at hlt
  exact lt_irrefl _ hlt

theorem built_linked (sha : String → String) (inserts : List (Stamp × Columns)) :
    Linked (fun r => sha (triggerText r)) 0 none (built sha inserts) := by
  have hboth : Chained sha (built sha inserts) ∧ chainedRows (built sha inserts) = built sha inserts := by
    unfold built
    induction inserts using List.reverseRecOn with
    | nil => exact ⟨trivial, rfl⟩
    | append_singleton inserts x ih =>
      rw [foldl_append, foldl_cons, foldl_nil]
      refine ⟨ih.1.insert x.1 x.2, ?_⟩
      unfold chainedRows at ih ⊢
      rw [filter_append, ih.2]
      rfl
  have h := hboth.1
  unfold Chained at h
  rwa [hboth.2] at h

theorem consecutive {l : List Int} (hlt : l.Pairwise (· < ·)) (hpos : ∀ x ∈ l, 0 < x)
    (hdown : ∀ x ∈ l, ∀ y, 0 < y → y < x → y ∈ l) (k : Nat) (x : Int) (hx : l[k]? = some x) : x = (k : Int) + 1 := by
  have hlater : ∀ (i j : Nat) (a b : Int), i < j → l[i]? = some a → l[j]? = some b → a < b := by
    intro i j a b hij ha hb
    obtain ⟨hi, rfl⟩ := List.getElem?_eq_some_iff.1 ha
    obtain ⟨hj, rfl⟩ := List.getElem?_eq_some_iff.1 hb
    exact List.pairwise_iff_getElem.1 hlt i j hi hj hij
  induction k using Nat.strong_induction_on generalizing x with
  | _ k ih =>
    have hlow : (k : Int) + 1 ≤ x := by
      cases k with
      | zero =>
        have := hpos x (mem_of_getElem? hx)
        omega
      | succ k =>
        have hk : k < l.length := Nat.lt_of_succ_lt (List.getElem?_eq_some_iff.1 hx).1
        have hprev := ih k (Nat.lt_succ_self k) l[k] (List.getElem?_eq_getElem hk)
        have := hlater k (k + 1) _ _ (Nat.lt_succ_self k) (List.getElem?_eq_getElem hk) hx
        omega
    by_contra hne
    obtain ⟨j, hj⟩ := mem_iff_getElem?.1
      (hdown x (mem_of_getElem? hx) ((k : Int) + 1) (by omega) (by omega))
    rcases Nat.lt_trichotomy j k with hjk | rfl | hkj
    · have := ih j hjk _ hj
      omega
    · rw [hx] at hj
      exact hne (Option.some.inj hj)
    · have := hlater k j _ _ hkj hx hj
      omega

/-! ## What passes -/

namespace Copy

variable {chain : List Row} {copy : Copy chain}

theorem exists_of_sorted {k : Nat} {r : Row} (h : (sortedRows copy.rows)[k]? = some r) :
    ∃ e ∈ copy.kept, e.2 = r ∧ Seen e := by
  obtain ⟨hmem, hseen⟩ := mem_sortedRows.1 (mem_of_getElem? h)
  obtain ⟨e, he, rfl⟩ := List.mem_map.1 hmem
  exact ⟨e, he, rfl, hseen⟩

theorem sorted_of_seen {e : Nat × Row} (he : e ∈ copy.kept) (hseen : Seen e) :
    ∃ k : Nat, (sortedRows copy.rows)[k]? = some e.2 :=
  mem_iff_getElem?.1 (mem_sortedRows.2 ⟨mem_map_of_mem he, hseen⟩)

theorem place (hsha : Function.Injective sha) (hchain : Linked (contentHash sha) 0 none chain)
    (hcopy : Linked (contentHash sha) 0 none (sortedRows copy.rows)) {k : Nat} {e : Nat × Row}
    (he : e ∈ copy.kept) (hk : (sortedRows copy.rows)[k]? = some e.2) :
    e.1 = k ∧ ∃ r, chain[e.1]? = some r ∧ e.2.id = r.id ∧ e.2.chainSeq = r.chainSeq ∧
      joined e.2.parts = joined r.parts := by
  obtain ⟨r, hr, hhash, hprev⟩ := copy.hashes e he
  obtain ⟨hseq, -, hown⟩ := linked_iff.1 hcopy k e.2 hk
  obtain ⟨hseq', -, hown'⟩ := linked_iff.1 hchain e.1 r hr
  have htext : canonicalText e.2 = canonicalText r := by
    have heq : some (contentHash sha e.2) = some (contentHash sha r) := by
      rw [← hown, ← hown', hhash]
    exact hsha (Option.some.inj heq)
  obtain ⟨hid, hno, hparts⟩ := canonicalText_inj hprev (by simp [Row.seq, hseq]) (by simp [Row.seq, hseq'])
    htext
  refine ⟨?_, r, hr, hid, hno, hparts⟩
  rw [hseq, hseq'] at hno
  have := Option.some.inj hno
  omega

theorem unseen_of_linked (hsha : Function.Injective sha) (hchain : Linked (contentHash sha) 0 none chain)
    (hcopy : Linked (contentHash sha) 0 none (sortedRows copy.rows)) : copy.Unseen := by
  intro e he hseen
  obtain ⟨k, hk⟩ := sorted_of_seen he hseen
  obtain ⟨hplace, hsame⟩ := place hsha hchain hcopy he hk
  refine ⟨fun i hi => ?_, hsame⟩
  have hlen := (List.getElem?_eq_some_iff.1 hk).1
  have hget := List.getElem?_eq_getElem (show i < (sortedRows copy.rows).length by omega)
  obtain ⟨e', he', heq, hseen'⟩ := exists_of_sorted hget
  refine ⟨e', he', hseen', (place hsha hchain hcopy he' ?_).1⟩
  rw [heq]
  exact hget

theorem linked_of_unseen (hchain : Linked (contentHash sha) 0 none chain) (h : copy.Unseen) :
    Linked (contentHash sha) 0 none (sortedRows copy.rows) := by
  -- a seen row has the number of its place
  have hseq : ∀ e ∈ copy.kept, Seen e → e.2.seq = (e.1 : Int) + 1 := by
    intro e he hseen
    obtain ⟨-, r, hr, -, hno, -⟩ := h e he hseen
    unfold Row.seq
    rw [hno, hchain.getElem? hr]
    simp
  have hplace : ∀ (k : Nat) e, e ∈ copy.kept → (sortedRows copy.rows)[k]? = some e.2 → e.1 = k := by
    intro k e he hk
    have hmap : ((sortedRows copy.rows).map Row.seq)[k]? = some e.2.seq := by
      rw [List.getElem?_map, hk]
      rfl
    have hin : ∀ x ∈ (sortedRows copy.rows).map Row.seq, ∃ e ∈ copy.kept, Seen e ∧ e.2.seq = x := by
      intro x hx
      obtain ⟨r, hr, rfl⟩ := List.mem_map.1 hx
      obtain ⟨k', hk'⟩ := mem_iff_getElem?.1 hr
      obtain ⟨e', he', rfl, hseen⟩ := exists_of_sorted hk'
      exact ⟨e', he', hseen, rfl⟩
    have hstrict : ((sortedRows copy.rows).map Row.seq).Pairwise (· < ·) :=
      List.pairwise_map.2 (mergeSort_strict copy.unique 0)
    have hnum := consecutive hstrict ?_ ?_ k e.2.seq hmap
    · have := hseq e he (mem_sortedRows.1 (mem_of_getElem? hk)).2
      omega
    · intro x hx
      obtain ⟨e', -, hseen, rfl⟩ := hin x hx
      exact (any_lt_iff.1 hseen).2
    · intro x hx y hy hlt
      obtain ⟨e', he', hseen, rfl⟩ := hin x hx
      have hx' := hseq e' he' hseen
      obtain ⟨e'', he'', hseen'', hplace⟩ := (h e' he' hseen).1 (y.toNat - 1) (by omega)
      refine List.mem_map.2 ⟨e''.2, mem_sortedRows.2 ⟨mem_map_of_mem he'', hseen''⟩, ?_⟩
      rw [hseq e'' he'' hseen'', hplace]
      omega
  refine linked_iff.2 fun k r hr => ?_
  obtain ⟨e, he, rfl, hseen⟩ := exists_of_sorted hr
  obtain ⟨-, r, hrow, hid, hno, hparts⟩ := h e he hseen
  obtain ⟨r', hrow', hhash, hprev⟩ := copy.hashes e he
  rw [hrow] at hrow'
  cases hrow'
  have hk : e.1 = k := hplace k e he hr
  rw [hk] at hrow
  obtain ⟨hseq', hlink', hhash'⟩ := linked_iff.1 hchain k r hrow
  refine ⟨hno.trans hseq', ?_, ?_⟩
  · rw [hprev, hlink']
    split
    · rfl
    · -- the row before is the one before in the chain, with its old hash
      next hk0 =>
      have hlen := (List.getElem?_eq_some_iff.1 hr).1
      have hget := List.getElem?_eq_getElem (show k - 1 < (sortedRows copy.rows).length by omega)
      obtain ⟨e', he', heq, -⟩ := exists_of_sorted hget
      have hk' : e'.1 = k - 1 := hplace (k - 1) e' he' (by rw [heq]; exact hget)
      obtain ⟨r₀, hr₀, hhash₀, -⟩ := copy.hashes e' he'
      rw [hk'] at hr₀
      rw [hget, hr₀, ← heq]
      exact hhash₀.symm
  · rw [hhash, hhash']
    unfold contentHash
    rw [canonicalText_congr hprev hid hno hparts]

end Copy

/-- **Edits of the audit log.**  With SHA-256 injective, an edit of an accepted chain that rewrites no hash
is found, exactly when the rows still numbered from 1 on are no longer the first ones of the chain under
their ids and numbers, or some of them read differently when their columns are joined with `|`. -/
theorem edit_found_iff (sha : String → String) (hsha : Function.Injective sha) (inserts : List (Stamp × Columns))
    (haccepted : ∃ v, verifyChain sha none (built sha inserts) = some v ∧ v.ok = true)
    (copy : Copy (built sha inserts)) : (copy.Changed → ∃ v, verifyChain sha none copy.rows = some v ∧ v.ok = false) ↔
      (copy.Changed → ¬copy.Unseen) := by
  have htrigger := built_linked sha inserts
  have hchain : Linked (contentHash sha) 0 none (built sha inserts) := by
    obtain ⟨v, hv, hiff⟩ : ∃ v, verifyChain sha none (built sha inserts) = some v ∧ _ :=
      verifyChain_iff (uniqueSeqs_of_linked htrigger)
    obtain ⟨v', hv', hok⟩ := haccepted
    rw [hv] at hv'
    cases hv'
    rw [sortedRows_of_linked htrigger] at hiff
    exact hiff.1 hok
  obtain ⟨v, hv, hiff⟩ : ∃ v, verifyChain sha none copy.rows = some v ∧ _ := verifyChain_iff copy.unique
  have hsame : v.ok = true ↔ copy.Unseen :=
    hiff.trans ⟨Copy.unseen_of_linked hsha hchain, Copy.linked_of_unseen hchain⟩
  constructor
  · intro h hchanged hunseen
    obtain ⟨v', hv', hbad⟩ := h hchanged
    rw [hv] at hv'
    cases hv'
    rw [hsame.2 hunseen] at hbad
    cases hbad
  · intro h hchanged
    refine ⟨v, hv, ?_⟩
    rw [← Bool.not_eq_true, hsame]
    exact h hchanged

/-! ## One row, edited twice -/

def oneId : Uuid := ⟨"00000000-0000-0000-0000-000000000001", by decide⟩

def oneInsert (actor resourceType resourceId : String) : Columns :=
  ⟨oneId, some "t1", some actor, some .staff, some "tenant.update", some resourceType, some resourceId,
    some "\x7b\x7d", some ⟨2026, 1, 2, 3, 4, 5, 6⟩, some "POST", some "/admin/tenants", some 200⟩

def oneText (actor : String) : String :=
  "|00000000-0000-0000-0000-000000000001|1|t1|" ++ actor ++
    "|staff|tenant.update|tour|day|7|\x7b\x7d|2026-01-02T03:04:05.000006Z|POST|/admin/tenants|200"

/-- SHA-256 on the two texts below, and else a text that no digest is. -/
def sha256One (text : String) : String :=
  if text = oneText "admin:1" then "2edd32bc441916de7b52c9f6e54d1719f7512edb130ab5d1f37bcb69f208855a"
  else if text = oneText "admin:2" then "2b8cce9b7728ec6aa2b7a6c7c2b488362f1139704fb117caedce8de852d8e8f7"
  else "." ++ text

theorem sha256One_injective : Function.Injective sha256One := by
  have hdot : ∀ s : String, s.toList.head? ≠ some '.' → ∀ t, s ≠ "." ++ t := by
    intro s hs t heq
    rw [heq, String.toList_append] at hs
    exact hs rfl
  intro a b h
  unfold sha256One at h
  split at h
  · next ha =>
    split at h
    · next hb => rw [ha, hb]
    · split at h
      · exact absurd h (by decide)
      · exact absurd h (hdot _ (by decide) b)
  · split at h
    · next ha =>
      split at h
      · exact absurd h (by decide)
      · split at h
        · next hb => rw [ha, hb]
        · exact absurd h (hdot _ (by decide) b)
    · split at h
      · exact absurd h.symm (hdot _ (by decide) a)
      · split at h
        · exact absurd h.symm (hdot _ (by decide) a)
        · exact String.append_right_inj "." |>.1 h

def oneChain : List (Stamp × Columns) := [(⟨2026, 1, 2, 3, 4, 5, 6⟩, oneInsert "admin:1" "tour|day" "7")]

/-- The row with other columns and its old number and hashes. -/
def edited (c : Columns) : Row :=
  { c with chainSeq := some 1, prevHash := none, rowHash := some (sha256One (oneText "admin:1")) }

def copyOf (c : Columns) : Copy (built sha256One oneChain) where
  kept := [(0, edited c)]
  nodup := List.nodup_singleton 0
  unique := List.nodup_singleton 1
  hashes := by
    intro e he
    have hfirst : ((built sha256One oneChain)[0]?.map fun r => (r.rowHash, r.prevHash)) =
        some (some (sha256One (oneText "admin:1")), none) := by
      decide +kernel
    obtain ⟨r, hr, heq⟩ := Option.map_eq_some_iff.1 hfirst
    obtain ⟨hhash, hprev⟩ := Prod.mk.inj heq
    rw [List.mem_singleton.1 he]
    exact ⟨r, hr, hhash.symm, hprev.symm⟩

theorem oneChain_accepted : ∃ v, verifyChain sha256One none (built sha256One oneChain) = some v ∧ v.ok = true :=
  ⟨⟨1, true, none, none, some 1, none⟩, by decide +kernel, rfl⟩

/-- Another actor is found. -/
theorem edit_found_actor :
    ∃ v, verifyChain sha256One none (copyOf (oneInsert "admin:2" "tour|day" "7")).rows = some v ∧ v.ok = false := by
  have hiff := edit_found_iff sha256One sha256One_injective oneChain oneChain_accepted
    (copyOf (oneInsert "admin:2" "tour|day" "7"))
  refine hiff.2 (fun _ hunseen => ?_) (Or.inl ⟨_, mem_singleton_self _, _, rfl, fun heq => ?_⟩)
  swap
  · exact absurd (congrArg (fun x => x.2.2.1) heq) (by decide +kernel)
  obtain ⟨-, r, hr, -, -, hparts⟩ := hunseen _ (mem_singleton_self _) rfl
  cases hr
  revert hparts
  decide +kernel

/-- The resource type `tour|day` of the resource `7` becomes `tour`, of the resource `day|7`. -/
theorem moved_separator_unseen : ¬∀ (sha : String → String), Function.Injective sha →
    ∀ inserts, (∃ v, verifyChain sha none (built sha inserts) = some v ∧ v.ok = true) →
      ∀ copy : Copy (built sha inserts), copy.Changed → ∃ v, verifyChain sha none copy.rows = some v ∧ v.ok = false := by
  intro h
  obtain ⟨v, hv, hbad⟩ := h sha256One sha256One_injective oneChain oneChain_accepted
    (copyOf (oneInsert "admin:1" "tour" "day|7"))
    (Or.inl ⟨_, mem_singleton_self _, _, rfl, fun heq =>
      absurd (congrArg (fun x => x.2.2.1) heq) (by decide +kernel)⟩)
  have hgood : verifyChain sha256One none (copyOf (oneInsert "admin:1" "tour" "day|7")).rows =
      some ⟨1, true, none, none, some 1, none⟩ := by
    decide +kernel
  rw [hgood] at hv
  cases hv
  cases hbad

end CisApp.Audit
