import CisApp.Lib.Table

/-! The hash chain of the audit log (migration 248 and `api/services/platform_audit.py`).

A BEFORE INSERT trigger numbers every row of `acp_shared.audit_log` and writes the hash of its canonical text
(`auditLogChain`); `verify_chain` reads the rows back in batches and computes each hash again from a text of
its own (`canonicalText`).  The two texts agree for times of four-digit years (`canonicalText_eq`).

`Linked n prev rows` says that `rows` go on a chain of `n` rows that ends in the hash `prev`.  The trigger
extends such a chain (`Linked.insert`), and the verifier goes through it without complaint
(`Linked.scan`).

`sha` is the hex digest of a text's UTF-8 bytes. -/

namespace CisApp.Audit

open List

/-! ## The columns -/

inductive ActorType where
  | hitlReviewer | tenantAdmin | tenantReviewer | staff | machine
deriving Repr, DecidableEq

def ActorType.text : ActorType → String
  | .hitlReviewer => "hitl_reviewer"
  | .tenantAdmin => "tenant_admin"
  | .tenantReviewer => "tenant_reviewer"
  | .staff => "staff"
  | .machine => "machine"

def hexOrDash (c : Char) : Bool := c.isDigit || ('a' ≤ c && c ≤ 'f') || c = '-'

structure Uuid where
  text : String
  hex : text.toList.all hexOrDash = true
deriving DecidableEq

structure Stamp where
  year : Nat
  month : Nat
  day : Nat
  hour : Nat
  minute : Nat
  second : Nat
  micro : Nat
deriving Repr, DecidableEq

/-- What an INSERT gives; `details` is the text of the `jsonb` value. -/
structure Columns where
  id : Uuid
  tenantId : Option String
  actor : Option String
  actorType : Option ActorType
  action : Option String
  resourceType : Option String
  resourceId : Option String
  details : Option String
  createdAt : Option Stamp
  httpMethod : Option String
  route : Option String
  status : Option Int
deriving DecidableEq

/-- A row; one written before migration 248 has no `chain_seq`. -/
structure Row extends Columns where
  chainSeq : Option Int
  prevHash : Option String
  rowHash : Option String
deriving DecidableEq

def Row.seq (r : Row) : Int := r.chainSeq.getD 0

/-! ## The two texts -/

def zeros (width n : Nat) : String := "".pushn '0' (width - (toString n).length) ++ toString n

/-- `MM-DDTHH:MI:SS.ffffffZ`, the part of a time both texts write alike. -/
def Stamp.rest (t : Stamp) : String :=
  "-" ++ zeros 2 t.month ++ "-" ++ zeros 2 t.day ++ "T" ++ zeros 2 t.hour ++ ":" ++ zeros 2 t.minute ++ ":" ++
    zeros 2 t.second ++ "." ++ zeros 6 t.micro ++ "Z"

/-- `to_char(.., 'YYYY-MM-DD"T"HH24:MI:SS.US"Z"')`. -/
def Stamp.toChar (t : Stamp) : String := zeros 4 t.year ++ t.rest

/-- `strftime("%Y-%m-%dT%H:%M:%S.%fZ")`, which does not pad the year. -/
def Stamp.strftime (t : Stamp) : String := toString t.year ++ t.rest

/-- `"|".join(parts)`. -/
def joined (parts : List String) : String := String.ofList (List.intercalate ['|'] (parts.map String.toList))

/-- `concat_ws('|', ..)` leaves out what is NULL. -/
def concatWs (parts : List (Option String)) : String := joined (parts.filterMap id)

def orEmpty (s : Option String) : String := s.getD ""

/-- The text that the trigger hashes. -/
def triggerText (r : Row) : String :=
  concatWs
    [some (orEmpty r.prevHash), some r.id.text, r.chainSeq.map toString, some (orEmpty r.tenantId),
      some (orEmpty r.actor), some (orEmpty (r.actorType.map ActorType.text)), some (orEmpty r.action),
      some (orEmpty r.resourceType), some (orEmpty r.resourceId), some (orEmpty r.details),
      r.createdAt.map Stamp.toChar, some (orEmpty r.httpMethod), some (orEmpty r.route),
      some (orEmpty (r.status.map toString))]

/-- The columns from `tenant_id` to `status`, as `canonical_text` writes them. -/
def Row.parts (r : Row) : List String :=
  [orEmpty r.tenantId, orEmpty r.actor, orEmpty (r.actorType.map ActorType.text), orEmpty r.action,
    orEmpty r.resourceType, orEmpty r.resourceId, orEmpty r.details, orEmpty (r.createdAt.map Stamp.strftime),
    orEmpty r.httpMethod, orEmpty r.route, orEmpty (r.status.map toString)]

/-- `canonical_text`. -/
def canonicalText (r : Row) : String :=
  joined (orEmpty r.prevHash :: r.id.text :: (r.chainSeq.map toString).getD "None" :: r.parts)

/-- The verifier's times are those with a four-digit year. -/
def Columns.dated (c : Columns) : Bool := c.createdAt.all fun t => 1000 ≤ t.year && t.year ≤ 9999

variable {n : Nat}

theorem zeros_year (h : 1000 ≤ n) : zeros 4 n = toString n := by
  have hlen : 4 ≤ (toString n).length := by
    by_contra hlt
    have hle : (toString n).length ≤ 3 := by omega
    have := (Nat.length_repr_le_iff (by omega)).1 hle
    omega
  unfold zeros
  rw [Nat.sub_eq_zero_of_le hlen]
  rfl

variable {r : Row}

theorem canonicalText_eq (hseq : r.chainSeq.isSome = true) (htime : r.createdAt.isSome = true)
    (hdated : r.dated = true) : canonicalText r = triggerText r := by
  obtain ⟨n, hn⟩ := Option.isSome_iff_exists.1 hseq
  obtain ⟨t, ht⟩ := Option.isSome_iff_exists.1 htime
  have hyear : t.toChar = t.strftime := by
    unfold Columns.dated at hdated
    rw [ht, Option.all_some, Bool.and_eq_true, decide_eq_true_eq] at hdated
    unfold Stamp.toChar Stamp.strftime
    rw [zeros_year hdated.1]
  simp [canonicalText, triggerText, concatWs, Row.parts, hn, ht, hyear, orEmpty]

/-! ## The trigger -/

variable (sha : String → String)

/-- `ORDER BY a.chain_seq DESC LIMIT 1` over the chained rows. -/
def lastChained (rows : List Row) : Option Row :=
  Table.firstBy (fun a b => b.seq ≤ a.seq) (rows.filter fun r => r.chainSeq.isSome)

/-- The row before its hash is set. -/
def numbered (now : Stamp) (seen : List Row) (c : Columns) : Row :=
  { c with
    createdAt := some (c.createdAt.getD now)
    chainSeq := some (((lastChained seen).bind Row.chainSeq).getD 0 + 1)
    prevHash := (lastChained seen).bind Row.rowHash
    rowHash := none }

/-- `acp_shared.audit_log_chain`: the row that an INSERT writes, over the rows it sees. -/
def auditLogChain (now : Stamp) (seen : List Row) (c : Columns) : Row :=
  { numbered now seen c with rowHash := some (sha (triggerText (numbered now seen c))) }

/-! ## The verifier -/

structure Verdict where
  checked : Nat
  ok : Bool
  firstBadSeq : Option Int
  problem : Option String
  lastSeq : Option Int
  fromSeq : Option Int
deriving Repr, DecidableEq

/-- The local variables of `verify_chain` between two rows. -/
structure Scan where
  checked : Nat
  lastSeq : Option Int
  prevHash : Option String
  cursor : Int
  first : Bool
deriving Repr, DecidableEq

def Scan.init (fromSeq : Option Int) : Scan :=
  ⟨0, none, none, match fromSeq with
    | some n => if n = 0 then 0 else n - 1
    | none => 0, true⟩

/-- `_verdict` with what the scan has. -/
def Scan.verdict (t : Scan) (fromSeq : Option Int) (ok : Bool) (bad : Option Int) (problem : Option String) :
    Verdict :=
  ⟨t.checked, ok, bad, problem, t.lastSeq, fromSeq⟩

def expectedSeq (fromSeq : Option Int) : Int :=
  match fromSeq with
  | some n => if n = 0 then 1 else n
  | none => 1

/-- The end of the loop's body: the row's own hash. -/
def checkHash (fromSeq : Option Int) (t : Scan) (r : Row) : Except Verdict Scan :=
  if some (sha (canonicalText r)) ≠ r.rowHash then
    .error (t.verdict fromSeq false (some r.seq) (some "row_hash does not match the row's content"))
  else .ok { t with checked := t.checked + 1, lastSeq := some r.seq, prevHash := r.rowHash, first := false }

/-- One row of the loop in `verify_chain`. -/
def scanRow (fromSeq : Option Int) (t : Scan) (r : Row) : Except Verdict Scan :=
  let seq := r.seq
  let last := t.lastSeq.getD 0
  if t.first then
    let expected := expectedSeq fromSeq
    if seq ≠ expected then
      .error (t.verdict fromSeq false (some seq) (some s!"chain starts at {seq}, expected {expected}"))
    else if fromSeq.isNone && r.prevHash.isSome then
      .error (t.verdict fromSeq false (some seq) (some "genesis row has a prev_hash"))
    else checkHash sha fromSeq t r
  else if seq ≠ last + 1 then
    .error (t.verdict fromSeq false (some (last + 1)) (some s!"rows {last + 1}..{seq - 1} are missing"))
  else if r.prevHash ≠ t.prevHash then
    .error (t.verdict fromSeq false (some seq) (some "prev_hash does not match the previous row_hash"))
  else checkHash sha fromSeq t r

def verifyBatch : Nat := 2000

/-- `_VERIFY_SQL`. -/
def fetch (rows : List Row) (cursor : Int) (limit : Nat) : List Row :=
  ((rows.filter fun r => r.chainSeq.any (cursor < ·)).mergeSort fun a b => a.seq ≤ b.seq).take limit

/-- One turn of the `while`: a verdict, or the scan goes on with the next batch. -/
def batch (fromSeq : Option Int) (rows : List Row) (t : Scan) : Verdict ⊕ Scan :=
  let page := fetch rows t.cursor verifyBatch
  if page.isEmpty then .inl (t.verdict fromSeq true none none)
  else
    match page.foldlM (scanRow sha fromSeq) t with
    | .error v => .inl v
    | .ok t' =>
      let t' := { t' with cursor := t'.lastSeq.getD 0 }
      if page.length < verifyBatch then .inl (t'.verdict fromSeq true none none)
      else .inr t'

/-- The batches over one state of the table, `n` at most. -/
def verifyLoop (fromSeq : Option Int) (rows : List Row) : Nat → Scan → Option Verdict
  | 0, _ => none
  | n + 1, t =>
    match batch sha fromSeq rows t with
    | .inl v => some v
    | .inr t' => verifyLoop fromSeq rows n t'

/-- `verify_chain` over one state of the table; every batch but the last moves past a row. -/
def verifyChain (fromSeq : Option Int) (rows : List Row) : Option Verdict :=
  verifyLoop sha fromSeq rows (rows.length + 1) (Scan.init fromSeq)

/-! ## Chains -/

/-- The rows go on a chain of `n` rows that ends in the hash `prev`, each with the hash of its content. -/
def Linked (hash : Row → String) (n : Nat) (prev : Option String) : List Row → Prop
  | [] => True
  | r :: rest =>
    r.chainSeq = some ((n : Int) + 1) ∧ r.prevHash = prev ∧ r.rowHash = some (hash r) ∧
      Linked hash (n + 1) r.rowHash rest

def endHash (prev : Option String) (rows : List Row) : Option String :=
  rows.foldl (fun _ r => r.rowHash) prev

def chainedRows (rows : List Row) : List Row := rows.filter fun r => r.chainSeq.isSome

def Chained (rows : List Row) : Prop := Linked (fun r => sha (triggerText r)) 0 none (chainedRows rows)

variable {sha} {hash : Row → String}

variable {prev : Option String}

theorem linked_append {a b : List Row} :
    Linked hash n prev (a ++ b) ↔ Linked hash n prev a ∧ Linked hash (n + a.length) (endHash prev a) b := by
  induction a generalizing n prev with
  | nil => simp [Linked, endHash]
  | cons r a ih =>
    show r.chainSeq = _ ∧ r.prevHash = _ ∧ r.rowHash = _ ∧ Linked hash (n + 1) r.rowHash (a ++ b) ↔
      (r.chainSeq = _ ∧ r.prevHash = _ ∧ r.rowHash = _ ∧ Linked hash (n + 1) r.rowHash a) ∧ _
    rw [ih, show n + 1 + a.length = n + (r :: a).length by rw [length_cons]; omega]
    simp only [and_assoc]
    rfl

variable {rows : List Row}

theorem Linked.getElem? (h : Linked hash n prev rows)
    {i : Nat} (hr : rows[i]? = some r) : r.chainSeq = some ((n : Int) + i + 1) := by
  induction rows generalizing n prev i with
  | nil => cases hr
  | cons r' rows ih =>
    cases i with
    | zero =>
      cases hr
      rw [h.1]
      simp
    | succ i =>
      rw [ih h.2.2.2 hr]
      congr 1
      omega

theorem endHash_eq (prev : Option String) (rows : List Row) :
    endHash prev rows = match rows.getLast? with
      | none => prev
      | some r => r.rowHash := by
  unfold endHash
  induction rows using List.reverseRecOn with
  | nil => rfl
  | append_singleton rows r _ => simp

theorem endHash_append (prev : Option String) (a b : List Row) :
    endHash prev (a ++ b) = endHash (endHash prev a) b := foldl_append

theorem Linked.lt_seq (h : Linked hash n prev rows)
    (hr : r ∈ rows) : (n : Int) < r.seq := by
  obtain ⟨i, hi⟩ := mem_iff_getElem?.1 hr
  unfold Row.seq
  rw [h.getElem? hi, Option.getD_some]
  omega

theorem Linked.firstBy (h : Linked hash n prev rows) :
    Table.firstBy (fun a b => b.seq ≤ a.seq) rows = rows.getLast? := by
  induction rows generalizing n prev with
  | nil => rfl
  | cons r rest ih =>
    have hseq : r.seq = (n : Int) + 1 := by
      unfold Row.seq
      rw [h.1]
      rfl
    unfold Table.firstBy
    rw [ih h.2.2.2]
    cases hrest : rest.getLast? with
    | none => rw [List.getLast?_eq_none_iff.1 hrest]; rfl
    | some b =>
      have hlt := h.2.2.2.lt_seq (mem_of_getLast? hrest)
      rw [List.getLast?_cons, hrest]
      dsimp only
      rw [if_neg (by simp; omega), Option.getD_some]

theorem Chained.insert (h : Chained sha rows) (now : Stamp) (c : Columns) :
    Chained sha (rows ++ [auditLogChain sha now rows c]) := by
  have hlast : lastChained rows = (chainedRows rows).getLast? := h.firstBy
  unfold Chained chainedRows
  rw [filter_append, linked_append]
  refine ⟨h, ?_⟩
  refine ⟨?_, ?_, rfl, trivial⟩
  · -- the number after the last one
    show some (((lastChained rows).bind Row.chainSeq).getD 0 + 1) = _
    rw [hlast]
    cases hc : (chainedRows rows).getLast? with
    | none =>
      rw [List.getLast?_eq_none_iff] at hc
      rw [show rows.filter (fun r => r.chainSeq.isSome) = [] from hc]
      rfl
    | some r =>
      rw [List.getLast?_eq_getElem?] at hc
      have hlen := (List.getElem?_eq_some_iff.1 hc).1
      rw [Option.bind_some, Linked.getElem? h hc, Option.getD_some]
      congr 1
      show _ = ((0 + (chainedRows rows).length : Nat) : Int) + 1
      omega
  · show (lastChained rows).bind Row.rowHash = endHash none (chainedRows rows)
    rw [hlast, endHash_eq]
    cases (chainedRows rows).getLast? <;> rfl

/-! ## The verifier goes through a chain -/

/-- The scan after `n` rows, the last of them with the hash `prev`. -/
def scanAt (n : Nat) (prev : Option String) (cursor : Int) : Scan :=
  ⟨n, if n = 0 then none else some (n : Int), prev, cursor, n = 0⟩

/-- The rows the verifier reads as the trigger wrote them. -/
def Readable (r : Row) : Prop := r.createdAt.isSome = true ∧ r.dated = true

theorem Linked.canonical
    (h : Linked (fun r => sha (triggerText r)) n prev rows) (hread : ∀ r ∈ rows, Readable r) :
    Linked (fun r => sha (canonicalText r)) n prev rows := by
  induction rows generalizing n prev with
  | nil => trivial
  | cons r rest ih =>
    obtain ⟨hseq, hlink, hhash, hrest⟩ := h
    have hr := hread r mem_cons_self
    refine ⟨hseq, hlink, ?_, ih hrest fun r' hr' => hread r' (mem_cons_of_mem _ hr')⟩
    dsimp only
    rw [hhash, canonicalText_eq (by rw [hseq]; rfl) hr.1 hr.2]

theorem scanRow_linked (cursor : Int)
    (hprev : n = 0 → prev = none) (hseq : r.chainSeq = some ((n : Int) + 1)) (hlink : r.prevHash = prev)
    (hhash : r.rowHash = some (sha (canonicalText r))) :
    scanRow sha none (scanAt n prev cursor) r = .ok (scanAt (n + 1) r.rowHash cursor) := by
  have hcheck : checkHash sha none (scanAt n prev cursor) r = .ok (scanAt (n + 1) r.rowHash cursor) := by
    unfold checkHash
    rw [if_neg (by rw [hhash]; simp)]
    simp [scanAt, Row.seq, hseq]
  unfold scanRow
  have hs : r.seq = (n : Int) + 1 := by
    unfold Row.seq
    rw [hseq]
    rfl
  rw [hs]
  by_cases hn : n = 0
  · subst hn
    rw [if_pos (by rfl), if_neg (by simp [expectedSeq]), if_neg (by simp [hlink, hprev])]
    exact hcheck
  · rw [if_neg (by simp [scanAt, hn]), if_neg (by simp [scanAt, hn]), if_neg (by simp [scanAt, hlink])]
    exact hcheck

theorem Linked.scan
    (h : Linked (fun r => sha (canonicalText r)) n prev rows) (hprev : n = 0 → prev = none) (cursor : Int) :
    rows.foldlM (scanRow sha none) (scanAt n prev cursor) =
      .ok (scanAt (n + rows.length) (endHash prev rows) cursor) := by
  induction rows generalizing n prev with
  | nil => rfl
  | cons r rest ih =>
    obtain ⟨hseq, hlink, hhash, hrest⟩ := h
    rw [foldlM_cons, scanRow_linked cursor hprev hseq hlink hhash]
    show rest.foldlM _ (scanAt (n + 1) r.rowHash cursor) = _
    rw [ih hrest (by omega),
      show n + 1 + rest.length = n + (r :: rest).length by rw [length_cons]; omega]
    rfl

theorem Linked.filter (h : Linked hash n prev rows)
    (k : Nat) : rows.filter (fun r => r.chainSeq.any (((n + k : Nat) : Int) < ·)) = rows.drop k := by
  induction rows generalizing n prev k with
  | nil => simp
  | cons r rest ih =>
    cases k with
    | zero =>
      rw [drop_zero, filter_eq_self]
      intro r' hr'
      obtain ⟨i, hi⟩ := mem_iff_getElem?.1 hr'
      rw [h.getElem? hi]
      simp
    | succ k =>
      rw [filter_cons_of_neg (by rw [h.1]; simp), drop_succ_cons, ← ih h.2.2.2 k,
        show n + 1 + k = n + (k + 1) by omega]

theorem Linked.pairwise (h : Linked hash n prev rows) :
    rows.Pairwise fun a b => a.seq < b.seq := by
  induction rows generalizing n prev with
  | nil => exact List.Pairwise.nil
  | cons r rest ih =>
    refine List.pairwise_cons.2 ⟨fun b hb => ?_, ih h.2.2.2⟩
    have := h.2.2.2.lt_seq hb
    unfold Row.seq at this ⊢
    rw [h.1, Option.getD_some]
    omega

theorem Chained.fetch (h : Chained sha rows) (k limit : Nat) :
    fetch rows k limit = ((chainedRows rows).drop k).take limit := by
  have hfilter : rows.filter (fun r => r.chainSeq.any ((k : Int) < ·)) = (chainedRows rows).drop k := by
    have := Linked.filter h k
    rw [← this, chainedRows, filter_filter]
    congr 1
    funext r
    cases r.chainSeq <;> simp
  unfold Audit.fetch
  rw [hfilter, mergeSort_of_pairwise]
  refine List.Pairwise.drop (Linked.pairwise h |>.imp fun hlt => ?_)
  simp
  omega

end CisApp.Audit
