import CisApp.Lib.Decimal
import CisApp.Lib.Sorted
import CisApp.Retention.Rollups

/-! The attempts of one retention job (`run_spec` of `services/jobs/retention_job.py`, `delete_part` of
`services/retention/runner.py`, `services/retention/archive.py`).

An attempt deletes part by part and batch by batch.  A batch is fetched and locked, put to S3, verified there,
deleted, committed, and last its count and cursor are saved in the job's progress.  Each of these is an action of
its own, so that an attempt may stop after any of them; the next attempt starts from what is saved.  Other
transactions change the table in between, except for the rows that the batch has locked.

The rollup, which comes before the first batch, is the subject of `Rollups`. -/

namespace CisApp.Retention

open Lib Lib.Calendar List Option

/-! ## The object keys -/

/-- `strftime("%Y%m%dT%H%M%S%fZ")`. -/
def stamp (t : Nat) : Text :=
  let month := monthOf (dayOf t)
  zeroPad 4 (2000 + month / 12) ++
    (zeroPad 2 (month % 12 + 1) ++
      (zeroPad 2 (dayOf t - monthStart month + 1) ++
        ('T' :: (zeroPad 2 (t % dayLength / hour) ++
          (zeroPad 2 (t % hour / 60000000) ++
            (zeroPad 2 (t % 60000000 / 1000000) ++ (zeroPad 6 (t % 1000000) ++ ['Z'])))))))

/-- `archive/<table>/<yyyy>/<mm>/` of the month of a time. -/
def monthFolder (archiveName : Text) (t : Nat) : Text :=
  "archive/".toList ++ archiveName ++ '/' :: (zeroPad 4 (2000 + monthOf (dayOf t) / 12) ++
    '/' :: (zeroPad 2 (monthOf (dayOf t) % 12 + 1) ++ ['/']))

def objectKey (archiveName : Text) (monthOf' : Nat) (jobId run part : Text) (batchNo : Nat) : Text :=
  monthFolder archiveName monthOf' ++
    (jobId ++ '-' :: (run ++ '-' :: (part ++ '-' :: 'b' :: (zeroPad 5 batchNo ++ ".jsonl.gz".toList))))

/-- `"\n".join(docs) + "\n"`. -/
def jsonLines (docs : List Text) : Text := docs.flatMap (· ++ ['\n'])

/-- `gzip.compress` of a UTF-8 text, and back. -/
structure Gzip where
  compress : Text → List UInt8
  expand : List UInt8 → Text
  inverse : ∀ text, expand (compress text) = text

/-! ## The job -/

structure Part where
  name : Text
  archive : Bool

/-- A retention kind; `ρ` are the rows of its table, which are found by their id. -/
structure Ledger (ρ : Type) where
  archiveName : Text
  parts : List Part
  distinct : (parts.map Part.name).Nodup
  ts : ρ → Nat
  /-- `to_jsonb(t)::text`; PostgreSQL escapes a newline in it. -/
  doc : Nat → ρ → Text
  oneLine : ∀ k r, '\n' ∉ doc k r

variable {ρ : Type}

abbrev Cursor := Option (Nat × Nat)

/-- The keyset condition of `batch_sql`. -/
def Ledger.isAfter (ledger : Ledger ρ) (cursor : Cursor) (k : Nat) (r : ρ) : Bool :=
  cursor.all fun c => c.1 < ledger.ts r || c.1 = ledger.ts r && c.2 < k

/-- The `WHERE` of `batch_sql`; `cond` is the part's own condition and the `NOT EXISTS` of the references. -/
def Ledger.expired (ledger : Ledger ρ) (cond : Nat → ρ → Bool) (cut : Nat) (cursor : Cursor) (k : Nat) (r : ρ) : Bool :=
  ledger.ts r < cut && cond k r && ledger.isAfter cursor k r

/-- `ORDER BY` the retention column and the id. -/
def Ledger.order (ledger : Ledger ρ) (x : Nat × ρ) : Nat ×ₗ Nat := toLex (ledger.ts x.2, x.1)

/-- The rows of the `WHERE`, oldest first. -/
def Ledger.sorted (ledger : Ledger ρ) (cond : Nat → ρ → Bool) (cut : Nat) (cursor : Cursor) (t : Table Nat ρ) :
    List (Nat × ρ) :=
  sortBy ledger.order (t.rows.filter fun x => ledger.expired cond cut cursor x.1 x.2)

/-- `batch_sql`: the statement finds its rows in the snapshot `snap`, waits for their locks, and tests and returns
what is there then. -/
def Ledger.fetch (ledger : Ledger ρ) (cond : Nat → ρ → Bool) (cut : Nat) (cursor : Cursor) (snap t : Table Nat ρ)
    (n : Nat) : List (Nat × ρ) :=
  ((ledger.sorted cond cut cursor snap).filterMap fun x =>
    ((t.get? x.1).filter (ledger.expired cond cut cursor x.1)).map fun r => (x.1, r)).take n

/-- `same_month_prefix`. -/
def Ledger.monthPrefix (ledger : Ledger ρ) (rows : List (Nat × ρ)) : List (Nat × ρ) :=
  match rows with
  | [] => []
  | x :: _ => rows.takeWhile fun y => monthOf (dayOf (ledger.ts y.2)) = monthOf (dayOf (ledger.ts x.2))

/-- What `run_spec` saves of its deletions. -/
structure Progress where
  deletedTotal : Int
  cursors : List (Text × (Nat × Nat))

/-- Where a batch stands. -/
inductive Stage (ρ : Type) where
  | next
  | fetched (rows : List (Nat × ρ))
  | written (rows : List (Nat × ρ)) (key : Text)
  | verified (rows : List (Nat × ρ))
  /-- The `DELETE` is done, in the transaction. -/
  | removed (rows : List (Nat × ρ))
  | committed

def Stage.rows : Stage ρ → List (Nat × ρ)
  | .fetched rows => rows
  | .written rows _ => rows
  | .verified rows => rows
  | .removed rows => rows
  | _ => []

structure Attempt (ρ : Type) where
  run : Text
  /-- `deleted_total` and `cursors` of the progress that the attempt has read. -/
  already : Int
  resume : List (Text × (Nat × Nat))
  parts : List (Part × Nat)
  /-- `limit_rows` of the part under way. -/
  remaining : Int
  before : Nat
  /-- `res.deleted` and `res.batches` of the part under way. -/
  deleted : Nat
  batches : Nat
  cursor : Cursor
  stage : Stage ρ

structure Object where
  key : Text
  body : List UInt8
  verified : Bool

structure Gone (ρ : Type) where
  part : Part
  id : Nat
  row : ρ

structure JobState (ρ : Type) where
  table : Table Nat ρ
  progress : Progress
  attempt : Option (Attempt ρ)
  objects : List Object
  gone : List (Gone ρ)
  starts : List Nat

def newJob (t : Table Nat ρ) : JobState ρ := ⟨t, ⟨0, []⟩, none, [], [], []⟩

/-- What an attempt reads first: the cutoffs and the condition of each part, the last live run of the kind.
`windows` stands for the dictionary of the windows, which is only compared. -/
structure Survey (ρ : Type) where
  parts : List (Nat × (Nat → ρ → Bool))
  windows : Nat
  prevLive : Option LiveResult

inductive Step (ρ : Type) where
  | outside (t : Table Nat ρ)
  | start (at₀ : Nat) (survey : Survey ρ)
  | fetch (snap : Table Nat ρ) (cond : Nat → ρ → Bool)
  /-- `put_object`: `stored` says whether S3 stored the object, `answered` whether the call returned. -/
  | put (stored answered : Bool)
  /-- `head_object`: the byte length and the row count, where there is an answer. -/
  | head (answer : Option (Nat × Text))
  | remove
  | commit
  | save
  | stop

section Machine

variable [DecidableEq ρ] (ledger : Ledger ρ) (gzip : Gzip) (jobId : Text) (payload : Payload)

/-- `rows_left` and the first part, if an attempt is live. -/
def startAttempt (s : JobState ρ) (at₀ : Nat) (survey : Survey ρ) : Option (Attempt ρ) :=
  let candidates := (survey.parts.map fun p => s.table.count fun k r => ledger.ts r < p.1 && p.2 k r).sum
  match decideMode payload survey.windows candidates survey.prevLive with
  | .ok (.live, limitRows) =>
    let remaining := rowsLeft payload.trigger limitRows s.progress.deletedTotal
    let parts := ledger.parts.zip (survey.parts.map Prod.fst)
    some
      { run := stamp at₀
        already := s.progress.deletedTotal
        resume := s.progress.cursors
        parts := if remaining ≤ 0 then [] else parts
        remaining := remaining
        before := 0
        deleted := 0
        batches := 0
        cursor := parts.head?.bind fun p => s.progress.cursors.lookup p.1.name
        stage := .next }
  | _ => none

/-- The end of `delete_part`: the next part, if there is one and rows are left. -/
def Attempt.endPart (a : Attempt ρ) : Attempt ρ :=
  let remaining := a.remaining - a.deleted
  let parts := if remaining ≤ 0 then [] else a.parts.tail
  { a with
    parts := parts
    remaining := remaining
    before := a.before + a.deleted
    deleted := 0
    batches := 0
    cursor := parts.head?.bind fun p => a.resume.lookup p.1.name
    stage := .next }

/-- `n` of the loop. -/
def Attempt.want (payload : Payload) (a : Attempt ρ) : Nat := (min payload.batch (a.remaining - a.deleted)).toNat

def jobStep (s : JobState ρ) : Step ρ → JobState ρ
  | .outside t =>
    match s.attempt with
    | none => { s with table := t }
    | some a =>
      if a.stage.rows.all fun x => t.get? x.1 = s.table.get? x.1 then { s with table := t } else s
  | .start at₀ survey =>
    if s.attempt.isSome || at₀ ∈ s.starts then s
    else { s with attempt := startAttempt ledger payload s at₀ survey, starts := s.starts ++ [at₀] }
  | .fetch snap cond =>
    match s.attempt with
    | none => s
    | some a =>
      match a.stage, a.parts with
      | .next, (part, cut) :: _ =>
        if (a.deleted : Int) < a.remaining then
          let rows := ledger.fetch cond cut a.cursor snap s.table (a.want payload)
          if rows.isEmpty then { s with attempt := some (a.endPart) }
          else
            { s with
              attempt := some { a with stage := .fetched (if part.archive then ledger.monthPrefix rows else rows) } }
        else { s with attempt := some (a.endPart) }
      | _, _ => s
  | .put stored answered =>
    match s.attempt with
    | none => s
    | some a =>
      match a.stage, a.parts with
      | .fetched ((k, r) :: rows), (part, _) :: _ =>
        if part.archive then
          let key := objectKey ledger.archiveName (ledger.ts r) jobId a.run part.name (a.batches + 1)
          let docs := ((k, r) :: rows).map fun x => ledger.doc x.1 x.2
          let object : Object := ⟨key, gzip.compress (jsonLines docs), false⟩
          { s with
            objects := if stored then s.objects ++ [object] else s.objects
            -- an answer means that the object is stored
            attempt := if stored && answered then some { a with stage := .written ((k, r) :: rows) key } else none }
        else s
      | _, _ => s
  | .head answer =>
    match s.attempt with
    | none => s
    | some a =>
      match a.stage with
      | .written rows key =>
        let docs := rows.map fun x => ledger.doc x.1 x.2
        if answer = some ((gzip.compress (jsonLines docs)).length, Nat.toDigits 10 docs.length) then
          { s with
            objects := s.objects.map fun o => if o.key = key then { o with verified := true } else o
            attempt := some { a with stage := .verified rows } }
        else { s with attempt := none }
      | _ => s
  | .remove =>
    match s.attempt with
    | none => s
    | some a =>
      let rows? := match a.stage, a.parts with
        | .verified rows, _ => some rows
        | .fetched rows, (part, _) :: _ => if part.archive then none else some rows
        | _, _ => none
      match rows? with
      | none => s
      | some rows =>
        if s.table.count (fun k _ => k ∈ rows.map Prod.fst) = rows.length then
          { s with attempt := some { a with stage := .removed rows } }
        else { s with attempt := none }
  | .commit =>
    match s.attempt with
    | none => s
    | some a =>
      match a.stage, a.parts, a.stage.rows.getLast? with
      | .removed rows, (part, _) :: _, some last =>
        { s with
          table := s.table.delete fun k _ => k ∈ rows.map Prod.fst
          gone := s.gone ++ (s.table.rows.filter fun x => x.1 ∈ rows.map Prod.fst).map fun x => ⟨part, x.1, x.2⟩
          attempt := some
            { a with
              deleted := a.deleted + rows.length
              batches := a.batches + 1
              cursor := some (ledger.ts last.2, last.1)
              stage := .committed } }
      | _, _, _ => s
  | .save =>
    match s.attempt with
    | none => s
    | some a =>
      match a.stage, a.parts, a.cursor with
      | .committed, (part, _) :: _, some cursor =>
        { s with
          progress :=
            { deletedTotal := a.already + a.before + a.deleted
              cursors := (part.name, cursor) :: s.progress.cursors }
          attempt := some { a with stage := .next } }
      | _, _, _ => s
  | .stop => { s with attempt := none }

end Machine

/-! ## What a step does -/

section Moves

variable [DecidableEq ρ] (ledger : Ledger ρ) (gzip : Gzip) (jobId : Text) (payload : Payload)

/-- What the put of a batch writes. -/
def objectOf (a : Attempt ρ) (part : Part) (x : Nat × ρ) (rows : List (Nat × ρ)) : Object where
  key := objectKey ledger.archiveName (ledger.ts x.2) jobId a.run part.name (a.batches + 1)
  body := gzip.compress (jsonLines ((x :: rows).map fun y => ledger.doc y.1 y.2))
  verified := false

/-- Every change that a step can make. -/
inductive Moves (s : JobState ρ) : JobState ρ → Prop where
  | outside (t : Table Nat ρ)
      (hlock : ∀ a, s.attempt = some a → ∀ x ∈ a.stage.rows, t.get? x.1 = s.table.get? x.1) :
      Moves s { s with table := t }
  | start (at₀ : Nat) (survey : Survey ρ) (hfree : s.attempt = none) (hnew : at₀ ∉ s.starts) :
      Moves s { s with attempt := startAttempt ledger payload s at₀ survey, starts := s.starts ++ [at₀] }
  | endPart (a : Attempt ρ) (ha : s.attempt = some a) (hstage : a.stage = .next) :
      Moves s { s with attempt := some a.endPart }
  | fetch (a : Attempt ρ) (part : Part) (cut : Nat) (parts : List (Part × Nat)) (snap : Table Nat ρ)
      (cond : Nat → ρ → Bool) (rows : List (Nat × ρ)) (ha : s.attempt = some a) (hstage : a.stage = .next)
      (hparts : a.parts = (part, cut) :: parts) (hroom : (a.deleted : Int) < a.remaining)
      (hrows : rows = ledger.fetch cond cut a.cursor snap s.table (a.want payload)) (hsome : rows ≠ []) :
      Moves s
        { s with attempt := some { a with stage := .fetched (if part.archive then ledger.monthPrefix rows else rows) } }
  | put (a : Attempt ρ) (part : Part) (cut : Nat) (parts : List (Part × Nat)) (x : Nat × ρ) (rows : List (Nat × ρ))
      (ha : s.attempt = some a) (hstage : a.stage = .fetched (x :: rows)) (hparts : a.parts = (part, cut) :: parts)
      (harchive : part.archive = true) :
      Moves s
        { s with
          objects := s.objects ++ [objectOf ledger gzip jobId a part x rows]
          attempt := some { a with stage := .written (x :: rows) (objectOf ledger gzip jobId a part x rows).key } }
  | putLost (a : Attempt ρ) (part : Part) (cut : Nat) (parts : List (Part × Nat)) (x : Nat × ρ)
      (rows : List (Nat × ρ)) (ha : s.attempt = some a) (hstage : a.stage = .fetched (x :: rows))
      (hparts : a.parts = (part, cut) :: parts) :
      Moves s
        { s with objects := s.objects ++ [objectOf ledger gzip jobId a part x rows], attempt := none }
  | verify (a : Attempt ρ) (rows : List (Nat × ρ)) (key : Text) (ha : s.attempt = some a)
      (hstage : a.stage = .written rows key) :
      Moves s
        { s with
          objects := s.objects.map fun o => if o.key = key then { o with verified := true } else o
          attempt := some { a with stage := .verified rows } }
  | remove (a : Attempt ρ) (rows : List (Nat × ρ)) (ha : s.attempt = some a)
      (hstage : a.stage = .verified rows ∨
        a.stage = .fetched rows ∧ ∃ part cut parts, a.parts = (part, cut) :: parts ∧ part.archive = false) :
      Moves s { s with attempt := some { a with stage := .removed rows } }
  | commit (a : Attempt ρ) (part : Part) (cut : Nat) (parts : List (Part × Nat)) (rows : List (Nat × ρ))
      (last : Nat × ρ) (ha : s.attempt = some a) (hstage : a.stage = .removed rows)
      (hparts : a.parts = (part, cut) :: parts) (hlast : rows.getLast? = some last) :
      Moves s
        { s with
          table := s.table.delete fun k _ => k ∈ rows.map Prod.fst
          gone := s.gone ++ (s.table.rows.filter fun x => x.1 ∈ rows.map Prod.fst).map fun x => ⟨part, x.1, x.2⟩
          attempt := some
            { a with
              deleted := a.deleted + rows.length
              batches := a.batches + 1
              cursor := some (ledger.ts last.2, last.1)
              stage := .committed } }
  | save (a : Attempt ρ) (part : Part) (cut : Nat) (parts : List (Part × Nat)) (cursor : Nat × Nat)
      (ha : s.attempt = some a) (hstage : a.stage = .committed) (hparts : a.parts = (part, cut) :: parts)
      (hcursor : a.cursor = some cursor) :
      Moves s
        { s with
          progress :=
            { deletedTotal := a.already + a.before + a.deleted
              cursors := (part.name, cursor) :: s.progress.cursors }
          attempt := some { a with stage := .next } }
  | fail (a : Attempt ρ) (ha : s.attempt = some a) (hstage : ∀ b, s.attempt = some b → b.stage ≠ .committed) :
      Moves s { s with attempt := none }

variable {ledger gzip jobId payload}

theorem jobStep_moves (s : JobState ρ) (act : Step ρ) (hact : act ≠ .stop) :
    jobStep ledger gzip jobId payload s act = s ∨
      Moves ledger gzip jobId payload s (jobStep ledger gzip jobId payload s act) := by
  cases act with
  | outside t =>
    unfold jobStep
    cases ha : s.attempt with
    | none =>
      have hm : Moves ledger gzip jobId payload s { s with table := t } :=
        .outside t fun a h => by rw [ha] at h; cases h
      rw [ha] at hm
      exact .inr hm
    | some a =>
      simp only
      split
      · next hall =>
        have hm : Moves ledger gzip jobId payload s { s with table := t } := by
          refine .outside t fun b hb x hx => ?_
          rw [ha, Option.some.injEq] at hb
          subst hb
          simpa using List.all_eq_true.1 hall x hx
        rw [ha] at hm
        exact .inr hm
      · exact .inl rfl
  | start at₀ survey =>
    unfold jobStep
    simp only
    split
    · exact .inl rfl
    · next hnot =>
      rw [Bool.or_eq_true, not_or, Bool.not_eq_true, isSome_eq_false_iff, isNone_iff_eq_none,
        decide_eq_true_eq] at hnot
      exact .inr (.start at₀ survey hnot.1 hnot.2)
  | fetch snap cond =>
    unfold jobStep
    cases ha : s.attempt with
    | none => exact .inl rfl
    | some a =>
      simp only
      split
      · next part cut parts hstage hparts =>
        split
        · next hroom =>
          split
          · exact .inr (.endPart a ha hstage)
          · next hempty =>
            refine .inr (.fetch a part cut parts snap cond _ ha hstage hparts hroom rfl fun hnil => ?_)
            rw [hnil] at hempty
            exact hempty rfl
        · exact .inr (.endPart a ha hstage)
      · exact .inl rfl
  | put stored answered =>
    unfold jobStep
    cases ha : s.attempt with
    | none => exact .inl rfl
    | some a =>
      simp only
      split
      · next k r rows part cut parts hstage hparts =>
        split
        · next harchive =>
          cases stored with
          | false =>
            refine .inr (.fail a ha fun b hb hcom => ?_)
            rw [ha, Option.some.injEq] at hb
            rw [← hb, hstage] at hcom
            cases hcom
          | true =>
            cases answered with
            | false => exact .inr (.putLost a part cut parts (k, r) rows ha hstage hparts)
            | true => exact .inr (.put a part cut parts (k, r) rows ha hstage hparts harchive)
        · exact .inl rfl
      · exact .inl rfl
  | head answer =>
    unfold jobStep
    cases ha : s.attempt with
    | none => exact .inl rfl
    | some a =>
      simp only
      split
      · next rows key hstage =>
        split
        · exact .inr (.verify a rows key ha hstage)
        · refine .inr (.fail a ha fun b hb hcom => ?_)
          rw [ha, Option.some.injEq] at hb
          rw [← hb, hstage] at hcom
          cases hcom
      · exact .inl rfl
  | remove =>
    unfold jobStep
    cases ha : s.attempt with
    | none => exact .inl rfl
    | some a =>
      simp only
      split
      · exact .inl rfl
      · next rows hrows =>
        have hstage : a.stage = .verified rows ∨
            a.stage = .fetched rows ∧ ∃ part cut parts, a.parts = (part, cut) :: parts ∧ part.archive = false := by
          revert hrows
          split
          · next rows' hst =>
            intro h
            rw [Option.some.injEq] at h
            exact .inl (h ▸ hst)
          · next rows' part cut parts hst hparts =>
            intro h
            split at h
            · cases h
            · next harchive =>
              rw [Option.some.injEq] at h
              exact .inr ⟨h ▸ hst, part, cut, parts, hparts, by simpa using harchive⟩
          · intro h
            cases h
        split
        · exact .inr (.remove a rows ha hstage)
        · refine .inr (.fail a ha fun b hb hcom => ?_)
          rw [ha, Option.some.injEq] at hb
          rw [← hb] at hcom
          rcases hstage with h | ⟨h, -⟩
          · rw [h] at hcom
            cases hcom
          · rw [h] at hcom
            cases hcom
  | commit =>
    unfold jobStep
    cases ha : s.attempt with
    | none => exact .inl rfl
    | some a =>
      simp only
      split
      · next rows part cut parts last hstage hparts hlast =>
        rw [hstage] at hlast
        exact .inr (.commit a part cut parts rows last ha hstage hparts hlast)
      · exact .inl rfl
  | save =>
    unfold jobStep
    cases ha : s.attempt with
    | none => exact .inl rfl
    | some a =>
      simp only
      split
      · next part cut parts cursor hstage hparts hcursor =>
        exact .inr (.save a part cut parts cursor ha hstage hparts hcursor)
      · exact .inl rfl
  | stop => exact absurd rfl hact

end Moves

/-! ## The locked rows -/

section Locked

variable {ledger : Ledger ρ}

theorem fetch_spec (ledger : Ledger ρ) (cond : Nat → ρ → Bool) (cut : Nat) (cursor : Cursor) (snap t : Table Nat ρ)
    (n : Nat) : ((ledger.fetch cond cut cursor snap t n).map Prod.fst).Nodup ∧
      (∀ x ∈ ledger.fetch cond cut cursor snap t n, t.get? x.1 = some x.2) ∧
      (ledger.fetch cond cut cursor snap t n).length ≤ n := by
  refine ⟨?_, fun x hx => ?_, ?_⟩
  · have hids : ((ledger.sorted cond cut cursor snap).map Prod.fst).Nodup :=
      ((sortBy_perm ledger.order _).map Prod.fst).nodup_iff.2
        (snap.nodup.sublist (filter_sublist.map Prod.fst))
    refine List.Nodup.sublist ((take_sublist n _).map Prod.fst) (hids.sublist ?_)
    induction ledger.sorted cond cut cursor snap with
    | nil => exact List.Sublist.refl _
    | cons y l ih =>
      rw [filterMap_cons]
      cases hrow : (t.get? y.1).filter (ledger.expired cond cut cursor y.1) with
      | none => exact ih.cons _
      | some r => exact ih.cons_cons _
  · obtain ⟨y, -, hy⟩ := mem_filterMap.1 (mem_of_mem_take hx)
    obtain ⟨r, hr, rfl⟩ := map_eq_some_iff.1 hy
    exact (filter_eq_some_iff.1 hr).1
  · exact length_take_le n _

theorem monthPrefix_sublist (rows : List (Nat × ρ)) : (ledger.monthPrefix rows).Sublist rows := by
  cases rows with
  | nil => exact List.Sublist.refl _
  | cons x rows => exact takeWhile_sublist _

def Locked (s : JobState ρ) : Prop :=
  ∀ a, s.attempt = some a → (a.stage.rows.map Prod.fst).Nodup ∧ ∀ x ∈ a.stage.rows, s.table.get? x.1 = some x.2

theorem filter_perm_of_locked {t : Table Nat ρ} {rows : List (Nat × ρ)} (hnodup : (rows.map Prod.fst).Nodup)
    (hrows : ∀ x ∈ rows, t.get? x.1 = some x.2) : (t.rows.filter fun x => x.1 ∈ rows.map Prod.fst).Perm rows := by
  refine (perm_ext_iff_of_nodup (t.nodup.of_map.filter _) hnodup.of_map).2 fun x => ?_
  rw [mem_filter, decide_eq_true_eq]
  constructor
  · rintro ⟨hmem, hid⟩
    obtain ⟨y, hy, hyx⟩ := mem_map.1 hid
    have hrow := hrows y hy
    rw [hyx, (t.get?_eq_some_iff x.1 x.2).2 hmem] at hrow
    rw [show x = y from Prod.ext hyx.symm (Option.some.inj hrow)]
    exact hy
  · intro hx
    exact ⟨(t.get?_eq_some_iff x.1 x.2).1 (hrows x hx), mem_map.2 ⟨x, hx, rfl⟩⟩

theorem Locked.moves [DecidableEq ρ] {gzip : Gzip} {jobId : Text} {payload : Payload} {s s' : JobState ρ}
    (h : Locked s) (hm : Moves ledger gzip jobId payload s s') : Locked s' := by
  intro b hb
  cases hm with
  | outside t hlock =>
    refine ⟨(h b hb).1, fun x hx => ?_⟩
    rw [← (h b hb).2 x hx]
    exact hlock b hb x hx
  | start at₀ survey hfree hnew =>
    have hstage : b.stage = .next := by
      unfold startAttempt at hb
      simp only at hb
      split at hb
      · rw [Option.some.injEq] at hb
        rw [← hb]
      · cases hb
    rw [hstage]
    exact ⟨nodup_nil, nofun⟩
  | fetch a part cut parts snap cond rows ha hstage hparts hroom hrows hsome =>
    rw [Option.some.injEq] at hb
    obtain ⟨hnodup, hget, -⟩ := fetch_spec ledger cond cut a.cursor snap s.table (a.want payload)
    have hsub : (if part.archive then ledger.monthPrefix rows else rows).Sublist rows := by
      split
      · exact monthPrefix_sublist rows
      · exact List.Sublist.refl _
    rw [← hrows] at hnodup hget
    rw [← hb]
    exact ⟨hnodup.sublist (hsub.map Prod.fst), fun x hx => hget x (hsub.subset hx)⟩
  | put a part cut parts x rows ha hstage hparts harchive =>
    have := h a ha
    rw [hstage] at this
    rw [Option.some.injEq] at hb
    rw [← hb]
    exact this
  | verify a rows key ha hstage =>
    have := h a ha
    rw [hstage] at this
    rw [Option.some.injEq] at hb
    rw [← hb]
    exact this
  | remove a rows ha hstage =>
    have := h a ha
    rw [Option.some.injEq] at hb
    rw [← hb]
    rcases hstage with hst | ⟨hst, -⟩
    · rw [hst] at this
      exact this
    · rw [hst] at this
      exact this
  | putLost | fail => cases hb
  | endPart | commit | save =>
    rw [Option.some.injEq] at hb
    rw [← hb]
    exact ⟨nodup_nil, nofun⟩

end Locked

end CisApp.Retention
