import Mathlib

/-! The whole-tour read (`_atomize_whole_tour_legacy` of `services/acp_contract/a3_atomize.py`).

The read inserts its rows one by one and retires the others last, each statement on its own; the skip looks at the hash
of the newest row alone.  A read that stops in between leaves a newest row with the hash of its text, and the next run of
that text takes it for a finished one.

The runs of a tour come one at a time, and a row is newer than the rows that were there when it was inserted, so the
table is a list with the newest row at the end.  An id is the number of its run and a count: the random ids are
distinct. -/

namespace CisApp.Atomize.Legacy

open List Option

/-! ## The run -/

/-- An atom of the reply; the other columns are stored as they come. -/
structure Atom where
  place : String
  action : String
  activityType : Option String
  emotionalHook : Option String
  visualPotential : Int
  personaFit : List String
  seasonNote : Option String
  itineraryDay : Option Int
deriving Repr, DecidableEq

variable {δ : Type}

/-- What is called on the way: the hash of the prompt, the filter of logistics, the forbidden words taken out of an
action, and the text of an atom. -/
structure Env (δ : Type) where
  sha256 : String → δ
  isLogisticsAtom : String → String → Bool
  stripAtomAction : String → String
  deriveAtomText : String → String → String

/-- A row of `tour_atoms` of the tour with `owner_scope = 'platform'`; an empty marker has no atom. -/
structure Row (δ : Type) where
  atomId : Nat × Nat
  text : String
  atom : Option Atom
  sourceHash : δ
  deleted : Bool
deriving Repr, DecidableEq

abbrev Rows (δ : Type) := List (Row δ)

/-- A run: the prompt of its text, `force`, the atoms of `_ask_atoms` (`none` when every attempt failed), and after how
many of its writing statements it stops, if it does. -/
structure Run where
  prompt : String
  force : Bool
  reply : Option (List Atom)
  stop : Option Nat
deriving Repr, DecidableEq

inductive Outcome where
  | skipped
  | failed
  | success
  | stopped
deriving Repr, DecidableEq

/-- `ORDER BY created_at DESC LIMIT 1` -/
def latestHash (rows : Rows δ) : Option δ := rows.getLast?.map Row.sourceHash

def emptyMarker : String := "(zero-atom marker — no content, see is_empty_marker)"

/-- The rows that the `n`th run inserts for the atoms of its reply. -/
def rowsOf (env : Env δ) (n : Nat) (prompt : String) (reply : List Atom) : Rows δ :=
  match reply.filter fun a => !env.isLogisticsAtom a.place a.action with
  | [] => [⟨(n, 0), emptyMarker, none, env.sha256 prompt, false⟩]
  | atoms => atoms.zipIdx.map fun x =>
    let action := env.stripAtomAction x.1.action
    ⟨(n, x.2), env.deriveAtomText x.1.place action, some { x.1 with action := action }, env.sha256 prompt, false⟩

inductive Statement (δ : Type) where
  | insert (row : Row δ)
  /-- `_RETIRE_REPLACED_SQL` -/
  | retireReplaced (keptIds : List (Nat × Nat))

def Statement.exec (rows : Rows δ) : Statement δ → Rows δ
  | .insert row => rows ++ [row]
  | .retireReplaced keptIds => rows.map fun r => if r.atomId ∈ keptIds then r else { r with deleted := true }

def statements (new : Rows δ) : List (Statement δ) :=
  new.map .insert ++ [.retireReplaced (new.map Row.atomId)]

def live (rows : Rows δ) : Rows δ := rows.filter fun r => !r.deleted

/-! ## Its statements -/

section Statements

variable {env : Env δ}

theorem rowsOf_ne_nil (n : Nat) (prompt : String) (reply : List Atom) : rowsOf env n prompt reply ≠ [] := by
  unfold rowsOf
  split
  · exact cons_ne_nil _ _
  · next hne => simpa using hne

theorem mem_rowsOf {n : Nat} {prompt : String} {reply : List Atom} {row : Row δ}
    (h : row ∈ rowsOf env n prompt reply) :
    row.atomId.1 = n ∧ row.sourceHash = env.sha256 prompt ∧ row.deleted = false := by
  unfold rowsOf at h
  split at h
  · rw [mem_singleton.1 h]
    exact ⟨rfl, rfl, rfl⟩
  · obtain ⟨x, -, rfl⟩ := mem_map.1 h
    exact ⟨rfl, rfl, rfl⟩

theorem foldl_insert (rows new : Rows δ) : (new.map Statement.insert).foldl Statement.exec rows = rows ++ new := by
  induction new generalizing rows with
  | nil => simp
  | cons r new ih =>
    rw [map_cons, foldl_cons, ih]
    simp [Statement.exec]

theorem statements_take {new : Rows δ} {k : Nat} (hk : new.length < k) : (statements new).take k = statements new := by
  refine take_of_length_le ?_
  simp only [statements, length_append, length_map, length_singleton]
  omega

theorem foldl_statements_take (rows new : Rows δ) {k : Nat} (hk : k ≤ new.length) :
    ((statements new).take k).foldl Statement.exec rows = rows ++ new.take k := by
  have htake : (statements new).take k = (new.take k).map Statement.insert := by
    unfold statements
    rw [take_append_of_le_length (by simpa using hk), map_take]
  rw [htake, foldl_insert]

theorem foldl_statements {rows new : Rows δ} {n : Nat} (hold : ∀ r ∈ rows, r.atomId.1 < n)
    (hnew : ∀ r ∈ new, r.atomId.1 = n) : (statements new).foldl Statement.exec rows =
      rows.map (fun r => { r with deleted := true }) ++ new := by
  unfold statements
  rw [foldl_append, foldl_insert]
  show ((rows ++ new).map fun r => if r.atomId ∈ new.map Row.atomId then r else { r with deleted := true }) = _
  rw [map_append]
  congr 1
  · refine map_congr_left fun r hr => if_neg fun hmem => ?_
    obtain ⟨x, hx, hid⟩ := mem_map.1 hmem
    have := hold r hr
    rw [← hid, hnew x hx] at this
    exact lt_irrefl _ this
  · exact (map_congr_left fun r hr => if_pos (mem_map_of_mem hr)).trans (map_id new)

theorem live_retired {rows new : Rows δ} (hnew : ∀ r ∈ new, r.deleted = false) :
    live (rows.map (fun r => { r with deleted := true }) ++ new) = new := by
  unfold live
  rw [filter_append, filter_eq_nil_iff.2 (by simp), nil_append, filter_eq_self.2 fun r hr => by rw [hnew r hr]; rfl]

end Statements

/-! ## A whole run -/

variable [DecidableEq δ]

/-- The run takes the newest row for a read of its text. -/
def skips (env : Env δ) (rows : Rows δ) (r : Run) : Bool :=
  latestHash rows = some (env.sha256 r.prompt) && !r.force

/-- `_atomize_whole_tour_legacy`, the `n`th run. -/
def atomizeWholeTour (env : Env δ) (rows : Rows δ) (n : Nat) (r : Run) : Rows δ × Outcome :=
  if skips env rows r then (rows, if r.stop.isSome then .stopped else .skipped)
  else
    match r.reply with
    | none => (rows, if r.stop.isSome then .stopped else .failed)
    | some reply =>
      let todo := statements (rowsOf env n r.prompt reply)
      match r.stop with
      | none => (todo.foldl Statement.exec rows, .success)
      | some k => ((todo.take k).foldl Statement.exec rows, .stopped)

def after (env : Env δ) (runs : List Run) : Rows δ :=
  runs.zipIdx.foldl (fun rows x => (atomizeWholeTour env rows x.2 x.1).1) []

/-! ## Completed reads -/

variable {env : Env δ} {runs : List Run} {rows : Rows δ}

theorem after_concat (r : Run) : after env (runs ++ [r]) = (atomizeWholeTour env (after env runs) runs.length r).1 := by
  unfold after
  rw [zipIdx_append, foldl_append]
  simp

/-- The `n`th run reads: it does not skip, and gets a reply. -/
structure Reads (env : Env δ) (runs : List Run) (n : Nat) (r : Run) (reply : List Atom) : Prop where
  run : runs[n]? = some r
  asks : skips env (after env (runs.take n)) r = false
  answered : r.reply = some reply

/-- The `n`th run is a read of the prompt whose statements all ran, and `new` are its rows. -/
def Completed (env : Env δ) (runs : List Run) (n : Nat) (prompt : String) (new : Rows δ) : Prop :=
  ∃ r reply, Reads env runs n r reply ∧ r.prompt = prompt ∧ new = rowsOf env n prompt reply ∧
    ∀ k, r.stop = some k → new.length < k

/-- The `n`th run stopped after an insert and before its retire statement. -/
def CutOff (env : Env δ) (runs : List Run) (n : Nat) : Prop :=
  ∃ r reply k, Reads env runs n r reply ∧ r.stop = some k ∧ 0 < k ∧ k ≤ (rowsOf env n r.prompt reply).length

/-- What the `n`th of the runs does. -/
def result (env : Env δ) (runs : List Run) (n : Nat) (r : Run) : Rows δ × Outcome :=
  atomizeWholeTour env (after env (runs.take n)) n r

/-- Whenever a run returns success or skipped, the live rows are those of one completed read of its text. -/
def SkipsAfterRead (env : Env δ) (runs : List Run) : Prop :=
  ∀ n r, runs[n]? = some r → (result env runs n r).2 ∈ [.success, .skipped] →
    ∃ m ≤ n, Completed env runs m r.prompt (live (result env runs n r).1)

/-- The run is neither forced nor stopped, and the newest row is of a read of its text that was cut off. -/
def TakesCutOff (env : Env δ) (runs : List Run) (n : Nat) (r : Run) : Prop :=
  r.stop = none ∧ r.force = false ∧ ∃ row, (after env (runs.take n)).getLast? = some row ∧
    row.sourceHash = env.sha256 r.prompt ∧ CutOff env runs row.atomId.1

variable {n : Nat}

theorem Reads.append {r : Run} {reply : List Atom} (h : Reads env runs n r reply) (more : List Run) :
    Reads env (runs ++ more) n r reply := by
  have hn : n < runs.length := (List.getElem?_eq_some_iff.1 h.run).1
  refine ⟨?_, ?_, h.answered⟩
  · rw [getElem?_append_left hn]
    exact h.run
  · rw [take_append_of_le_length hn.le]
    exact h.asks

theorem Completed.append {prompt : String} {new : Rows δ} (h : Completed env runs n prompt new)
    (more : List Run) : Completed env (runs ++ more) n prompt new := by
  obtain ⟨r, reply, hreads, h⟩ := h
  exact ⟨r, reply, hreads.append more, h⟩

theorem CutOff.append (h : CutOff env runs n) (more : List Run) : CutOff env (runs ++ more) n := by
  obtain ⟨r, reply, k, hreads, h⟩ := h
  exact ⟨r, reply, k, hreads.append more, h⟩

theorem not_cutOff {prompt : String} {new : Rows δ} (h : Completed env runs n prompt new) : ¬CutOff env runs n := by
  rintro ⟨r', reply', k, hreads', hstop, -, hle⟩
  obtain ⟨r, reply, hreads, rfl, rfl, hall⟩ := h
  obtain rfl := Option.some.inj (hreads.run.symm.trans hreads'.run)
  obtain rfl := Option.some.inj (hreads.answered.symm.trans hreads'.answered)
  exact absurd hle (not_le.2 (hall k hstop))

/-! ## The newest row -/

/-- The newest row is of a read that was cut off, or of one whose rows are the live ones. -/
structure Newest (env : Env δ) (runs : List Run) (rows : Rows δ) : Prop where
  ids : ∀ r ∈ rows, r.atomId.1 < runs.length
  shown : ∀ r, rows.getLast? = some r → r.deleted = false
  newest : ∀ r, rows.getLast? = some r → CutOff env runs r.atomId.1 ∨
    ∃ prompt, r.sourceHash = env.sha256 prompt ∧ Completed env runs r.atomId.1 prompt (live rows)

theorem Newest.append (h : Newest env runs rows) (more : List Run) : Newest env (runs ++ more) rows := by
  refine ⟨fun r hr => ?_, h.shown, fun r hr => ?_⟩
  · have := h.ids r hr
    rw [length_append]
    omega
  · rcases h.newest r hr with hcut | ⟨prompt, hhash, hread⟩
    · exact Or.inl (hcut.append more)
    · exact Or.inr ⟨prompt, hhash, hread.append more⟩

theorem Newest.insert {new more : Rows δ} (hn : n < runs.length)
    (hids : ∀ r ∈ more, r.atomId.1 < runs.length) (hne : new ≠ []) (hnew : ∀ r ∈ new, r.atomId.1 = n ∧ r.deleted = false)
    (hread : ∀ r ∈ new, CutOff env runs n ∨
      ∃ prompt, r.sourceHash = env.sha256 prompt ∧ Completed env runs n prompt (live (more ++ new))) :
    Newest env runs (more ++ new) := by
  have hlast : ∀ r, (more ++ new).getLast? = some r → r ∈ new := by
    intro r hr
    rw [getLast?_append_of_ne_nil _ hne] at hr
    exact mem_of_getLast? hr
  refine ⟨?_, fun r hr => (hnew r (hlast r hr)).2, fun r hr => ?_⟩
  · intro r hr
    rcases mem_append.1 hr with hr | hr
    · exact hids r hr
    · rw [(hnew r hr).1]
      exact hn
  · rw [(hnew r (hlast r hr)).1]
    exact hread r (hlast r hr)

theorem atomizeWholeTour_of_reads {r : Run} {reply : List Atom} (hasks : skips env rows r = false)
    (hreply : r.reply = some reply) : (atomizeWholeTour env rows n r).1 =
      ((statements (rowsOf env n r.prompt reply)).take
        (r.stop.getD ((rowsOf env n r.prompt reply).length + 1))).foldl Statement.exec rows := by
  unfold atomizeWholeTour
  rw [hasks, hreply]
  cases hstop : r.stop with
  | none =>
    rw [getD_none, statements_take (Nat.lt_succ_self _)]
    rfl
  | some k => rfl

theorem Newest.step (h : Newest env runs rows) (hrows : rows = after env runs) (r : Run) :
    Newest env (runs ++ [r]) (atomizeWholeTour env rows runs.length r).1 := by
  have hold : ∀ x ∈ rows, x.atomId.1 < (runs ++ [r]).length := (h.append [r]).ids
  have hlast : runs.length < (runs ++ [r]).length := by simp
  have hsame : (atomizeWholeTour env rows runs.length r).1 = rows →
      Newest env (runs ++ [r]) (atomizeWholeTour env rows runs.length r).1 := by
    intro heq
    rw [heq]
    exact h.append [r]
  cases hskips : skips env rows r with
  | true =>
    refine hsame ?_
    unfold atomizeWholeTour
    rw [hskips]
    rfl
  | false =>
    cases hreply : r.reply with
    | none =>
      refine hsame ?_
      unfold atomizeWholeTour
      rw [hskips, hreply]
      rfl
    | some reply =>
      have hreads : Reads env (runs ++ [r]) runs.length r reply := by
        refine ⟨by simp, ?_, hreply⟩
        rw [take_left, ← hrows]
        exact hskips
      have hmem := @mem_rowsOf δ env runs.length r.prompt reply
      have hne := @rowsOf_ne_nil δ env runs.length r.prompt reply
      rw [atomizeWholeTour_of_reads hskips hreply]
      generalize hnew : rowsOf env runs.length r.prompt reply = new at hmem hne ⊢
      by_cases hk : r.stop.getD (new.length + 1) ≤ new.length
      · rw [foldl_statements_take rows new hk]
        obtain ⟨k, hstop⟩ : ∃ k, r.stop = some k := by
          cases hstop : r.stop with
          | none =>
            rw [hstop] at hk
            exact absurd hk (by simp)
          | some k => exact ⟨k, rfl⟩
        rw [hstop, getD_some] at hk ⊢
        rcases Nat.eq_zero_or_pos k with rfl | hpos
        · rw [take_zero, append_nil]
          exact h.append [r]
        · have htake : new.take k ≠ [] := by
            rw [Ne, take_eq_nil_iff]
            rintro (rfl | hnil)
            · exact absurd hpos (lt_irrefl _)
            · exact hne hnil
          refine Newest.insert hlast hold htake (fun x hx => ?_) fun x hx => Or.inl ?_
          · have := hmem (mem_of_mem_take hx)
            exact ⟨this.1, this.2.2⟩
          · exact ⟨r, reply, k, hreads, hstop, hpos, by rw [hnew]; exact hk⟩
      · have hnewId : ∀ x ∈ new, x.atomId.1 = runs.length := fun x hx => (hmem hx).1
        rw [statements_take (not_le.1 hk), foldl_statements h.ids hnewId]
        refine Newest.insert hlast ?_ hne (fun x hx => ⟨(hmem hx).1, (hmem hx).2.2⟩) fun x hx => Or.inr ?_
        · intro x hx
          obtain ⟨y, hy, rfl⟩ := mem_map.1 hx
          exact hold y hy
        · refine ⟨r.prompt, (hmem hx).2.1, r, reply, hreads, rfl, ?_, fun k hstop => ?_⟩
          · rw [live_retired fun y hy => (hmem hy).2.2, hnew]
          · rw [live_retired fun y hy => (hmem hy).2.2]
            rw [hstop, getD_some] at hk
            omega

theorem newest_after (runs : List Run) : Newest env runs (after env runs) := by
  induction runs using List.reverseRecOn with
  | nil => exact ⟨by simp [after], by simp [after], by simp [after]⟩
  | append_singleton runs r ih =>
    rw [after_concat]
    exact ih.step rfl r

/-! ## Every history -/

theorem skips_iff {r : Run} : skips env rows r = true ↔
    r.force = false ∧ ∃ row, rows.getLast? = some row ∧ row.sourceHash = env.sha256 r.prompt := by
  unfold skips latestHash
  rw [Bool.and_eq_true, decide_eq_true_eq, map_eq_some_iff, Bool.not_eq_true']
  exact and_comm

theorem result_of_skips {r : Run} (h : skips env (after env (runs.take n)) r = true) (hstop : r.stop = none) :
    result env runs n r = (after env (runs.take n), .skipped) := by
  unfold result atomizeWholeTour
  rw [h, hstop]
  rfl

/-- **The whole-tour read.**  In every history of runs the skip comes after a completed read of the run's text, exactly
when no run finds the newest row left by a read of its text that was cut off. -/
theorem skipsAfterRead_iff (hsha : Function.Injective env.sha256) (runs : List Run) :
    SkipsAfterRead env runs ↔ ∀ n r, runs[n]? = some r → ¬TakesCutOff env runs n r := by
  constructor
  · rintro h n r hr ⟨hstop, hforce, row, hlast, hhash, hcut⟩
    have hskips : skips env (after env (runs.take n)) r = true := skips_iff.2 ⟨hforce, row, hlast, hhash⟩
    obtain ⟨m, -, hread⟩ := h n r hr (by rw [result_of_skips hskips hstop]; simp)
    rw [result_of_skips hskips hstop] at hread
    have hlive : row ∈ live (after env (runs.take n)) :=
      mem_filter.2 ⟨mem_of_getLast? hlast, by rw [(newest_after _).shown row hlast]; rfl⟩
    obtain ⟨r', reply, hreads, hprompt, hnew, hall⟩ := hread
    have hid : row.atomId.1 = m := (mem_rowsOf (hnew ▸ hlive)).1
    exact not_cutOff ⟨r', reply, hreads, hprompt, hnew, hall⟩ (hid ▸ hcut)
  · intro h n r hr hreturns
    have hn : n < runs.length := (List.getElem?_eq_some_iff.1 hr).1
    cases hskips : skips env (after env (runs.take n)) r with
    | true =>
      have hstop : r.stop = none := by
        cases hstop : r.stop with
        | none => rfl
        | some k =>
          unfold result atomizeWholeTour at hreturns
          rw [hskips, hstop] at hreturns
          simp at hreturns
      obtain ⟨hforce, row, hlast, hhash⟩ := skips_iff.1 hskips
      rw [result_of_skips hskips hstop]
      have hids := (newest_after _).ids row (mem_of_getLast? hlast)
      rcases (newest_after _).newest row hlast with hcut | ⟨prompt, hprompt, hread⟩
      · have hcut' := hcut.append (runs.drop n)
        rw [take_append_drop] at hcut'
        exact absurd ⟨hstop, hforce, row, hlast, hhash, hcut'⟩ (h n r hr)
      · have heq : prompt = r.prompt := hsha (hprompt.symm.trans hhash)
        have hread' := hread.append (runs.drop n)
        rw [take_append_drop, heq] at hread'
        rw [length_take] at hids
        exact ⟨row.atomId.1, by omega, hread'⟩
    | false =>
      have hreply : ∃ reply, r.reply = some reply ∧ r.stop = none := by
        unfold result atomizeWholeTour at hreturns
        rw [hskips] at hreturns
        cases hreply : r.reply with
        | none =>
          rw [hreply] at hreturns
          cases hstop : r.stop <;> simp [hstop] at hreturns
        | some reply =>
          rw [hreply] at hreturns
          cases hstop : r.stop with
          | none => exact ⟨reply, rfl, rfl⟩
          | some k => simp [hstop] at hreturns
      obtain ⟨reply, hreply, hstop⟩ := hreply
      have hids : ∀ x ∈ after env (runs.take n), x.atomId.1 < n := by
        intro x hx
        have := (newest_after _).ids x hx
        rw [length_take] at this
        omega
      have hlive : live (result env runs n r).1 = rowsOf env n r.prompt reply := by
        unfold result
        rw [atomizeWholeTour_of_reads hskips hreply, hstop, Option.getD_none,
          statements_take (Nat.lt_succ_self _), foldl_statements hids fun x hx => (mem_rowsOf hx).1,
          live_retired fun x hx => (mem_rowsOf hx).2.2]
      refine ⟨n, le_refl n, r, reply, ⟨hr, hskips, hreply⟩, rfl, hlive, fun k hk => ?_⟩
      rw [hstop] at hk
      cases hk

def plain : Env String := ⟨id, fun _ _ => false, id, fun place action => place ++ ": " ++ action⟩

def atom (place : String) : Atom := ⟨place, "walk", none, none, 1, [], none, none⟩

/-- A read of two atoms, in full or stopped after `stop` statements. -/
def readTwo (stop : Option Nat) : Run := ⟨"a tour", false, some [atom "lake", atom "market"], stop⟩

/-- A run that repeats a finished read. -/
theorem skips_after_finished_read : SkipsAfterRead plain [readTwo none, readTwo none] := by
  refine (skipsAfterRead_iff (fun _ _ h => h) _).2 ?_
  rintro n r hr ⟨-, -, row, -, -, r', reply, k, hreads, hstop, -, -⟩
  have hmem := mem_of_getElem? hreads.run
  obtain rfl : r' = readTwo none := by simpa using hmem
  cases hstop

/-- A run that repeats a read stopped after its first atom is skipped, with that one atom for the tour. -/
theorem skips_after_cut_off_read : ¬SkipsAfterRead plain [readTwo (some 1), readTwo none] := by
  intro h
  obtain ⟨m, -, r, reply, hreads, -, hnew, -⟩ := h 1 (readTwo none) rfl (by decide +kernel)
  have hlen : (live (result plain [readTwo (some 1), readTwo none] 1 (readTwo none)).1).length = 1 := by decide +kernel
  have hmem := mem_of_getElem? hreads.run
  have hreply : reply = [atom "lake", atom "market"] := by
    rcases mem_pair.1 hmem with rfl | rfl
    · exact (Option.some.inj hreads.answered).symm
    · exact (Option.some.inj hreads.answered).symm
  rw [hnew, hreply] at hlen
  exact absurd hlen (by simp [rowsOf, plain])

end CisApp.Atomize.Legacy
