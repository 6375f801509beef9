import CisApp.Retention.Attempts

/-! The approved count as a ceiling for a whole job.

What limits the next attempt is the count in the progress, which is saved after the batch is committed.  As long
as no attempt stops between the two (`Saves`), the count is that of the deleted rows and the attempts together
stay below the ceiling.  An attempt that does stop there has its last batch deleted once more by the next one. -/

namespace CisApp.Retention

open Lib

variable {ρ : Type}

/-- What was approved for the job: `max_rows`, for a scheduled job `RUN_MAX_ROWS`.  A count below 1 is refused. -/
def Payload.ceiling (payload : Payload) : Int :=
  if payload.trigger = .schedule then runMaxRows else max (payload.maxRows.toInt?.getD 0) 0

def WithinCeiling (payload : Payload) (s : JobState ρ) : Prop := (s.gone.length : Int) ≤ payload.ceiling

/-- No attempt stops after a batch is committed and before it is in the progress. -/
def Saves (s : JobState ρ) (act : Step ρ) : Prop :=
  act = .stop → ∀ a, s.attempt = some a → a.stage ≠ .committed

/-! ## The invariant -/

/-- What an attempt has deleted and locked fits into its part's limit, and that into the ceiling. -/
structure Attempt.Fits (payload : Payload) (a : Attempt ρ) : Prop where
  part : (a.deleted : Int) + a.stage.rows.length ≤ max a.remaining 0
  job : a.already + a.before + max a.remaining 0 ≤ payload.ceiling

/-- The count of the progress is that of the deleted rows, but for a batch that is not saved yet. -/
structure Counted (payload : Payload) (s : JobState ρ) : Prop where
  bound : WithinCeiling payload s
  idle : s.attempt = none → s.progress.deletedTotal = s.gone.length
  total : ∀ a, s.attempt = some a → (s.gone.length : Int) = a.already + a.before + a.deleted
  saved : ∀ a, s.attempt = some a → a.stage ≠ .committed → s.progress.deletedTotal = s.gone.length
  fits : ∀ a, s.attempt = some a → a.Fits payload

section Attempts

variable {ledger : Ledger ρ} {gzip : Gzip} {jobId : Text} {payload : Payload} {s s' : JobState ρ}

theorem decideMode_limit {windows candidates : Nat} {prevLive : Option LiveResult} {limitRows : Int}
    (h : decideMode payload windows candidates prevLive = .ok (.live, limitRows))
    (hmanual : payload.trigger ≠ .schedule) : limitRows ≤ payload.ceiling := by
  unfold Payload.ceiling
  rw [if_neg hmanual]
  unfold decideMode at h
  split at h
  · split at h
    · cases h
    · split at h
      · next n hrows =>
        split at h
        · injection h with h
          injection h with _ h
          rw [hrows, ← h]
          exact le_max_left n 0
        · cases h
      · cases h
  · next hschedule => exact absurd hschedule hmanual
  · split at h
    · cases h
    · split at h
      · next n hrows =>
        split at h
        · injection h with h
          injection h with _ h
          rw [hrows, ← h]
          show min n runMaxRows ≤ max n 0
          omega
        · cases h
      · cases h

theorem rowsLeft_le {limitRows already : Int} (hlimit : payload.trigger ≠ .schedule → limitRows ≤ payload.ceiling)
    (halready : already ≤ payload.ceiling) :
    already + max (rowsLeft payload.trigger limitRows already) 0 ≤ payload.ceiling := by
  unfold rowsLeft
  split
  · next hschedule =>
    have hceiling : payload.ceiling = runMaxRows := if_pos hschedule
    omega
  · next hmanual =>
    have := hlimit hmanual
    omega

theorem Counted.stop (h : Counted payload s) (hstage : ∀ a, s.attempt = some a → a.stage ≠ .committed) :
    Counted payload { s with attempt := none } where
  bound := h.bound
  idle _ := by
    cases ha : s.attempt with
    | none => exact h.idle ha
    | some a => exact h.saved a ha (hstage a ha)
  total a ha := by cases ha
  saved a ha := by cases ha
  fits a ha := by cases ha

theorem Counted.restage {a : Attempt ρ} (h : Counted payload s) (ha : s.attempt = some a) (hstage : a.stage ≠ .committed)
    (stage : Stage ρ) (hrows : (a.deleted : Int) + stage.rows.length ≤ max a.remaining 0) (objects : List Object) :
    Counted payload { s with objects := objects, attempt := some { a with stage := stage } } where
  bound := h.bound
  idle hn := by cases hn
  total b hb := by
    rw [← Option.some.inj hb]
    exact h.total a ha
  saved _ _ _ := h.saved a ha hstage
  fits b hb := by
    rw [← Option.some.inj hb]
    exact ⟨hrows, (h.fits a ha).job⟩

theorem length_want_le (payload : Payload) {a : Attempt ρ} (hroom : (a.deleted : Int) < a.remaining) :
    (a.deleted : Int) + a.want payload ≤ a.remaining := by
  unfold Attempt.want
  omega

theorem Counted.moves [DecidableEq ρ] (h : Counted payload s) (hlock : Locked s) (hm : Moves ledger gzip jobId payload s s') :
    Counted payload s' := by
  cases hm with
  | outside t =>
    exact ⟨h.bound, h.idle, h.total, h.saved, h.fits⟩
  | start at₀ survey hfree =>
    have hidle := h.idle hfree
    have hbound : (s.gone.length : Int) ≤ payload.ceiling := h.bound
    -- the attempt begins with the count of the deleted rows
    have hstart : ∀ a, startAttempt ledger payload s at₀ survey = some a →
        a.already = s.gone.length ∧ a.before = 0 ∧ a.deleted = 0 ∧ a.stage = .next ∧
          a.already + max a.remaining 0 ≤ payload.ceiling := by
      intro a ha
      unfold startAttempt at ha
      simp only at ha
      split at ha
      · next limitRows hmode =>
        rw [Option.some.injEq] at ha
        rw [← ha]
        exact ⟨hidle, rfl, rfl, rfl, rowsLeft_le (decideMode_limit hmode) (hidle ▸ hbound)⟩
      · cases ha
    refine ⟨h.bound, fun _ => hidle, fun a ha => ?_, fun _ _ _ => hidle, fun a ha => ?_⟩
    · obtain ⟨halready, hbefore, hdeleted, -, -⟩ := hstart a ha
      show (s.gone.length : Int) = a.already + a.before + a.deleted
      omega
    · obtain ⟨-, hbefore, hdeleted, hstage, hroom⟩ := hstart a ha
      constructor
      · rw [hdeleted, hstage]
        show ((0 : Nat) : Int) + (0 : Nat) ≤ max a.remaining 0
        omega
      · omega
  | endPart a ha hstage =>
    have htotal := h.total a ha
    have hsaved := h.saved a ha (by rw [hstage]; simp)
    obtain ⟨hpart, hjob⟩ := h.fits a ha
    refine ⟨h.bound, fun hn => ?_, fun b hb => ?_, fun b hb _ => hsaved, fun b hb => ?_⟩
    · cases hn
    · rw [← Option.some.inj hb]
      show (s.gone.length : Int) = a.already + (a.before + a.deleted : Nat) + (0 : Nat)
      omega
    · rw [← Option.some.inj hb]
      constructor
      · show ((0 : Nat) : Int) + (0 : Nat) ≤ max (a.remaining - a.deleted) 0
        omega
      · show a.already + (a.before + a.deleted : Nat) + max (a.remaining - a.deleted) 0 ≤ payload.ceiling
        omega
  | fetch a part cut parts snap cond rows ha hstage hparts hroom hrows hsome =>
    have hlen : (if part.archive then ledger.monthPrefix rows else rows).length ≤ rows.length := by
      split
      · exact (monthPrefix_sublist rows).length_le
      · exact le_refl _
    have hwant := (fetch_spec ledger cond cut a.cursor snap s.table (a.want payload)).2.2
    rw [← hrows] at hwant
    have hfit := length_want_le payload hroom
    refine h.restage ha (by rw [hstage]; simp) _ ?_ s.objects
    show (a.deleted : Int) + (if part.archive then ledger.monthPrefix rows else rows).length ≤ max a.remaining 0
    omega
  | put a part cut parts x rows ha hstage hparts harchive =>
    have hpart := (h.fits a ha).part
    rw [hstage] at hpart
    exact h.restage ha (by rw [hstage]; simp) (.written (x :: rows) _) hpart _
  | putLost a part cut parts x rows ha hstage hparts =>
    have hstop := h.stop fun b hb => by
      rw [ha, Option.some.injEq] at hb
      rw [← hb, hstage]
      simp
    exact ⟨hstop.bound, hstop.idle, hstop.total, hstop.saved, hstop.fits⟩
  | verify a rows key ha hstage =>
    have hpart := (h.fits a ha).part
    rw [hstage] at hpart
    exact h.restage ha (by rw [hstage]; simp) (.verified rows) hpart _
  | remove a rows ha hstage =>
    have hpart := (h.fits a ha).part
    rcases hstage with hst | ⟨hst, -⟩
    · rw [hst] at hpart
      exact h.restage ha (by rw [hst]; simp) (.removed rows) hpart s.objects
    · rw [hst] at hpart
      exact h.restage ha (by rw [hst]; simp) (.removed rows) hpart s.objects
  | commit a part cut parts rows last ha hstage hparts hlast =>
    obtain ⟨hnodup, hget⟩ := hlock a ha
    have htotal := h.total a ha
    obtain ⟨hpart, hjob⟩ := h.fits a ha
    rw [hstage] at hnodup hget hpart
    change (rows.map Prod.fst).Nodup at hnodup
    change (a.deleted : Int) + rows.length ≤ max a.remaining 0 at hpart
    have hgone : (s.gone ++ (s.table.rows.filter fun x => x.1 ∈ rows.map Prod.fst).map fun x =>
        (⟨part, x.1, x.2⟩ : Gone ρ)).length = s.gone.length + rows.length := by
      rw [List.length_append, List.length_map, (filter_perm_of_locked hnodup hget).length_eq]
    refine ⟨?_, fun hn => ?_, fun b hb => ?_, fun b hb hcom => ?_, fun b hb => ?_⟩
    · unfold WithinCeiling
      rw [hgone]
      omega
    · cases hn
    · rw [← Option.some.inj hb, hgone]
      show ((s.gone.length + rows.length : Nat) : Int) = a.already + a.before + (a.deleted + rows.length : Nat)
      omega
    · rw [← Option.some.inj hb] at hcom
      exact absurd rfl hcom
    · rw [← Option.some.inj hb]
      refine ⟨?_, hjob⟩
      show ((a.deleted + rows.length : Nat) : Int) + (0 : Nat) ≤ max a.remaining 0
      omega
  | save a part cut parts cursor ha hstage hparts hcursor =>
    have htotal := h.total a ha
    obtain ⟨hpart, hjob⟩ := h.fits a ha
    rw [hstage] at hpart
    refine ⟨h.bound, fun hn => ?_, fun b hb => ?_, fun b hb _ => htotal.symm, fun b hb => ?_⟩
    · cases hn
    · rw [← Option.some.inj hb]
      exact htotal
    · rw [← Option.some.inj hb]
      exact ⟨hpart, hjob⟩
  | fail a ha hstage => exact h.stop hstage

theorem counted_newJob (payload : Payload) (t : Table Nat ρ) : Counted payload (newJob t) where
  bound := by
    show ((0 : Nat) : Int) ≤ payload.ceiling
    unfold Payload.ceiling
    split
    · decide
    · exact le_max_right _ 0
  idle _ := rfl
  total _ ha := by cases ha
  saved _ ha := by cases ha
  fits _ ha := by cases ha

theorem locked_newJob (t : Table Nat ρ) : Locked (newJob t) := nofun

theorem Locked.step [DecidableEq ρ] (h : Locked s) (act : Step ρ) : Locked (jobStep ledger gzip jobId payload s act) := by
  by_cases hstop : act = .stop
  · subst hstop
    intro a ha
    cases ha
  · rcases jobStep_moves s act hstop with heq | hm
    · rw [heq]
      exact h
    · exact h.moves hm

theorem Counted.step [DecidableEq ρ] (h : Counted payload s) (hlock : Locked s) {act : Step ρ} (hact : Saves s act) :
    Counted payload (jobStep ledger gzip jobId payload s act) := by
  by_cases hstop : act = .stop
  · have := h.stop (hact hstop)
    subst hstop
    exact this
  · rcases jobStep_moves s act hstop with heq | hm
    · rw [heq]
      exact h
    · exact h.moves hlock hm

end Attempts

/-- **The approved count is a ceiling for every job whose attempts save what they commit.**  Whatever the table,
the other transactions, the answers of S3 and the points at which attempts stop, as long as none stops between
the commit of a batch and the save of its count. -/
theorem deleted_within_ceiling [DecidableEq ρ] (ledger : Ledger ρ) (gzip : Gzip) (jobId : Text) (payload : Payload)
    (t : Table Nat ρ) (acts : List (Step ρ))
    (hacts : Along (jobStep ledger gzip jobId payload) Saves (newJob t) acts) :
    Always (jobStep ledger gzip jobId payload) (WithinCeiling payload) (newJob t) acts := by
  have hinv : Always (jobStep ledger gzip jobId payload) (fun s => Counted payload s ∧ Locked s) (newJob t) acts :=
    hacts.always (fun s act h hact => ⟨h.1.step h.2 hact, h.2.step act⟩)
      ⟨counted_newJob payload t, locked_newJob t⟩
  exact hinv.mono fun s h => h.1.bound

/-! ### Two expired rows, one of them approved -/

namespace Approved

/-- A table whose rows are their times; its one part is not archived. -/
def ledger : Ledger Nat := ⟨"job".toList, [⟨"succeeded".toList, false⟩], by simp, id, fun _ _ => [], fun _ _ => by simp⟩

def expandFrom : Nat → List UInt8 → Text
  | _, [] => []
  | n, b :: bytes => if b = 0 then Char.ofNat n :: expandFrom 0 bytes else expandFrom (n + 1) bytes

theorem expandFrom_replicate (n k : Nat) (bytes : List UInt8) :
    expandFrom n (List.replicate k 1 ++ 0 :: bytes) = Char.ofNat (n + k) :: expandFrom 0 bytes := by
  induction k generalizing n with
  | zero => rfl
  | succ k ih =>
    show expandFrom (n + 1) (List.replicate k 1 ++ 0 :: bytes) = _
    rw [ih, Nat.add_right_comm]
    rfl

/-- A code in place of `gzip`: every character counted out. -/
def gzip : Gzip where
  compress text := text.flatMap fun c => List.replicate c.toNat 1 ++ [0]
  expand := expandFrom 0
  inverse text := by
    induction text with
    | nil => rfl
    | cons c text ih =>
      rw [List.flatMap_cons, List.append_assoc, List.singleton_append, expandFrom_replicate, ih, Nat.zero_add,
        Char.ofNat_toNat]

def payload : Payload := ⟨.manual, true, .int 1, 0, none⟩

def table : Table Nat Nat := ⟨[(1, 10), (2, 20)], by decide⟩

def survey : Survey Nat := ⟨[(100, fun _ _ => true)], 30, none⟩

/-- One batch of the first rows of `t`. -/
def batch (t : Table Nat Nat) : List (Step Nat) := [.fetch t fun _ _ => true, .remove, .commit]

def crash : List (Step Nat) :=
  [Step.start 1000 survey] ++ batch table ++ [Step.stop, Step.start 2000 survey] ++ batch ⟨[(2, 20)], by decide⟩

def retried : List (Step Nat) :=
  [Step.start 1000 survey] ++ batch table ++ [Step.save, Step.stop, Step.start 2000 survey] ++
    batch ⟨[(2, 20)], by decide⟩

end Approved

open Approved in
/-- The second attempt does not know of the first one's row and deletes one more. -/
theorem ceiling_passed_after_crash :
    ¬ WithinCeiling payload (run (jobStep ledger gzip [] payload) (newJob table) crash) := by
  unfold WithinCeiling
  decide

open Approved in
/-- Where it was saved the second attempt deletes nothing. -/
theorem ceiling_kept_after_save : (run (jobStep ledger gzip [] payload) (newJob table) retried).gone.length = 1 ∧
      Always (jobStep ledger gzip [] payload) (WithinCeiling payload) (newJob table) retried := by
  refine ⟨by decide, deleted_within_ceiling ledger gzip [] payload table retried ?_⟩
  have hother : ∀ (s : JobState Nat) (act : Step Nat), act ≠ .stop → Saves s act := fun _ _ hne hstop => absurd hstop hne
  refine ⟨hother _ _ (by simp), hother _ _ (by simp), hother _ _ (by simp), hother _ _ (by simp), hother _ _ (by simp),
    fun _ a ha => ?_, hother _ _ (by simp), hother _ _ (by simp), hother _ _ (by simp), hother _ _ (by simp), trivial⟩
  -- the attempt stops at the head of its loop
  rw [← Option.some.inj ha]
  intro hloop
  cases hloop

end CisApp.Retention
