import CisApp.Retention.Ceiling

/-! No archived row is lost.

Every object that a job writes has a key of its own: the attempt's start time tells the attempts apart and the
part and batch number the objects of one attempt.  A row is deleted only after an object with its line was stored
and verified, so no later put takes that line away.

Without failures `delete_part` goes on until its limit or until no candidate is left.  What it deletes are the
first candidates, provided that a deletion makes no other row a candidate; in `shared.job` it may, since a job is
kept as long as another one has it as its parent. -/

namespace CisApp.Retention

open Lib Lib.Calendar List

/-! ## Keys -/

theorem stamp_inj {t t' : Nat} (h : stamp t = stamp t') : t = t' := by
  have hmonth : ∀ u, monthOf (dayOf u) % 12 + 1 < 10 ^ 2 := fun u => by omega
  have hday : ∀ u, dayOf u - monthStart (monthOf (dayOf u)) + 1 < 10 ^ 2 := fun u => by
    have hnext := (monthOf_spec (dayOf u)).2
    have hdays := (daysIn_bounds (monthOf (dayOf u))).2
    change dayOf u < monthStart (monthOf (dayOf u)) + daysIn (monthOf (dayOf u)) at hnext
    omega
  have hhour : ∀ u, u % dayLength / hour < 10 ^ 2 := fun u => by unfold dayLength hour; omega
  have hminute : ∀ u, u % hour / 60000000 < 10 ^ 2 := fun u => by unfold hour; omega
  have hsecond : ∀ u, u % 60000000 / 1000000 < 10 ^ 2 := fun u => by omega
  have hmicro : ∀ u, u % 1000000 < 10 ^ 6 := fun u => by omega
  have htwo : ∀ {n : Nat}, n < 10 ^ 2 → (zeroPad 2 n).length = 2 := fun hn => length_zeroPad (by omega) hn
  -- the fields are of fixed width, but for the year in front
  obtain ⟨hyear, h⟩ := append_inj' h (by
    simp only [length_append, length_cons, length_nil, htwo (hmonth _), htwo (hday _), htwo (hhour _),
      htwo (hminute _), htwo (hsecond _), length_zeroPad (by omega : 0 < 6) (hmicro _)])
  obtain ⟨hmonth', h⟩ := append_inj h (by rw [htwo (hmonth _), htwo (hmonth _)])
  obtain ⟨hday', h⟩ := append_inj h (by rw [htwo (hday _), htwo (hday _)])
  have h := (List.cons.inj h).2
  obtain ⟨hhour', h⟩ := append_inj h (by rw [htwo (hhour _), htwo (hhour _)])
  obtain ⟨hminute', h⟩ := append_inj h (by rw [htwo (hminute _), htwo (hminute _)])
  obtain ⟨hsecond', h⟩ := append_inj h (by rw [htwo (hsecond _), htwo (hsecond _)])
  have hmicro' := zeroPad_inj (append_cancel_right h)
  have hyear := zeroPad_inj hyear
  have hmonth' := zeroPad_inj hmonth'
  have hday' := zeroPad_inj hday'
  have hhour' := zeroPad_inj hhour'
  have hminute' := zeroPad_inj hminute'
  have hsecond' := zeroPad_inj hsecond'
  have hsame : monthOf (dayOf t) = monthOf (dayOf t') := by omega
  have hle := (monthOf_spec (dayOf t)).1
  have hle' := (monthOf_spec (dayOf t')).1
  rw [← hsame] at hle' hday'
  have hdays : dayOf t = dayOf t' := by omega
  unfold dayOf dayLength hour at hdays
  unfold dayLength hour at hhour'
  unfold hour at hminute'
  omega

theorem dash_notMem_stamp (t : Nat) : '-' ∉ stamp t := by
  unfold stamp
  simp only [mem_append, mem_cons, not_or]
  exact ⟨notMem_zeroPad rfl, notMem_zeroPad rfl, notMem_zeroPad rfl, by decide, notMem_zeroPad rfl,
    notMem_zeroPad rfl, notMem_zeroPad rfl, notMem_zeroPad rfl, by decide, by simp⟩

theorem objectKey_inj {archiveName jobId run run' part part' : Text} {t t' n n' : Nat} (hrun : '-' ∉ run)
    (hrun' : '-' ∉ run') (h : objectKey archiveName t jobId run part n = objectKey archiveName t' jobId run' part' n') :
    run = run' ∧ part = part' ∧ n = n' := by
  unfold objectKey monthFolder at h
  simp only [append_assoc, cons_append, nil_append] at h
  have h := (List.cons.inj (append_cancel_left (append_cancel_left h))).2
  have h := (cut_first (notMem_zeroPad rfl) (notMem_zeroPad rfl) h).2
  have h := (cut_first (notMem_zeroPad rfl) (notMem_zeroPad rfl) h).2
  have h := (List.cons.inj (append_cancel_left h)).2
  obtain ⟨hruns, h⟩ := cut_first hrun hrun' h
  refine ⟨hruns, ?_⟩
  have h : (part ++ ['-'] ++ 'b' :: zeroPad 5 n) ++ ".jsonl.gz".toList =
      (part' ++ ['-'] ++ 'b' :: zeroPad 5 n') ++ ".jsonl.gz".toList := by simpa using h
  obtain ⟨hparts, hbatch⟩ := cut_last (notMem_zeroPad rfl) (notMem_zeroPad rfl) (append_cancel_right h)
  exact ⟨append_cancel_right hparts, zeroPad_inj hbatch⟩

theorem mem_lines {docs : List Text} {doc : Text} (hdocs : ∀ d ∈ docs, '\n' ∉ d) (hdoc : doc ∈ docs) :
    doc ∈ (jsonLines docs).splitOn '\n' := by
  induction docs with
  | nil => cases hdoc
  | cons d docs ih =>
    have hd := hdocs d mem_cons_self
    have hsplit : (jsonLines (d :: docs)).splitOn '\n' = d :: (jsonLines docs).splitOn '\n' := by
      show (d ++ ['\n'] ++ jsonLines docs).splitOn '\n' = _
      rw [append_assoc, singleton_append]
      refine splitOnP_append_cons_of_forall_mem (fun c hc => ?_) '\n' (by simp) _
      rw [beq_eq_false_iff_ne]
      rintro rfl
      exact hd hc
    rw [hsplit]
    rcases mem_cons.1 hdoc with rfl | hdoc
    · exact mem_cons_self
    · exact mem_cons_of_mem _ (ih (fun e he => hdocs e (mem_cons_of_mem _ he)) hdoc)

/-! ## Rows and objects -/

section Rows

variable {ρ : Type}

def Stage.puts : Stage ρ → Nat
  | .written _ _ => 1
  | .verified _ => 1
  | .removed _ => 1
  | _ => 0

/-- The object is in the folder of the row's month and has a line for it. -/
def Object.Holds (ledger : Ledger ρ) (gzip : Gzip) (o : Object) (x : Nat × ρ) : Prop :=
  monthFolder ledger.archiveName (ledger.ts x.2) <+: o.key ∧
    ledger.doc x.1 x.2 ∈ (gzip.expand o.body).splitOn '\n'

def Kept (ledger : Ledger ρ) (gzip : Gzip) (objects : List Object) (x : Nat × ρ) : Prop :=
  ∃ o ∈ objects, o.verified = true ∧ o.Holds ledger gzip x

/-- What is true of an attempt and the objects so far. -/
structure Attempt.Sound (ledger : Ledger ρ) (gzip : Gzip) (jobId : Text) (objects : List Object) (starts : List Nat)
    (a : Attempt ρ) : Prop where
  started : ∃ at₀ ∈ starts, a.run = stamp at₀
  names : (a.parts.map fun p => p.1.name).Nodup
  /-- Its objects are of parts that are done, or of batches of the part under way. -/
  used : ∀ o ∈ objects, ∀ t part n, o.key = objectKey ledger.archiveName t jobId a.run part n →
    part ∈ a.parts.map (fun p => p.1.name) →
      a.parts.head?.map (fun p => p.1.name) = some part ∧ n ≤ a.batches + a.stage.puts
  month : ∀ rows part cut parts, a.stage = .fetched rows → a.parts = (part, cut) :: parts → part.archive = true →
    ∀ x ∈ rows, ∀ y ∈ rows, monthOf (dayOf (ledger.ts x.2)) = monthOf (dayOf (ledger.ts y.2))
  written : ∀ rows key, a.stage = .written rows key →
    ∃ o ∈ objects, o.key = key ∧ ∀ x ∈ rows, o.Holds ledger gzip x
  verified : ∀ rows, a.stage = .verified rows → ∀ x ∈ rows, Kept ledger gzip objects x
  removed : ∀ rows part cut parts, a.stage = .removed rows → a.parts = (part, cut) :: parts → part.archive = true →
    ∀ x ∈ rows, Kept ledger gzip objects x

/-- Every row that an archived part has deleted is in a verified object, no key was written twice. -/
structure Preserved (ledger : Ledger ρ) (gzip : Gzip) (s : JobState ρ) : Prop where
  gone : ∀ g ∈ s.gone, g.part.archive = true → Kept ledger gzip s.objects (g.id, g.row)
  /-- A row is there before its `DELETE` is committed. -/
  going : ∀ a rows part cut parts, s.attempt = some a → a.stage = .removed rows → a.parts = (part, cut) :: parts →
    part.archive = true → ∀ x ∈ rows, Kept ledger gzip s.objects x
  keys : (s.objects.map Object.key).Nodup

structure ArchiveInv (ledger : Ledger ρ) (gzip : Gzip) (jobId : Text) (s : JobState ρ) : Prop where
  named : ∀ o ∈ s.objects, ∃ at₀ ∈ s.starts, ∃ t part n,
    o.key = objectKey ledger.archiveName t jobId (stamp at₀) part n
  keys : (s.objects.map Object.key).Nodup
  gone : ∀ g ∈ s.gone, g.part.archive = true → Kept ledger gzip s.objects (g.id, g.row)
  attempt : ∀ a, s.attempt = some a → a.Sound ledger gzip jobId s.objects s.starts

variable {ledger : Ledger ρ} {gzip : Gzip} {jobId : Text} {payload : Payload} {s s' : JobState ρ}

variable {objects : List Object} {x : Nat × ρ}

theorem Kept.append (h : Kept ledger gzip objects x) (o : Object) : Kept ledger gzip (objects ++ [o]) x := by
  obtain ⟨p, hp, hrest⟩ := h
  exact ⟨p, mem_append_left _ hp, hrest⟩

def markVerified (key : Text) (o : Object) : Object := if o.key = key then { o with verified := true } else o

theorem markVerified_key (key : Text) (o : Object) : (markVerified key o).key = o.key := by
  unfold markVerified
  split
  · rfl
  · rfl

theorem markVerified_holds {key : Text} {o : Object} (h : o.Holds ledger gzip x) :
    (markVerified key o).Holds ledger gzip x := by
  unfold markVerified
  split
  · exact h
  · exact h

theorem Kept.mark (h : Kept ledger gzip objects x) (key : Text) : Kept ledger gzip (objects.map (markVerified key)) x := by
  obtain ⟨o, ho, hverified, hholds⟩ := h
  refine ⟨markVerified key o, mem_map.2 ⟨o, ho, rfl⟩, ?_, markVerified_holds hholds⟩
  unfold markVerified
  split
  · rfl
  · exact hverified

variable {a : Attempt ρ} {rows : List (Nat × ρ)}

theorem objectOf_holds {part : Part}
    (hmonth : ∀ y ∈ x :: rows, monthOf (dayOf (ledger.ts y.2)) = monthOf (dayOf (ledger.ts x.2))) :
    ∀ y ∈ x :: rows, (objectOf ledger gzip jobId a part x rows).Holds ledger gzip y := by
  intro y hy
  constructor
  · have hfolder : monthFolder ledger.archiveName (ledger.ts y.2) = monthFolder ledger.archiveName (ledger.ts x.2) := by
      unfold monthFolder
      rw [hmonth y hy]
    rw [hfolder]
    exact prefix_append _ _
  · show ledger.doc y.1 y.2 ∈ (gzip.expand (gzip.compress _)).splitOn '\n'
    rw [gzip.inverse]
    refine mem_lines (fun d hd => ?_) (mem_map.2 ⟨y, hy, rfl⟩)
    obtain ⟨z, -, rfl⟩ := mem_map.1 hd
    exact ledger.oneLine z.1 z.2

theorem monthPrefix_month : ∀ x ∈ ledger.monthPrefix rows, ∀ y ∈ ledger.monthPrefix rows,
      monthOf (dayOf (ledger.ts x.2)) = monthOf (dayOf (ledger.ts y.2)) := by
  intro x hx y hy
  cases rows with
  | nil => cases hx
  | cons z rows =>
    have hall : ∀ w ∈ ledger.monthPrefix (z :: rows),
        monthOf (dayOf (ledger.ts w.2)) = monthOf (dayOf (ledger.ts z.2)) := fun w hw => by
      simpa using mem_takeWhile_imp hw
    rw [hall x hx, hall y hy]

theorem ArchiveInv.fresh {part : Part} {cut : Nat} {parts : List (Part × Nat)}
    (h : ArchiveInv ledger gzip jobId s) (ha : s.attempt = some a)
    (hstage : a.stage = .fetched (x :: rows)) (hparts : a.parts = (part, cut) :: parts) :
    ∀ o ∈ s.objects, o.key ≠ (objectOf ledger gzip jobId a part x rows).key := by
  intro o ho heq
  have hused := ((h.attempt a ha).used o ho _ _ _ heq (by rw [hparts]; exact mem_cons_self)).2
  rw [hstage] at hused
  change a.batches + 1 ≤ a.batches + 0 at hused
  omega

theorem ArchiveInv.objects_put {part : Part} {cut : Nat} {parts : List (Part × Nat)}
    (h : ArchiveInv ledger gzip jobId s) (ha : s.attempt = some a)
    (hstage : a.stage = .fetched (x :: rows)) (hparts : a.parts = (part, cut) :: parts) :
    ArchiveInv ledger gzip jobId
      { s with objects := s.objects ++ [objectOf ledger gzip jobId a part x rows], attempt := none } where
  named o ho := by
    rcases mem_append.1 ho with ho | ho
    · exact h.named o ho
    · obtain ⟨at₀, hat, hrun⟩ := (h.attempt a ha).started
      rw [mem_singleton.1 ho]
      exact ⟨at₀, hat, ledger.ts x.2, part.name, a.batches + 1, by rw [← hrun]; rfl⟩
  keys := by
    rw [map_append, nodup_append]
    refine ⟨h.keys, nodup_singleton _, fun k hk k' hk' heq => ?_⟩
    obtain ⟨o, ho, rfl⟩ := mem_map.1 hk
    rw [map_singleton, mem_singleton] at hk'
    exact h.fresh ha hstage hparts o ho (heq.trans hk')
  gone g hg harchive := (h.gone g hg harchive).append _
  attempt b hb := by cases hb

theorem ArchiveInv.restage (h : ArchiveInv ledger gzip jobId s) {b : Option (Attempt ρ)}
    (hb : ∀ a, b = some a → a.Sound ledger gzip jobId s.objects s.starts) :
    ArchiveInv ledger gzip jobId { s with attempt := b } :=
  ⟨h.named, h.keys, h.gone, hb⟩

theorem Attempt.Sound.between {starts : List Nat}
    (hstage : a.stage = .next ∨ a.stage = .committed) (started : ∃ at₀ ∈ starts, a.run = stamp at₀)
    (names : (a.parts.map fun p => p.1.name).Nodup)
    (used : ∀ o ∈ objects, ∀ t part n, o.key = objectKey ledger.archiveName t jobId a.run part n →
      part ∈ a.parts.map (fun p => p.1.name) →
        a.parts.head?.map (fun p => p.1.name) = some part ∧ n ≤ a.batches + a.stage.puts) :
    a.Sound ledger gzip jobId objects starts := by
  refine ⟨started, names, used, ?_, ?_, ?_, ?_⟩
  all_goals
    intro rows
    intros
    rcases hstage with h | h
    · simp_all
    · simp_all

theorem Attempt.Sound.endPart {starts : List Nat}
    (h : a.Sound ledger gzip jobId objects starts) : a.endPart.Sound ledger gzip jobId objects starts := by
  refine .between (.inl rfl) h.started ?_ fun o ho t part n hkey hpart => ?_
  · show ((if a.remaining - a.deleted ≤ 0 then [] else a.parts.tail).map fun p => p.1.name).Nodup
    split
    · exact nodup_nil
    · exact h.names.sublist ((tail_sublist _).map _)
  · -- a part that has objects is the one just done, and is not among the next ones
    have htail : part ∈ a.parts.tail.map fun p => p.1.name := by
      change part ∈ (if a.remaining - a.deleted ≤ 0 then [] else a.parts.tail).map fun p => p.1.name at hpart
      split at hpart
      · cases hpart
      · exact hpart
    have hhead := (h.used o ho t part n hkey (List.Sublist.subset ((tail_sublist _).map _) htail)).1
    cases hparts : a.parts with
    | nil =>
      rw [hparts] at htail
      cases htail
    | cons p parts =>
      rw [hparts] at hhead htail
      have hnames := h.names
      rw [hparts, map_cons, nodup_cons] at hnames
      rw [← Option.some.inj hhead] at htail
      exact absurd htail hnames.1

theorem map_fst_zip_sublist {α β : Type} (l : List α) (m : List β) : ((l.zip m).map Prod.fst).Sublist l := by
  induction l generalizing m with
  | nil => exact List.Sublist.refl _
  | cons a l ih =>
    cases m with
    | nil => exact nil_sublist _
    | cons b m => exact (ih m).cons_cons a

theorem ArchiveInv.moves [DecidableEq ρ] (h : ArchiveInv ledger gzip jobId s) (hlock : Locked s)
    (hm : Moves ledger gzip jobId payload s s') : ArchiveInv ledger gzip jobId s' := by
  cases hm with
  | outside t => exact ⟨h.named, h.keys, h.gone, h.attempt⟩
  | start at₀ survey hfree hnew =>
    refine ⟨fun o ho => ?_, h.keys, h.gone, fun a ha => ?_⟩
    · obtain ⟨at₁, hat, hrest⟩ := h.named o ho
      exact ⟨at₁, mem_append_left _ hat, hrest⟩
    · obtain ⟨hrun, hparts, hstage⟩ : a.run = stamp at₀ ∧
          (a.parts.map fun p => p.1.name).Sublist (ledger.parts.map Part.name) ∧ a.stage = .next := by
        unfold startAttempt at ha
        simp only at ha
        split at ha
        · rw [Option.some.injEq] at ha
          rw [← ha]
          refine ⟨rfl, ?_, rfl⟩
          split
          · exact nil_sublist _
          · have := (map_fst_zip_sublist ledger.parts (survey.parts.map Prod.fst)).map Part.name
            rwa [map_map] at this
        · cases ha
      refine .between (.inl hstage) ⟨at₀, by simp, hrun⟩ (ledger.distinct.sublist hparts)
        fun o ho t part n hkey _ => ?_
      obtain ⟨at₁, hat, t', part', n', hkey'⟩ := h.named o ho
      rw [hrun, hkey'] at hkey
      have := (objectKey_inj (dash_notMem_stamp _) (dash_notMem_stamp _) hkey).1
      rw [stamp_inj this] at hat
      exact absurd hat hnew
  | endPart a ha hstage =>
    refine h.restage fun b hb => ?_
    rw [← Option.some.inj hb]
    exact (h.attempt a ha).endPart
  | fetch a part cut parts snap cond rows ha hstage hparts hroom hrows hsome =>
    have hsound := h.attempt a ha
    refine h.restage fun b hb => ?_
    rw [← Option.some.inj hb]
    refine ⟨hsound.started, hsound.names, fun o ho t part' n hkey hpart => ?_, ?_, ?_, ?_, ?_⟩
    · have := hsound.used o ho t part' n hkey hpart
      rw [hstage] at this
      exact this
    · intro rows' part' cut' parts' hst hparts' harchive
      have heq : part' = part := by
        have := hparts'.symm.trans hparts
        rw [List.cons.injEq, Prod.mk.injEq] at this
        exact this.1.1
      rw [heq] at harchive
      injection hst with hst
      rw [if_pos harchive] at hst
      rw [← hst]
      exact monthPrefix_month
    · intro rows' key hst
      cases hst
    · intro rows' hst
      cases hst
    · intro rows' part' cut' parts' hst
      cases hst
  | put a part cut parts x rows ha hstage hparts harchive =>
    have hsound := h.attempt a ha
    have hput := h.objects_put ha hstage hparts
    refine ⟨hput.named, hput.keys, hput.gone, fun b hb => ?_⟩
    rw [← Option.some.inj hb]
    refine ⟨hsound.started, hsound.names, fun o ho t part' n hkey hpart => ?_, ?_, ?_, ?_, ?_⟩
    · rcases mem_append.1 ho with ho | ho
      · obtain ⟨hhead, hle⟩ := hsound.used o ho t part' n hkey hpart
        rw [hstage] at hle
        exact ⟨hhead, Nat.le_succ_of_le hle⟩
      · -- the object itself
        obtain ⟨at₀, -, hrun⟩ := hsound.started
        rw [mem_singleton.1 ho] at hkey
        have hdash : '-' ∉ a.run := hrun ▸ dash_notMem_stamp at₀
        obtain ⟨-, hname, hbatch⟩ := objectKey_inj hdash hdash hkey
        rw [← hname, ← hbatch]
        exact ⟨by rw [hparts]; rfl, le_refl _⟩
    · intro rows' part' cut' parts' hst
      cases hst
    · intro rows' key hst
      injection hst with hrows' hkey
      refine ⟨objectOf ledger gzip jobId a part x rows, by simp, hkey, ?_⟩
      rw [← hrows']
      refine objectOf_holds fun y hy => ?_
      exact hsound.month (x :: rows) part cut parts hstage hparts harchive y hy x mem_cons_self
    · intro rows' hst
      cases hst
    · intro rows' part' cut' parts' hst
      cases hst
  | putLost a part cut parts x rows ha hstage hparts => exact h.objects_put ha hstage hparts
  | verify a rows key ha hstage =>
    have hsound := h.attempt a ha
    have hnamed : (s.objects.map (markVerified key)).map Object.key = s.objects.map Object.key := by
      rw [map_map]
      exact map_congr_left fun o _ => markVerified_key key o
    refine ⟨fun o ho => ?_, ?_, fun g hg harchive => (h.gone g hg harchive).mark key, fun b hb => ?_⟩
    · obtain ⟨p, hp, rfl⟩ := mem_map.1 ho
      obtain ⟨at₀, hat, t, part, n, hkey⟩ := h.named p hp
      exact ⟨at₀, hat, t, part, n, (markVerified_key key p).trans hkey⟩
    · show ((s.objects.map (markVerified key)).map Object.key).Nodup
      rw [hnamed]
      exact h.keys
    · rw [← Option.some.inj hb]
      refine ⟨hsound.started, hsound.names, fun o ho t part n hkey hpart => ?_, ?_, ?_, ?_, ?_⟩
      · obtain ⟨p, hp, rfl⟩ := mem_map.1 ho
        have := hsound.used p hp t part n ((markVerified_key key p).symm.trans hkey) hpart
        rw [hstage] at this
        exact this
      · intro rows' part cut parts hst
        cases hst
      · intro rows' key' hst
        cases hst
      · intro rows' hst y hy
        injection hst with hst
        rw [← hst] at hy
        obtain ⟨o, ho, hkey, hholds⟩ := hsound.written rows key hstage
        refine ⟨markVerified key o, mem_map.2 ⟨o, ho, rfl⟩, ?_, markVerified_holds (hholds y hy)⟩
        unfold markVerified
        rw [if_pos hkey]
      · intro rows' part cut parts hst
        cases hst
  | remove a rows ha hstage =>
    have hsound := h.attempt a ha
    refine h.restage fun b hb => ?_
    rw [← Option.some.inj hb]
    refine ⟨hsound.started, hsound.names, fun o ho t part n hkey hpart => ?_, ?_, ?_, ?_, ?_⟩
    · obtain ⟨hhead, hle⟩ := hsound.used o ho t part n hkey hpart
      refine ⟨hhead, hle.trans ?_⟩
      show a.batches + a.stage.puts ≤ a.batches + 1
      have : a.stage.puts ≤ 1 := by
        cases a.stage <;> simp [Stage.puts]
      omega
    · intro rows' part cut parts hst
      cases hst
    · intro rows' key hst
      cases hst
    · intro rows' hst
      cases hst
    · intro rows' part cut parts hst hparts harchive
      injection hst with hst
      rw [← hst]
      rcases hstage with hver | ⟨-, part', cut', parts', hparts', hnot⟩
      · exact hsound.verified rows hver
      · have := hparts.symm.trans hparts'
        rw [List.cons.injEq, Prod.mk.injEq] at this
        rw [this.1.1, hnot] at harchive
        cases harchive
  | commit a part cut parts rows last ha hstage hparts hlast =>
    have hsound := h.attempt a ha
    obtain ⟨hnodup, hget⟩ := hlock a ha
    rw [hstage] at hnodup hget
    refine ⟨h.named, h.keys, fun g hg harchive => ?_, fun b hb => ?_⟩
    · rcases mem_append.1 hg with hg | hg
      · exact h.gone g hg harchive
      · obtain ⟨y, hy, rfl⟩ := mem_map.1 hg
        exact hsound.removed rows part cut parts hstage hparts harchive y
          ((filter_perm_of_locked hnodup hget).mem_iff.1 hy)
    · rw [← Option.some.inj hb]
      refine .between (.inr rfl) hsound.started hsound.names fun o ho t part' n hkey hpart => ?_
      have := hsound.used o ho t part' n hkey hpart
      rw [hstage] at this
      exact this
  | save a part cut parts cursor ha hstage hparts hcursor =>
    have hsound := h.attempt a ha
    refine ⟨h.named, h.keys, h.gone, fun b hb => ?_⟩
    rw [← Option.some.inj hb]
    refine .between (.inl rfl) hsound.started hsound.names fun o ho t part' n hkey hpart => ?_
    have := hsound.used o ho t part' n hkey hpart
    rw [hstage] at this
    exact this
  | fail a ha hstage => exact h.restage nofun

theorem ArchiveInv.step [DecidableEq ρ] (h : ArchiveInv ledger gzip jobId s) (hlock : Locked s) (act : Step ρ) :
    ArchiveInv ledger gzip jobId (jobStep ledger gzip jobId payload s act) := by
  by_cases hstop : act = .stop
  · subst hstop
    exact h.restage nofun
  · rcases jobStep_moves s act hstop with heq | hm
    · rw [heq]
      exact h
    · exact h.moves hlock hm

theorem ArchiveInv.preserved (h : ArchiveInv ledger gzip jobId s) : Preserved ledger gzip s where
  gone := h.gone
  going a rows part cut parts ha hstage hparts harchive :=
    (h.attempt a ha).removed rows part cut parts hstage hparts harchive
  keys := h.keys

theorem preserved_always [DecidableEq ρ] (t : Table Nat ρ) (acts : List (Step ρ)) :
    Always (jobStep ledger gzip jobId payload) (Preserved ledger gzip) (newJob t) acts := by
  have hinit : ArchiveInv ledger gzip jobId (newJob t) := by
    refine ⟨fun o ho => ?_, nodup_nil, fun g hg => ?_, fun a ha => ?_⟩
    · cases ho
    · cases hg
    · cases ha
  have hinv : Always (jobStep ledger gzip jobId payload) (fun s => ArchiveInv ledger gzip jobId s ∧ Locked s)
      (newJob t) acts :=
    always_of_step (fun s act h => ⟨h.1.step h.2 act, h.2.step act⟩) acts ⟨hinit, locked_newJob t⟩
  exact hinv.mono fun s h => h.1.preserved

end Rows

/-! ## Without failures -/

section Alone

variable {ρ : Type} [DecidableEq ρ]

/-- One round of the loop when every call succeeds and nobody else writes; `cond` reads the table. -/
def batchActs (ledger : Ledger ρ) (gzip : Gzip) (payload : Payload) (cond : Table Nat ρ → Nat → ρ → Bool)
    (s : JobState ρ) : List (Step ρ) :=
  match s.attempt with
  | none => []
  | some a =>
    match a.parts with
    | [] => []
    | (part, cut) :: _ =>
      let rows := ledger.fetch (cond s.table) cut a.cursor s.table s.table (a.want payload)
      if part.archive then
        let docs := (ledger.monthPrefix rows).map fun x => ledger.doc x.1 x.2
        [.fetch s.table (cond s.table), .put true true,
          .head (some ((gzip.compress (jsonLines docs)).length, Nat.toDigits 10 docs.length)), .remove, .commit, .save]
      else [.fetch s.table (cond s.table), .remove, .commit, .save]

/-- `n` rounds. -/
def deletePart (ledger : Ledger ρ) (gzip : Gzip) (jobId : Text) (payload : Payload)
    (cond : Table Nat ρ → Nat → ρ → Bool) : Nat → JobState ρ → JobState ρ
  | 0, s => s
  | n + 1, s =>
    deletePart ledger gzip jobId payload cond n
      (run (jobStep ledger gzip jobId payload) s (batchActs ledger gzip payload cond s))

/-- Taking candidates away leaves the other candidates and makes no new ones. -/
def Settled (ledger : Ledger ρ) (cond : Table Nat ρ → Nat → ρ → Bool) (cut : Nat) (cursor : Cursor)
    (t : Table Nat ρ) : Prop :=
  ∀ ids : List Nat, (∀ i ∈ ids, i ∈ (ledger.sorted (cond t) cut cursor t).map Prod.fst) →
    ledger.sorted (cond (t.delete fun k _ => k ∈ ids)) cut cursor (t.delete fun k _ => k ∈ ids) =
      (ledger.sorted (cond t) cut cursor t).filter fun x => x.1 ∉ ids

variable {ledger : Ledger ρ} {gzip : Gzip} {jobId : Text} {payload : Payload}

omit [DecidableEq ρ] in
theorem fetch_self (cond : Nat → ρ → Bool) (cut : Nat) (cursor : Cursor) (t : Table Nat ρ) (n : Nat) :
    ledger.fetch cond cut cursor t t n = (ledger.sorted cond cut cursor t).take n := by
  unfold Ledger.fetch
  congr 1
  refine (filterMap_congr fun x hx => ?_).trans (filterMap_some)
  obtain ⟨hmem, hexp⟩ := mem_filter.1 ((mem_sortBy ledger.order _ x).1 hx)
  rw [(t.get?_eq_some_iff x.1 x.2).2 hmem, Option.filter_some, if_pos hexp]
  rfl

/-- The rows of the next batch. -/
def Attempt.batch (ledger : Ledger ρ) (payload : Payload) (a : Attempt ρ) (part : Part) (cut : Nat)
    (cond : Nat → ρ → Bool) (t : Table Nat ρ) : List (Nat × ρ) :=
  let rows := (ledger.sorted cond cut a.cursor t).take (a.want payload)
  if part.archive then ledger.monthPrefix rows else rows

theorem run_batchActs (gzip : Gzip) (jobId : Text) {cond : Table Nat ρ → Nat → ρ → Bool} {s : JobState ρ}
    {a : Attempt ρ} {part : Part} {cut : Nat} {parts : List (Part × Nat)} {x : Nat × ρ} {rows : List (Nat × ρ)} {last : Nat × ρ}
    (ha : s.attempt = some a) (hstage : a.stage = .next) (hparts : a.parts = (part, cut) :: parts)
    (hroom : (a.deleted : Int) < a.remaining)
    (hrows : a.batch ledger payload part cut (cond s.table) s.table = x :: rows)
    (hlast : (x :: rows).getLast? = some last)
    (hcount : s.table.count (fun k _ => k ∈ (x :: rows).map Prod.fst) = (x :: rows).length) :
    (run (jobStep ledger gzip jobId payload) s (batchActs ledger gzip payload cond s)).table =
        s.table.delete (fun k _ => k ∈ (x :: rows).map Prod.fst) ∧
      (run (jobStep ledger gzip jobId payload) s (batchActs ledger gzip payload cond s)).gone =
        s.gone ++ (s.table.rows.filter fun y => y.1 ∈ (x :: rows).map Prod.fst).map (fun y => ⟨part, y.1, y.2⟩) ∧
      (run (jobStep ledger gzip jobId payload) s (batchActs ledger gzip payload cond s)).attempt =
        some
          { a with
            deleted := a.deleted + (x :: rows).length
            batches := a.batches + 1
            cursor := some (ledger.ts last.2, last.1)
            stage := .next } := by
  obtain ⟨table, progress, attempt, objects, gone, starts⟩ := s
  obtain ⟨run₀, already, resume, aparts, remaining, before, deleted, batches, cursor, stage⟩ := a
  subst ha hstage hparts
  unfold Attempt.batch at hrows
  unfold batchActs
  generalize hfetch : (ledger.sorted (cond table) cut cursor table).take _ = fetched at hrows ⊢
  have hne : fetched.isEmpty = false := by
    cases fetched with
    | nil =>
      split at hrows
      · cases hrows
      · cases hrows
    | cons y l => rfl
  cases harchive : part.archive with
  | true =>
    rw [if_pos harchive] at hrows
    simp only [run, jobStep, fetch_self, hfetch, hroom, hne, hrows, harchive, if_true, Bool.false_eq_true, if_false,
      Bool.and_self, hcount, Stage.rows, hlast, and_self]
  | false =>
    rw [if_neg (by rw [harchive]; simp)] at hrows
    subst hrows
    simp only [run, jobStep, fetch_self, hfetch, hroom, hne, harchive, if_true, Bool.false_eq_true, if_false,
      hcount, Stage.rows, hlast, and_self]

theorem run_batchActs_end {cond : Table Nat ρ → Nat → ρ → Bool} {s : JobState ρ} {a : Attempt ρ} {part : Part}
    {cut : Nat} {parts : List (Part × Nat)} (ha : s.attempt = some a) (hstage : a.stage = .next)
    (hparts : a.parts = (part, cut) :: parts)
    (hend : a.remaining ≤ a.deleted ∨ ledger.sorted (cond s.table) cut a.cursor s.table = []) :
    run (jobStep ledger gzip jobId payload) s (batchActs ledger gzip payload cond s) =
      { s with attempt := some a.endPart } := by
  have hfetch : jobStep ledger gzip jobId payload s (.fetch s.table (cond s.table)) =
      { s with attempt := some a.endPart } := by
    unfold jobStep
    simp only [ha, hstage, hparts]
    split
    · next hroom =>
      rw [fetch_self, hend.resolve_left (by omega), take_nil]
      rfl
    · rfl
  unfold batchActs
  simp only [ha, hparts]
  split
  · rw [run, hfetch]
    simp only [run, jobStep, Attempt.endPart]
  · rw [run, hfetch]
    simp only [run, jobStep, Attempt.endPart]

section Order

omit [DecidableEq ρ]

theorem isAfter_some_iff (ledger : Ledger ρ) (c : Nat × Nat) (k : Nat) (r : ρ) :
    ledger.isAfter (some c) k r = true ↔ toLex c < ledger.order (k, r) := by
  unfold Ledger.isAfter Ledger.order
  rw [Prod.Lex.lt_iff]
  simp

theorem rows_order_nodup (ledger : Ledger ρ) (t : Table Nat ρ) (p : Nat × ρ → Bool) :
    ((t.rows.filter p).map ledger.order).Nodup := by
  have h : ((t.rows.filter p).map Prod.fst).Nodup := t.nodup.sublist (filter_sublist.map Prod.fst)
  rw [show (Prod.fst : Nat × ρ → Nat) = (fun o : Nat ×ₗ Nat => (ofLex o).2) ∘ ledger.order from rfl, ← map_map] at h
  exact h.of_map

theorem sorted_strict (ledger : Ledger ρ) (cond : Nat → ρ → Bool) (cut : Nat) (cursor : Cursor) (t : Table Nat ρ) :
    (ledger.sorted cond cut cursor t).Pairwise fun x y => ledger.order x < ledger.order y :=
  sortBy_strict ledger.order (rows_order_nodup ledger t _)

theorem mem_sorted {cond : Nat → ρ → Bool} {cut : Nat} {cursor : Cursor} {t : Table Nat ρ} {x : Nat × ρ} :
    x ∈ ledger.sorted cond cut cursor t ↔ t.get? x.1 = some x.2 ∧ ledger.expired cond cut cursor x.1 x.2 = true := by
  unfold Ledger.sorted
  rw [mem_sortBy, mem_filter, t.get?_eq_some_iff]

theorem sorted_ids_nodup (ledger : Ledger ρ) (cond : Nat → ρ → Bool) (cut : Nat) (cursor : Cursor) (t : Table Nat ρ) :
    ((ledger.sorted cond cut cursor t).map Prod.fst).Nodup :=
  ((sortBy_perm ledger.order _).map Prod.fst).nodup_iff.2 (t.nodup.sublist (filter_sublist.map Prod.fst))

theorem sorted_cursor {cond cond' : Nat → ρ → Bool} {cut : Nat} {cursor : Cursor} {t t' : Table Nat ρ} {l : Nat × ρ}
    (hl : l ∈ ledger.sorted cond cut cursor t) : ledger.sorted cond' cut (some (ledger.ts l.2, l.1)) t' =
      (ledger.sorted cond' cut cursor t').filter fun x => ledger.order l < ledger.order x := by
  have hafter : ledger.isAfter cursor l.1 l.2 = true := by
    have := (mem_sorted.1 hl).2
    unfold Ledger.expired at this
    rw [Bool.and_eq_true] at this
    exact this.2
  unfold Ledger.sorted
  rw [← sortBy_filter ledger.order _ (rows_order_nodup ledger t' _), filter_filter]
  congr 1
  refine filter_congr fun x _ => ?_
  have hl' := isAfter_some_iff ledger (ledger.ts l.2, l.1) x.1 x.2
  unfold Ledger.expired
  rw [Bool.eq_iff_iff]
  simp only [Bool.and_eq_true, decide_eq_true_eq, hl']
  constructor
  · rintro ⟨hx, hlt⟩
    refine ⟨hlt, hx, ?_⟩
    cases cursor with
    | none => rfl
    | some c =>
      rw [isAfter_some_iff] at hafter ⊢
      exact hafter.trans hlt
  · rintro ⟨hlt, hx, -⟩
    exact ⟨hx, hlt⟩

theorem batch_prefix (ledger : Ledger ρ) (payload : Payload) (a : Attempt ρ) (part : Part) (cut : Nat) (cond : Nat → ρ → Bool) (t : Table Nat ρ) :
    a.batch ledger payload part cut cond t <+: ledger.sorted cond cut a.cursor t := by
  unfold Attempt.batch
  simp only
  have htake := take_prefix (a.want payload) (ledger.sorted cond cut a.cursor t)
  split
  · refine List.IsPrefix.trans ?_ htake
    unfold Ledger.monthPrefix
    split
    · exact nil_prefix
    · exact takeWhile_prefix _
  · exact htake

theorem batch_ne_nil (payload : Payload) {a : Attempt ρ} (part : Part) {cut : Nat} {cond : Nat → ρ → Bool} {t : Table Nat ρ}
    (hroom : (a.deleted : Int) < a.remaining) (hsome : ledger.sorted cond cut a.cursor t ≠ []) :
    a.batch ledger payload part cut cond t ≠ [] := by
  have hwant : ∃ n, a.want payload = n + 1 := by
    have : 1 ≤ payload.batch := by unfold Payload.batch; omega
    refine ⟨a.want payload - 1, ?_⟩
    unfold Attempt.want
    omega
  obtain ⟨n, hn⟩ := hwant
  cases hl : ledger.sorted cond cut a.cursor t with
  | nil => exact absurd hl hsome
  | cons x l =>
    unfold Attempt.batch
    rw [hl, hn, take_succ_cons]
    split
    · simp [Ledger.monthPrefix]
    · simp

theorem batch_length_le (ledger : Ledger ρ) (payload : Payload) {a : Attempt ρ} (part : Part) (cut : Nat)
    (cond : Nat → ρ → Bool) (t : Table Nat ρ) (hroom : (a.deleted : Int) < a.remaining) :
    (a.deleted : Int) + (a.batch ledger payload part cut cond t).length ≤ a.remaining := by
  have hlen : (a.batch ledger payload part cut cond t).length ≤ a.want payload := by
    unfold Attempt.batch
    have htake := length_take_le (a.want payload) (ledger.sorted cond cut a.cursor t)
    split
    · exact (monthPrefix_sublist _).length_le.trans htake
    · exact htake
  have := length_want_le payload hroom
  omega

end Order

theorem batch_round (gzip : Gzip) (jobId : Text) (payload : Payload) {cond : Table Nat ρ → Nat → ρ → Bool}
    {s : JobState ρ} {a : Attempt ρ} {part : Part} {cut : Nat} {parts : List (Part × Nat)} (ha : s.attempt = some a)
    (hstage : a.stage = .next) (hparts : a.parts = (part, cut) :: parts) (hroom : (a.deleted : Int) < a.remaining)
    (hsome : ledger.sorted (cond s.table) cut a.cursor s.table ≠ []) :
    ∃ (rows : List (Nat × ρ)) (last : Nat × ρ), rows.getLast? = some last ∧
      rows <+: ledger.sorted (cond s.table) cut a.cursor s.table ∧ (a.deleted : Int) + rows.length ≤ a.remaining ∧
      (s.table.rows.filter fun y => y.1 ∈ rows.map Prod.fst).Perm rows ∧
      (run (jobStep ledger gzip jobId payload) s (batchActs ledger gzip payload cond s)).table =
        s.table.delete (fun k _ => k ∈ rows.map Prod.fst) ∧
      (run (jobStep ledger gzip jobId payload) s (batchActs ledger gzip payload cond s)).gone =
        s.gone ++ (s.table.rows.filter fun y => y.1 ∈ rows.map Prod.fst).map (fun y => ⟨part, y.1, y.2⟩) ∧
      (run (jobStep ledger gzip jobId payload) s (batchActs ledger gzip payload cond s)).attempt =
        some
          { a with
            deleted := a.deleted + rows.length
            batches := a.batches + 1
            cursor := some (ledger.ts last.2, last.1)
            stage := .next } := by
  have hne := batch_ne_nil payload part hroom hsome
  have hlen := batch_length_le ledger payload part cut (cond s.table) s.table hroom
  have hpre := batch_prefix ledger payload a part cut (cond s.table) s.table
  cases hrows : a.batch ledger payload part cut (cond s.table) s.table with
  | nil => exact absurd hrows hne
  | cons x rest =>
    rw [hrows] at hlen hpre
    obtain ⟨last, hlast⟩ : ∃ last, (x :: rest).getLast? = some last := ⟨_, List.getLast?_eq_some_getLast (by simp)⟩
    have hnodup : ((x :: rest).map Prod.fst).Nodup :=
      (sorted_ids_nodup ledger (cond s.table) cut a.cursor s.table).sublist (hpre.sublist.map Prod.fst)
    have hperm := filter_perm_of_locked hnodup fun y hy => (mem_sorted.1 (hpre.subset hy)).1
    have hcount : s.table.count (fun k _ => k ∈ (x :: rest).map Prod.fst) = (x :: rest).length := by
      unfold Table.count
      rw [countP_eq_length_filter]
      exact hperm.length_eq
    exact ⟨x :: rest, last, hlast, hpre, hlen, hperm, run_batchActs gzip jobId ha hstage hparts hroom hrows hlast hcount⟩

theorem deletePart_ends {cond : Table Nat ρ → Nat → ρ → Bool} {part : Part} {cut : Nat} {parts : List (Part × Nat)}
    (left : Nat) (s : JobState ρ) (a : Attempt ρ) (hleft : (a.remaining - a.deleted).toNat = left)
    (ha : s.attempt = some a) (hstage : a.stage = .next) (hparts : a.parts = (part, cut) :: parts) :
    ∃ n, ∃ b : Attempt ρ, b.parts = a.parts ∧ (deletePart ledger gzip jobId payload cond n s).attempt = some b.endPart := by
  induction left using Nat.strong_induction_on generalizing s a with
  | _ left ih =>
    by_cases hmore : (a.deleted : Int) < a.remaining ∧ ledger.sorted (cond s.table) cut a.cursor s.table ≠ []
    · obtain ⟨rows, last, hlast, -, hlen, -, -, -, hattempt⟩ :=
        batch_round gzip jobId payload ha hstage hparts hmore.1 hmore.2
      have hpos : 0 < rows.length := length_pos_of_mem (mem_of_getLast? hlast)
      obtain ⟨n, b, hb, hrun⟩ := ih _ (by show (a.remaining - (a.deleted + rows.length : Nat)).toNat < left; omega)
        _ _ rfl hattempt rfl hparts
      exact ⟨n + 1, b, hb, hrun⟩
    · refine ⟨1, a, rfl, ?_⟩
      show (run (jobStep ledger gzip jobId payload) s (batchActs ledger gzip payload cond s)).attempt = _
      rw [run_batchActs_end ha hstage hparts]
      rw [not_and_or, not_lt, not_not] at hmore
      exact hmore

/-- Of the candidates `l` of the state `s₀` the first `j` are deleted. -/
structure Reached (ledger : Ledger ρ) (cond : Table Nat ρ → Nat → ρ → Bool) (s₀ : JobState ρ) (a₀ : Attempt ρ)
    (part : Part) (cut : Nat) (l : List (Nat × ρ)) (s : JobState ρ) (j : Nat) : Prop where
  le : j ≤ l.length
  room : (j : Int) ≤ max a₀.remaining 0
  table : s.table = s₀.table.delete fun k _ => k ∈ (l.take j).map Prod.fst
  gone : ∃ rows : List (Nat × ρ), rows.Perm (l.take j) ∧ s.gone = s₀.gone ++ rows.map fun x => ⟨part, x.1, x.2⟩
  attempt : ∃ a, s.attempt = some a ∧ a.stage = .next ∧ a.parts = a₀.parts ∧ a.remaining = a₀.remaining ∧
    a.deleted = j ∧ ledger.sorted (cond s.table) cut a.cursor s.table = l.drop j

omit [DecidableEq ρ] in
theorem delete_delete (t : Table Nat ρ) (p q : Nat → ρ → Bool) :
    (t.delete p).delete q = t.delete fun k r => p k r || q k r := by
  unfold Table.delete
  congr 1
  rw [filter_filter]
  refine filter_congr fun x _ => ?_
  rw [Bool.not_or, Bool.and_comm]

omit [DecidableEq ρ] in
theorem filter_notMem_take {l : List (Nat × ρ)} (hl : (l.map Prod.fst).Nodup) (j : Nat) :
    (l.filter fun x => x.1 ∉ (l.take j).map Prod.fst) = l.drop j := by
  conv_lhs => rw [← take_append_drop j l]
  rw [← take_append_drop j l, map_append, nodup_append] at hl
  rw [filter_append]
  have htake : ((l.take j).filter fun x => x.1 ∉ ((l.take j ++ l.drop j).take j).map Prod.fst) = [] := by
    rw [filter_eq_nil_iff]
    intro x hx
    rw [take_append_drop, decide_eq_true_eq, not_not]
    exact mem_map.2 ⟨x, hx, rfl⟩
  have hdrop : ((l.drop j).filter fun x => x.1 ∉ ((l.take j ++ l.drop j).take j).map Prod.fst) = l.drop j := by
    rw [filter_eq_self]
    intro x hx
    rw [take_append_drop, decide_eq_true_eq]
    intro hmem
    exact hl.2.2 _ hmem _ (mem_map.2 ⟨x, hx, rfl⟩) rfl
  rw [htake, hdrop, nil_append]

variable {cond : Table Nat ρ → Nat → ρ → Bool} {s₀ s : JobState ρ} {a₀ : Attempt ρ} {part : Part} {cut j : Nat}
  {parts : List (Part × Nat)}

theorem Reached.round (gzip : Gzip) (jobId : Text) (payload : Payload) {l : List (Nat × ρ)}
    (hl : ledger.sorted (cond s₀.table) cut a₀.cursor s₀.table = l)
    (hsettled : Settled ledger cond cut a₀.cursor s₀.table) (hparts : a₀.parts = (part, cut) :: parts)
    (h : Reached ledger cond s₀ a₀ part cut l s j) (hroom : (j : Int) < a₀.remaining) (hsome : j < l.length) :
    ∃ i, j < i ∧ Reached ledger cond s₀ a₀ part cut l
      (run (jobStep ledger gzip jobId payload) s (batchActs ledger gzip payload cond s)) i := by
  obtain ⟨a, ha, hstage, haparts, hremaining, hdeleted, hsorted⟩ := h.attempt
  have hleft : ledger.sorted (cond s.table) cut a.cursor s.table ≠ [] := by
    rw [hsorted]
    intro hnil
    have := congrArg List.length hnil
    rw [length_drop, length_nil] at this
    omega
  obtain ⟨rows, last, hlast, hpre, hlen, hperm, htable, hgone, hattempt⟩ :=
    batch_round gzip jobId payload ha hstage (haparts.trans hparts) (by omega) hleft
  rw [hsorted] at hpre
  -- the batch is the next stretch of the candidates
  have hnext : l.take (j + rows.length) = l.take j ++ rows := by
    rw [take_add, ← prefix_iff_eq_take.1 hpre]
  have hle : j + rows.length ≤ l.length := by
    have := hpre.length_le
    rw [length_drop] at this
    omega
  have hnew : s.table.delete (fun k _ => k ∈ rows.map Prod.fst) =
      s₀.table.delete fun k _ => k ∈ (l.take (j + rows.length)).map Prod.fst := by
    rw [h.table, delete_delete, hnext]
    congr 1
    funext k r
    rw [map_append, Bool.eq_iff_iff]
    simp only [Bool.or_eq_true, decide_eq_true_eq, mem_append]
  have hlastl : last ∈ l.take (j + rows.length) := by
    rw [hnext]
    exact mem_append_right _ (mem_of_getLast? hlast)
  have hpos : 0 < rows.length := length_pos_of_mem (mem_of_getLast? hlast)
  refine ⟨j + rows.length, by omega, hle, ?_, htable.trans hnew, ?_, ?_⟩
  · omega
  · obtain ⟨done, hdone, hdoneg⟩ := h.gone
    refine ⟨done ++ s.table.rows.filter (fun y => y.1 ∈ rows.map Prod.fst), ?_, ?_⟩
    · rw [hnext]
      exact hdone.append hperm
    · rw [hgone, hdoneg, map_append, append_assoc]
  · refine ⟨_, hattempt, rfl, haparts, hremaining, ?_, ?_⟩
    · show a.deleted + rows.length = j + rows.length
      rw [hdeleted]
    · show ledger.sorted _ cut (some (ledger.ts last.2, last.1)) _ = _
      rw [htable, hnew]
      have hmem : last ∈ ledger.sorted (cond s₀.table) cut a₀.cursor s₀.table := by
        rw [hl]
        exact mem_of_mem_take hlastl
      rw [sorted_cursor hmem, hsettled _ fun i hi => ?_, hl]
      · have hstrict := sorted_strict ledger (cond s₀.table) cut a₀.cursor s₀.table
        have hids := sorted_ids_nodup ledger (cond s₀.table) cut a₀.cursor s₀.table
        rw [hl] at hstrict hids
        rw [filter_notMem_take hids, filter_eq_self]
        intro y hy
        rw [← take_append_drop (j + rows.length) l, pairwise_append] at hstrict
        exact decide_eq_true (hstrict.2.2 last hlastl y hy)
      · rw [hl]
        exact (List.Sublist.map Prod.fst (take_sublist _ l)).subset hi

theorem deletePart_first {cond : Table Nat ρ → Nat → ρ → Bool} {s₀ : JobState ρ} {a₀ : Attempt ρ} {part : Part}
    {cut : Nat} {parts : List (Part × Nat)} (ha : s₀.attempt = some a₀) (hstage : a₀.stage = .next)
    (hparts : a₀.parts = (part, cut) :: parts) (hdeleted : a₀.deleted = 0)
    (hsettled : Settled ledger cond cut a₀.cursor s₀.table) : ∃ n, ∃ rows : List (Nat × ρ),
      rows.Perm ((ledger.sorted (cond s₀.table) cut a₀.cursor s₀.table).take a₀.remaining.toNat) ∧
      (deletePart ledger gzip jobId payload cond n s₀).gone = s₀.gone ++ rows.map (fun x => ⟨part, x.1, x.2⟩) ∧
      (deletePart ledger gzip jobId payload cond n s₀).table = s₀.table.delete (fun k _ => k ∈ rows.map Prod.fst) ∧
      ∃ a : Attempt ρ, a.parts = a₀.parts ∧ a.deleted = rows.length ∧
        (deletePart ledger gzip jobId payload cond n s₀).attempt = some a.endPart := by
  generalize hl : ledger.sorted (cond s₀.table) cut a₀.cursor s₀.table = l
  -- by induction on what is left of the candidates
  have hgo : ∀ left j s, l.length - j = left → Reached ledger cond s₀ a₀ part cut l s j →
      ∃ n i s', deletePart ledger gzip jobId payload cond n s = { s' with attempt := s'.attempt.map Attempt.endPart } ∧
        Reached ledger cond s₀ a₀ part cut l s' i ∧ (a₀.remaining ≤ i ∨ l.length ≤ i) := by
    intro left
    induction left using Nat.strong_induction_on with
    | _ left ih =>
      intro j s hleft h
      obtain ⟨a, ha', hstage', haparts, hremaining, hdel, hsorted⟩ := h.attempt
      by_cases hmore : (j : Int) < a₀.remaining ∧ j < l.length
      · obtain ⟨i, hlt, hi⟩ := h.round gzip jobId payload hl hsettled hparts
          hmore.1 hmore.2
        obtain ⟨n, i', s', hrun, hreached, hend⟩ := ih (l.length - i) (by omega) i _ rfl hi
        exact ⟨n + 1, i', s', hrun, hreached, hend⟩
      · refine ⟨1, j, s, ?_, h, by omega⟩
        show run (jobStep ledger gzip jobId payload) s (batchActs ledger gzip payload cond s) = _
        rw [run_batchActs_end ha' hstage' (haparts.trans hparts), ha']
        · rfl
        · rw [hremaining, hdel, hsorted, drop_eq_nil_iff]
          omega
  have hstart : Reached ledger cond s₀ a₀ part cut l s₀ 0 := by
    refine ⟨Nat.zero_le _, by omega, ?_, ⟨[], List.Perm.refl _, by simp⟩, a₀, ha, hstage, rfl, rfl, hdeleted, ?_⟩
    · unfold Table.delete
      simp
    · rw [hl, drop_zero]
  obtain ⟨n, i, s', hrun, hreached, hend⟩ := hgo _ 0 s₀ rfl hstart
  obtain ⟨a, ha', -, haparts, -, hdel, -⟩ := hreached.attempt
  obtain ⟨rows, hperm, hgone⟩ := hreached.gone
  have hle := hreached.le
  have hroom := hreached.room
  have hfirst : l.take i = l.take a₀.remaining.toNat := by
    rcases hend with hend | hend
    · congr 1
      omega
    · rw [take_of_length_le hend, take_of_length_le (by omega)]
  refine ⟨n, rows, hfirst ▸ hperm, ?_, ?_, a, haparts, ?_, ?_⟩
  · rw [hrun]
    exact hgone
  · rw [hrun]
    show s'.table = _
    rw [hreached.table]
    congr 1
    funext k r
    rw [Bool.eq_iff_iff, decide_eq_true_eq, decide_eq_true_eq]
    exact ((hperm.map Prod.fst).mem_iff (a := k)).symm
  · rw [hdel, hperm.length_eq, length_take]
    omega
  · rw [hrun]
    show s'.attempt.map Attempt.endPart = some a.endPart
    rw [ha']
    rfl

omit [DecidableEq ρ] in
theorem settled_of_const (c : Nat → ρ → Bool) (cut : Nat) (cursor : Cursor) (t : Table Nat ρ) :
    Settled ledger (fun _ => c) cut cursor t := by
  intro ids _
  unfold Ledger.sorted
  rw [← sortBy_filter ledger.order _ (rows_order_nodup ledger t _)]
  congr 1
  show List.filter _ (List.filter _ t.rows) = _
  rw [filter_filter, filter_filter]
  refine filter_congr fun x _ => ?_
  rw [Bool.and_comm, ← decide_not]

end Alone

/-- **No archived row is lost, and `delete_part` takes the first candidates.**  In every state that a job
reaches, each row deleted by an archived part is a line of a verified object in its month's folder, it was so before
the delete was committed, and no key was put twice.  Where nothing fails and nobody else writes, rounds of the
loop end the part; and they do so with exactly the first `limit_rows` candidates deleted, provided that taking
candidates away makes no new ones. -/
theorem archived_rows_kept {ρ : Type} [DecidableEq ρ] (ledger : Ledger ρ) (gzip : Gzip) (jobId : Text)
    (payload : Payload) : (∀ (t : Table Nat ρ) (acts : List (Step ρ)),
      Always (jobStep ledger gzip jobId payload) (Preserved ledger gzip) (newJob t) acts) ∧
    ∀ (cond : Table Nat ρ → Nat → ρ → Bool) (s₀ : JobState ρ) (a₀ : Attempt ρ) (part : Part) (cut : Nat)
      (parts : List (Part × Nat)), s₀.attempt = some a₀ → a₀.stage = .next → a₀.parts = (part, cut) :: parts →
      a₀.deleted = 0 → (∃ n, ∃ a : Attempt ρ, a.parts = a₀.parts ∧
        (deletePart ledger gzip jobId payload cond n s₀).attempt = some a.endPart) ∧
      (Settled ledger cond cut a₀.cursor s₀.table → ∃ n, ∃ rows : List (Nat × ρ),
          rows.Perm ((ledger.sorted (cond s₀.table) cut a₀.cursor s₀.table).take a₀.remaining.toNat) ∧
          (deletePart ledger gzip jobId payload cond n s₀).gone = s₀.gone ++ rows.map (fun x => ⟨part, x.1, x.2⟩) ∧
          (deletePart ledger gzip jobId payload cond n s₀).table =
            s₀.table.delete (fun k _ => k ∈ rows.map Prod.fst) ∧
          ∃ a : Attempt ρ, a.parts = a₀.parts ∧ a.deleted = rows.length ∧
            (deletePart ledger gzip jobId payload cond n s₀).attempt = some a.endPart) :=
  ⟨fun t acts => preserved_always t acts, fun _ s₀ a₀ _ _ _ ha hstage hparts hdeleted =>
    ⟨deletePart_ends _ s₀ a₀ rfl ha hstage hparts, fun hsettled => deletePart_first ha hstage hparts hdeleted hsettled⟩⟩

/-! ### A job and its parent -/

namespace Parents

/-- A failed row of `shared.job`. -/
structure Failed where
  finishedAt : Nat
  parentJobId : Option Nat
deriving DecidableEq

def ledger : Ledger Failed where
  archiveName := "job".toList
  parts := [⟨"failed".toList, true⟩]
  distinct := by simp
  ts := Failed.finishedAt
  doc k _ := Nat.toDigits 10 k
  oneLine k _ h := by
    have := Nat.isDigit_of_mem_toDigits (by decide) (by decide) h
    exact absurd this (by decide)

def cond (t : Table Nat Failed) (k : Nat) (_ : Failed) : Bool := !(t.rows.any fun x => x.2.parentJobId = some k)

def table : Table Nat Failed := ⟨[(1, ⟨10, some 2⟩), (2, ⟨20, none⟩)], by decide⟩

def payload : Payload := ⟨.manual, true, .int 5, 0, none⟩

def started (c : Nat → Failed → Bool) : JobState Failed :=
  jobStep ledger Approved.gzip [] payload (newJob table) (.start 1000 ⟨[(100, c)], 90, none⟩)

end Parents

open Parents in
/-- The parent was no candidate, and is one when its child is gone: both are deleted. -/
theorem parent_deleted_after_child : (ledger.sorted (cond table) 100 none table).length = 1 ∧
      (deletePart ledger Approved.gzip [] payload cond 3 (started (cond table))).gone.length = 2 ∧
      (deletePart ledger Approved.gzip [] payload cond 3 (started (cond table))).attempt.map
        (fun a => a.parts.length) = some 0 := by
  refine ⟨?_, ?_, ?_⟩ <;> decide

open Parents in
/-- Without the reference both are candidates, and are deleted. -/
theorem both_jobs_archived :
    (∀ acts, Always (jobStep ledger Approved.gzip [] payload) (Preserved ledger Approved.gzip) (newJob table) acts) ∧
      ∃ n, (deletePart ledger Approved.gzip [] payload (fun _ _ _ => true) n
        (started fun _ _ => true)).gone.length = 2 := by
  obtain ⟨hkept, hfirst⟩ := archived_rows_kept ledger Approved.gzip [] payload
  refine ⟨hkept table, ?_⟩
  obtain ⟨n, rows, hperm, hgone, -⟩ := (hfirst (fun _ _ _ => true) (started fun _ _ => true) _
    ⟨"failed".toList, true⟩ 100 [] rfl rfl rfl rfl).2 (settled_of_const _ _ _ _)
  refine ⟨n, ?_⟩
  rw [hgone, length_append, length_map, hperm.length_eq]
  decide

end CisApp.Retention
