import CisApp.RouteConfig.Config

/-!
# What a revert restores

`Restored v c`: config `c` has the order mode of `v`, the chain of every stage
both have (less the blank keys of `v`, which `buildTarget` drops), and the order
of every two connections of a model that both have.

The writes of an apply touch only what the diff names.  Where the diff leaves a
model out, its connections stand in the target's order already, so the numbers
need not be written for the order to be that of the target.
-/

namespace CisApp.RouteConfig

open CisApp.Lib List

variable {p p' : Priorities} {m c c' : String} {live target : Config}

/-! ## The order of two connections -/

/-- The gateway tries `c` before `c'`. -/
def Precedes (p : Priorities) (m c c' : String) : Prop := [c, c'].Sublist (providerOrder (connsOf p m))

theorem mem_connsOf {x : Int} : (c, x) ∈ connsOf p m ↔ p.get? (m, c) = some x := by
  rw [Table.get?_eq_some_iff]
  constructor
  · intro h
    obtain ⟨⟨⟨m', c'⟩, y⟩, hy, hsome⟩ := List.mem_filterMap.1 h
    split at hsome
    · next hm =>
      cases hsome
      cases hm
      exact hy
    · cases hsome
  · intro h
    exact List.mem_filterMap.2 ⟨((m, c), x), h, if_pos rfl⟩

theorem connsOf_nodup : ((connsOf p m).map Prod.fst).Nodup := by
  have hmap : (connsOf p m).map Prod.fst = (p.rows.map Prod.fst).filterMap fun k => if k.1 = m then some k.2 else none := by
    unfold connsOf
    rw [map_filterMap, filterMap_map]
    apply filterMap_congr
    intro x _
    dsimp only [Function.comp]
    split <;> rfl
  rw [hmap]
  refine p.nodup.filterMap fun k k' c hk hk' => ?_
  split at hk
  · split at hk'
    · next h h' => exact Prod.ext (h.trans h'.symm) ((Option.some.inj hk).trans (Option.some.inj hk').symm)
    · cases hk'
  · cases hk

theorem precedes_iff :
    Precedes p m c c' ↔ ∃ x y, p.get? (m, c) = some x ∧ p.get? (m, c') = some y ∧ toLex (x, c) < toLex (y, c') := by
  have hkeys : ((connsOf p m).map fun x => toLex (x.2, x.1)).Nodup := by
    refine List.Nodup.of_map (fun k => (ofLex k).2) ?_
    rw [map_map]
    exact connsOf_nodup
  have hpair : ∀ a b : String × Int,
      [a, b].Sublist (sortBy (fun x => toLex (x.2, x.1)) (connsOf p m)) ↔
        a ∈ connsOf p m ∧ b ∈ connsOf p m ∧ toLex (a.2, a.1) < toLex (b.2, b.1) := by
    intro a b
    rw [pair_sublist_iff (fun _ _ h => lt_asymm h) (sortBy_strict _ hkeys), mem_sortBy, mem_sortBy]
  unfold Precedes providerOrder
  rw [sublist_map_iff]
  constructor
  · rintro ⟨l, hl, heq⟩
    obtain ⟨a, t, rfl, ha, ht⟩ := List.map_eq_cons_iff.1 heq.symm
    obtain ⟨b, t', rfl, hb, ht'⟩ := List.map_eq_cons_iff.1 ht
    cases List.map_eq_nil_iff.1 ht'
    obtain ⟨hain, hbin, hlt⟩ := (hpair a b).1 hl
    subst ha hb
    exact ⟨a.2, b.2, mem_connsOf.1 hain, mem_connsOf.1 hbin, hlt⟩
  · rintro ⟨x, y, hx, hy, hlt⟩
    exact ⟨[(c, x), (c', y)], (hpair _ _).2 ⟨mem_connsOf.2 hx, mem_connsOf.2 hy, hlt⟩, rfl⟩

theorem precedes_congr (hc : p.get? (m, c) = p'.get? (m, c)) (hc' : p.get? (m, c') = p'.get? (m, c')) :
    Precedes p m c c' ↔ Precedes p' m c c' := by
  rw [precedes_iff, precedes_iff, hc, hc']

theorem precedes_of_orderOf (h : orderOf p m = orderOf p' m) : Precedes p m c c' ↔ Precedes p' m c c' := by
  have hlist : providerOrder (connsOf p m) = providerOrder (connsOf p' m) := by
    unfold orderOf at h
    split at h
    · next hnil =>
      split at h
      · next hnil' => rw [List.isEmpty_iff.1 hnil, List.isEmpty_iff.1 hnil']
      · cases h
    · split at h
      · cases h
      · exact Option.some.inj h
  unfold Precedes
  rw [hlist]

/-! ## What the diff names -/

theorem mem_sortedUnion {a b : List String} {x : String} : x ∈ sortedUnion a b ↔ x ∈ a ∨ x ∈ b := by
  rw [sortedUnion, mem_sortBy, mem_dedup, mem_append]

theorem mem_stages {cfg : Config} {stage : String} : stage ∈ cfg.stages ↔ cfg.routes.get? stage ≠ none := by
  rw [ne_eq, Table.get?_eq_none_iff, not_not]
  rfl

theorem mem_deployments {cfg : Config} {k : String × String} : k ∈ cfg.deployments ↔ cfg.priorities.get? k ≠ none := by
  rw [ne_eq, Table.get?_eq_none_iff, not_not]
  rfl

theorem mem_models_of_orderOf {cfg : Config} (h : orderOf cfg.priorities m ≠ none) : m ∈ cfg.models := by
  unfold orderOf at h
  split at h
  · exact absurd rfl h
  · next hne =>
    obtain ⟨⟨c, x⟩, hmem⟩ := exists_mem_of_ne_nil _ (fun h => hne (List.isEmpty_iff.2 h))
    have hrow := (Table.get?_eq_some_iff _ _ _).1 (mem_connsOf.1 hmem)
    exact List.mem_map.2 ⟨_, hrow, rfl⟩

theorem mode_mem_diff {b : Option OrderMode} {a : OrderMode} :
    Change.orderMode b a ∈ diff live target ↔
      live.orderMode ≠ target.orderMode ∧ b = some live.orderMode ∧ a = target.orderMode := by
  unfold diff
  simp only [mem_append, mem_filterMap]
  constructor
  · rintro ((h | ⟨s, -, h⟩) | ⟨s, -, h⟩)
    · split at h
      · next hne =>
        cases List.mem_singleton.1 h
        exact ⟨hne, rfl, rfl⟩
      · cases h
    · split at h
      · cases h
      · cases h
    · split at h
      · cases h
      · cases h
  · rintro ⟨hne, rfl, rfl⟩
    exact Or.inl (Or.inl (by rw [if_pos hne]; exact List.mem_singleton.2 rfl))

theorem route_mem_diff {stage : String} {b a : Option (List String)} :
    Change.route stage b a ∈ diff live target ↔
      live.chain? stage ≠ target.chain? stage ∧ b = live.chain? stage ∧ a = target.chain? stage := by
  unfold diff
  simp only [mem_append, mem_filterMap]
  constructor
  · rintro ((h | ⟨s, -, h⟩) | ⟨s, -, h⟩)
    · split at h
      · cases List.mem_singleton.1 h
      · cases h
    · split at h
      · next hne =>
        cases h
        exact ⟨hne, rfl, rfl⟩
      · cases h
    · split at h
      · cases h
      · cases h
  · rintro ⟨hne, rfl, rfl⟩
    refine Or.inl (Or.inr ⟨stage, mem_sortedUnion.2 ?_, if_pos hne⟩)
    rw [mem_stages, mem_stages]
    by_contra hnone
    rw [not_or, not_not, not_not] at hnone
    exact hne (by rw [Config.chain?, Config.chain?, hnone.1, hnone.2])

theorem order_mem_diff {b a : Option (List String)} :
    Change.providerOrder m b a ∈ diff live target ↔ orderOf live.priorities m ≠ orderOf target.priorities m ∧
      b = orderOf live.priorities m ∧ a = orderOf target.priorities m := by
  unfold diff
  simp only [mem_append, mem_filterMap]
  constructor
  · rintro ((h | ⟨s, -, h⟩) | ⟨s, -, h⟩)
    · split at h
      · cases List.mem_singleton.1 h
      · cases h
    · split at h
      · cases h
      · cases h
    · split at h
      · next hne =>
        cases h
        exact ⟨hne, rfl, rfl⟩
      · cases h
  · rintro ⟨hne, rfl, rfl⟩
    refine Or.inr ⟨m, mem_sortedUnion.2 ?_, if_pos hne⟩
    by_contra hnot
    rw [not_or] at hnot
    have hl : orderOf live.priorities m = none := by_contra fun h => hnot.1 (mem_models_of_orderOf h)
    have ht : orderOf target.priorities m = none := by_contra fun h => hnot.2 (mem_models_of_orderOf h)
    exact hne (hl.trans ht.symm)

/-! ## What the writes leave -/

theorem foldl_part {σ ω β : Type} (step : σ → ω → σ) (g : σ → β) (f : β → β) (hf : ∀ b, f (f b) = f b)
    (hits : ω → Prop) (ws : List ω) (hhit : ∀ w ∈ ws, hits w → ∀ s, g (step s w) = f (g s))
    (hmiss : ∀ w ∈ ws, ¬hits w → ∀ s, g (step s w) = g s) (s : σ) :
    ((∃ w ∈ ws, hits w) → g (ws.foldl step s) = f (g s)) ∧ ((∀ w ∈ ws, ¬hits w) → g (ws.foldl step s) = g s) := by
  induction ws generalizing s with
  | nil => exact ⟨fun ⟨w, hw, _⟩ => absurd hw not_mem_nil, fun _ => rfl⟩
  | cons w ws ih =>
    have hrest := ih (fun w' hw' => hhit w' (mem_cons_of_mem w hw')) (fun w' hw' => hmiss w' (mem_cons_of_mem w hw'))
      (step s w)
    have hhead := hhit w mem_cons_self
    have hhead' := hmiss w mem_cons_self
    rw [foldl_cons]
    refine ⟨fun ⟨w', hw', hw'hits⟩ => ?_, fun hnone => ?_⟩
    · by_cases hlater : ∃ w' ∈ ws, hits w'
      · rw [hrest.1 hlater]
        by_cases hw : hits w
        · rw [hhead hw, hf]
        · rw [hhead' hw]
      · have hnone : ∀ w' ∈ ws, ¬hits w' := fun w' hw' h => hlater ⟨w', hw', h⟩
        rw [hrest.2 hnone]
        rcases List.mem_cons.1 hw' with rfl | hw'
        · exact hhead hw'hits s
        · exact absurd hw'hits (hnone w' hw')
    · rw [hrest.2 fun w' hw' => hnone w' (mem_cons_of_mem w hw'), hhead' (hnone w mem_cons_self)]

section Writes

variable {stages : List String}

theorem mem_applyWrites {w : Write} {changes : List Change} :
    w ∈ applyWrites stages changes target live ↔ ∃ ch ∈ changes, w ∈ changeWrites stages target live ch :=
  mem_flatMap

theorem mem_changeWrites {w : Write} {ch : Change} (h : w ∈ changeWrites stages target live ch) :
    (∃ stage b a r, ch = .route stage b a ∧ w = .route stage r ∧ target.routes.get? stage = some r) ∨
      (∃ m b a c n, ch = .providerOrder m b a ∧ w = .priority m c n ∧ target.priorities.get? (m, c) = some n) ∨
      ∃ b a, ch = .orderMode b a ∧ w = .orderMode a := by
  cases ch with
  | orderMode b a => exact Or.inr (Or.inr ⟨b, a, rfl, List.mem_singleton.1 h⟩)
  | route stage b a =>
    left
    simp only [changeWrites] at h
    split at h
    · obtain ⟨r, hr, rfl⟩ := List.mem_map.1 h
      exact ⟨stage, b, a, r, rfl, rfl, Option.mem_toList.1 hr⟩
    · cases h
  | providerOrder m b a =>
    right
    left
    obtain ⟨⟨c, n⟩, hx, hsome⟩ := List.mem_filterMap.1 h
    split at hsome
    · cases hsome
    · split at hsome
      · cases hsome
        exact ⟨m, b, a, c, n, rfl, rfl, mem_connsOf.1 ((mem_sortBy _ _ _).1 hx)⟩
      · cases hsome

def applied (stages : List String) (live target : Config) : Config := (applyWrites stages (diff live target) target live).foldl Write.perform live

theorem applied_orderMode : (applied stages live target).orderMode = target.orderMode := by
  have hpart := foldl_part Write.perform (fun c : Config => c.orderMode) (fun _ => target.orderMode)
    (fun _ => rfl) (fun w => ∃ mode, w = .orderMode mode) (applyWrites stages (diff live target) target live)
    (fun w hw => ?_) (fun w _ hw c => ?_) live
  · by_cases hmode : live.orderMode = target.orderMode
    · refine (hpart.2 fun w hw => ?_).trans hmode
      rintro ⟨mode, rfl⟩
      obtain ⟨ch, hch, hin⟩ := mem_applyWrites.1 hw
      rcases mem_changeWrites hin with ⟨_, _, _, _, -, h, -⟩ | ⟨_, _, _, _, _, -, h, -⟩ | ⟨b, a, rfl, -⟩
      · cases h
      · cases h
      · exact (mode_mem_diff.1 hch).1 hmode
    · refine hpart.1 ⟨.orderMode target.orderMode, mem_applyWrites.2 ?_, target.orderMode, rfl⟩
      exact ⟨.orderMode (some live.orderMode) target.orderMode, mode_mem_diff.2 ⟨hmode, rfl, rfl⟩,
        List.mem_singleton.2 rfl⟩
  · rintro ⟨mode, rfl⟩ c
    obtain ⟨ch, hch, hin⟩ := mem_applyWrites.1 hw
    rcases mem_changeWrites hin with ⟨_, _, _, _, -, h, -⟩ | ⟨_, _, _, _, _, -, h, -⟩ | ⟨b, a, rfl, h⟩
    · cases h
    · cases h
    · cases h
      exact (mode_mem_diff.1 hch).2.2
  · cases w with
    | orderMode mode => exact absurd ⟨mode, rfl⟩ hw
    | patch p => rfl
    | route stage r => rfl
    | priority m c n => rfl

variable (live stages) in
theorem applied_route {stage : String} {r : Route} (hr : target.routes.get? stage = some r) :
    (live.chain? stage = target.chain? stage → (applied stages live target).routes.get? stage = live.routes.get? stage) ∧
      (live.chain? stage ≠ target.chain? stage → stage ∈ stages → chainOf r ≠ [] →
        (applied stages live target).routes.get? stage = (live.routes.get? stage).map fun _ => r) := by
  have hpart := foldl_part Write.perform (fun c : Config => c.routes.get? stage) (Option.map fun _ => r)
    (fun b => by rw [Option.map_map]; rfl) (fun w => ∃ r', w = .route stage r')
    (applyWrites stages (diff live target) target live) (fun w hw => ?_) (fun w hw hmiss c => ?_) live
  · refine ⟨fun hsame => hpart.2 fun w hw => ?_, fun hne hstage hnil => hpart.1 ⟨.route stage r, ?_, r, rfl⟩⟩
    · rintro ⟨r', rfl⟩
      obtain ⟨ch, hch, hin⟩ := mem_applyWrites.1 hw
      rcases mem_changeWrites hin with ⟨_, _, _, _, rfl, h, -⟩ | ⟨_, _, _, _, _, -, h, -⟩ | ⟨_, _, -, h⟩
      · cases h
        exact (route_mem_diff.1 hch).1 hsame
      · cases h
      · cases h
    · have hafter : (target.chain? stage).any (!·.isEmpty) = true := by
        rw [Config.chain?, hr, Option.map_some, Option.any_some, Bool.not_eq_true', isEmpty_eq_false_iff]
        exact hnil
      refine mem_applyWrites.2 ⟨.route stage _ _, route_mem_diff.2 ⟨hne, rfl, rfl⟩, ?_⟩
      simp only [changeWrites]
      rw [if_pos ⟨hstage, hafter⟩, hr]
      exact List.mem_singleton.2 rfl
  · rintro ⟨r', rfl⟩ c
    obtain ⟨ch, hch, hin⟩ := mem_applyWrites.1 hw
    rcases mem_changeWrites hin with ⟨_, _, _, _, -, h, hr'⟩ | ⟨_, _, _, _, _, -, h, -⟩ | ⟨_, _, -, h⟩
    · cases h
      rw [hr] at hr'
      cases hr'
      show (c.routes.update _ _).get? stage = _
      rw [Table.get?_update]
      simp
    · cases h
    · cases h
  · obtain ⟨ch, -, hin⟩ := mem_applyWrites.1 hw
    rcases mem_changeWrites hin with ⟨stage', _, _, r', -, rfl, -⟩ | ⟨_, _, _, _, _, -, rfl, -⟩ | ⟨_, _, -, rfl⟩
    · have hne : stage ≠ stage' := by
        rintro rfl
        exact hmiss ⟨r', rfl⟩
      show (c.routes.update _ _).get? stage = _
      rw [Table.get?_update]
      simp [hne]
    · rfl
    · rfl

variable (live stages) in
theorem applied_priority {n : Int} (hn : target.priorities.get? (m, c) = some n) :
    (orderOf live.priorities m = orderOf target.priorities m →
        (applied stages live target).priorities.get? (m, c) = live.priorities.get? (m, c)) ∧
      (orderOf live.priorities m ≠ orderOf target.priorities m →
        (applied stages live target).priorities.get? (m, c) = (live.priorities.get? (m, c)).map fun _ => n) := by
  have hpart := foldl_part Write.perform (fun cfg : Config => cfg.priorities.get? (m, c)) (Option.map fun _ => n)
    (fun b => by rw [Option.map_map]; rfl) (fun w => ∃ n', w = .priority m c n')
    (applyWrites stages (diff live target) target live) (fun w hw => ?_) (fun w hw hmiss cfg => ?_) live
  · refine ⟨fun hsame => hpart.2 fun w hw => ?_, fun hne => ?_⟩
    · rintro ⟨n', rfl⟩
      obtain ⟨ch, hch, hin⟩ := mem_applyWrites.1 hw
      rcases mem_changeWrites hin with ⟨_, _, _, _, -, h, -⟩ | ⟨_, _, _, _, _, rfl, h, -⟩ | ⟨_, _, -, h⟩
      · cases h
      · cases h
        exact (order_mem_diff.1 hch).1 hsame
      · cases h
    · cases hlive : live.priorities.get? (m, c) with
      | none =>
        -- no row, whatever is written
        by_cases hhit : ∃ w ∈ applyWrites stages (diff live target) target live, ∃ n', w = .priority m c n'
        · exact (hpart.1 hhit).trans (by rw [hlive])
        · exact (hpart.2 fun w hw h => hhit ⟨w, hw, h⟩).trans hlive
      | some q =>
        by_cases hq : q = n
        · subst hq
          by_cases hhit : ∃ w ∈ applyWrites stages (diff live target) target live, ∃ n', w = .priority m c n'
          · exact (hpart.1 hhit).trans (by rw [hlive])
          · exact (hpart.2 fun w hw h => hhit ⟨w, hw, h⟩).trans hlive
        · refine (hpart.1 ⟨.priority m c n, mem_applyWrites.2 ?_, n, rfl⟩).trans (by rw [hlive])
          refine ⟨.providerOrder m _ _, order_mem_diff.2 ⟨hne, rfl, rfl⟩, List.mem_filterMap.2 ⟨(c, n), ?_, ?_⟩⟩
          · exact (mem_sortBy _ _ _).2 (mem_connsOf.2 hn)
          · simp only [hlive]
            exact if_pos hq
  · rintro ⟨n', rfl⟩ cfg
    obtain ⟨ch, hch, hin⟩ := mem_applyWrites.1 hw
    rcases mem_changeWrites hin with ⟨_, _, _, _, -, h, -⟩ | ⟨_, _, _, _, _, -, h, hn'⟩ | ⟨_, _, -, h⟩
    · cases h
    · cases h
      rw [hn] at hn'
      cases hn'
      show (cfg.priorities.update _ _).get? (m, c) = _
      rw [Table.get?_update]
      simp
    · cases h
  · obtain ⟨ch, -, hin⟩ := mem_applyWrites.1 hw
    rcases mem_changeWrites hin with ⟨_, _, _, _, -, rfl, -⟩ | ⟨m', _, _, c', n', -, rfl, -⟩ | ⟨_, _, -, rfl⟩
    · rfl
    · have hne : (m, c) ≠ (m', c') := by
        intro h
        cases h
        exact hmiss ⟨n', rfl⟩
      show (cfg.priorities.update _ _).get? (m, c) = _
      rw [Table.get?_update]
      simp [hne]
    · rfl

end Writes

/-! ## The target of a revert -/

theorem ofText?_text (mode : OrderMode) : OrderMode.ofText? mode.text = some mode := by
  cases mode with
  | modelFirst => rfl
  | awsFirst => rfl

theorem chainOf_of_nonblank {k : String} {ks keys : List String} (h : keys.filter (!blank ·) = k :: ks) :
    chainOf ⟨k, ks⟩ = k :: ks := by
  refine List.filter_eq_self.2 fun x hx => ?_
  rw [← h] at hx
  have hblank := (List.mem_filter.1 hx).2
  rw [decide_eq_true_eq]
  rintro rfl
  revert hblank
  decide

theorem foldl_setRoute {stages : List String} {l : List (String × List String)} (hl : (l.map Prod.fst).Nodup)
    {t : Config × List Problem} (h : (l.foldl (setRoute stages) t).2 = []) :
    t.2 = [] ∧ (l.foldl (setRoute stages) t).1.orderMode = t.1.orderMode ∧
      (l.foldl (setRoute stages) t).1.priorities = t.1.priorities ∧
      (∀ stage, stage ∉ l.map Prod.fst → (l.foldl (setRoute stages) t).1.routes.get? stage = t.1.routes.get? stage) ∧
      ∀ x ∈ l, ∃ k ks, x.2.filter (!blank ·) = k :: ks ∧
        (l.foldl (setRoute stages) t).1.routes.get? x.1 = some ⟨k, ks⟩ := by
  induction l generalizing t with
  | nil => exact ⟨h, rfl, rfl, fun _ _ => rfl, fun x hx => absurd hx not_mem_nil⟩
  | cons y l ih =>
    rw [map_cons, nodup_cons] at hl
    rw [foldl_cons] at h ⊢
    obtain ⟨herr, hmode, hprio, hother, hall⟩ := ih hl.2 h
    -- the first route was taken, or there is an error
    obtain ⟨k, ks, hkeys, hstep⟩ : ∃ k ks, y.2.filter (!blank ·) = k :: ks ∧
        setRoute stages t y = ({ t.1 with routes := t.1.routes.upsert y.1 ⟨k, ks⟩ }, t.2) := by
      unfold setRoute at herr ⊢
      split at herr
      · next hin =>
        rw [if_pos hin]
        split at herr
        · exact absurd herr (append_ne_nil_of_right_ne_nil _ (cons_ne_nil _ _))
        · next k ks hkeys => exact ⟨k, ks, hkeys, rfl⟩
      · exact absurd herr (append_ne_nil_of_right_ne_nil _ (cons_ne_nil _ _))
    rw [hstep] at herr hmode hprio hother hall ⊢
    refine ⟨herr, hmode, hprio, fun stage hstage => ?_, fun x hx => ?_⟩
    · rw [map_cons, mem_cons, not_or] at hstage
      rw [hother stage hstage.2, Table.get?_upsert, if_neg hstage.1]
    · rcases List.mem_cons.1 hx with rfl | hx
      · exact ⟨k, ks, hkeys, by rw [hother x.1 hl.1, Table.get?_upsert, if_pos rfl]⟩
      · exact hall x hx

theorem foldl_setPriority {deployments : List (String × String)} {l : List ((String × String) × Int)}
    (hl : (l.map Prod.fst).Nodup) (k : String × String) :
    (∀ n, (k, n) ∈ l → k ∈ deployments → (l.foldl (setPriority deployments) p).get? k = some n) ∧
      (k ∉ l.map Prod.fst → (l.foldl (setPriority deployments) p).get? k = p.get? k) := by
  induction l generalizing p with
  | nil => exact ⟨fun n hn => absurd hn not_mem_nil, fun _ => rfl⟩
  | cons x l ih =>
    rw [map_cons, nodup_cons] at hl
    rw [foldl_cons]
    refine ⟨fun n hn hk => ?_, fun hk => ?_⟩
    · rcases List.mem_cons.1 hn with rfl | hn
      · rw [(ih hl.2).2 hl.1, setPriority, if_pos hk, Table.get?_upsert, if_pos rfl]
      · exact (ih hl.2).1 n hn hk
    · rw [map_cons, mem_cons, not_or] at hk
      rw [(ih hl.2).2 hk.2, setPriority]
      split
      · rw [Table.get?_upsert, if_neg hk.1]
      · rfl

/-- The target of a revert to `v` on top of `live`. -/
def revertTarget (live v : Config) : Config × List Problem :=
  buildTarget live (revertChanges v live.stages) live.deployments live.stages

variable {v : Config}

theorem revertTarget_spec (h : (revertTarget live v).2 = []) :
    (revertTarget live v).1.orderMode = v.orderMode ∧
      (∀ stage r, stage ∈ live.stages → v.routes.get? stage = some r → ∃ k ks,
        (chainOf r).filter (!blank ·) = k :: ks ∧ (revertTarget live v).1.routes.get? stage = some ⟨k, ks⟩) ∧
      ∀ k n, k ∈ live.deployments → v.priorities.get? k = some n → (revertTarget live v).1.priorities.get? k = some n := by
  have hmode : setOrderMode (some v.orderMode.text) (live, []) = ({ live with orderMode := v.orderMode }, []) := by
    simp only [setOrderMode, ofText?_text]
  have hnodup : (((v.routes.rows.map fun x => (x.1, chainOf x.2)).filter fun x => x.1 ∈ live.stages).map
      Prod.fst).Nodup := by
    refine List.Nodup.sublist (List.filter_sublist.map _) ?_
    rw [map_map]
    exact v.routes.nodup
  unfold revertTarget buildTarget revertChanges at h ⊢
  rw [hmode] at h ⊢
  obtain ⟨-, hm, hp, -, hall⟩ := foldl_setRoute hnodup h
  refine ⟨hm, fun stage r hstage hr => ?_, fun k n hk hn => ?_⟩
  · have hrow := (Table.get?_eq_some_iff _ _ _).1 hr
    exact hall (stage, chainOf r) (List.mem_filter.2 ⟨List.mem_map.2 ⟨_, hrow, rfl⟩, decide_eq_true hstage⟩)
  · exact (foldl_setPriority v.priorities.nodup k).1 n ((Table.get?_eq_some_iff _ _ _).1 hn) hk

/-! ## Restored -/

/-- Config `cfg` is version `v`, as far as both have its parts. -/
structure Restored (v cfg : Config) : Prop where
  orderMode : cfg.orderMode = v.orderMode
  chains : ∀ stage r r', cfg.routes.get? stage = some r → v.routes.get? stage = some r' →
    chainOf r = (chainOf r').filter (!blank ·)
  orders : ∀ m c c', (m, c) ∈ cfg.deployments → (m, c') ∈ cfg.deployments → (m, c) ∈ v.deployments →
    (m, c') ∈ v.deployments → (Precedes cfg.priorities m c c' ↔ Precedes v.priorities m c c')

theorem perform_stages (cfg : Config) (w : Write) : (w.perform cfg).stages = cfg.stages := by
  have hupdate : ∀ (q : String → Route → Bool) (f : String → Route → Route),
      (cfg.routes.update q f).rows.map Prod.fst = cfg.routes.rows.map Prod.fst := by
    intro q f
    rw [Table.update, map_map]
    rfl
  cases w with
  | patch p => exact hupdate _ _
  | route stage r => exact hupdate _ _
  | priority m c n => rfl
  | orderMode mode => rfl

theorem perform_deployments (cfg : Config) (w : Write) : (w.perform cfg).deployments = cfg.deployments := by
  cases w with
  | patch p => rfl
  | route stage r => rfl
  | priority m c n =>
    show (cfg.priorities.update _ _).rows.map Prod.fst = _
    rw [Table.update, map_map]
    rfl
  | orderMode mode => rfl

theorem foldl_perform_keys (ws : List Write) (cfg : Config) :
    (ws.foldl Write.perform cfg).stages = cfg.stages ∧ (ws.foldl Write.perform cfg).deployments = cfg.deployments := by
  induction ws generalizing cfg with
  | nil => exact ⟨rfl, rfl⟩
  | cons w ws ih =>
    rw [foldl_cons, (ih _).1, (ih _).2, perform_stages, perform_deployments]
    exact ⟨rfl, rfl⟩

theorem revert_restores (h : (revertTarget live v).2 = []) :
    Restored v (applied live.stages live (revertTarget live v).1) := by
  obtain ⟨hmode, hroutes, hprios⟩ := revertTarget_spec h
  have hkeys : (applied live.stages live (revertTarget live v).1).stages = live.stages ∧
      (applied live.stages live (revertTarget live v).1).deployments = live.deployments := foldl_perform_keys _ live
  refine ⟨applied_orderMode.trans hmode, fun stage r r' hr hr' => ?_, fun m c c' hc hc' hvc hvc' => ?_⟩
  · have hstage : stage ∈ live.stages := by
      rw [← hkeys.1, mem_stages]
      exact fun hnone => Option.some_ne_none r (hr.symm.trans hnone)
    obtain ⟨k, ks, hkk, htarget⟩ := hroutes stage r' hstage hr'
    have hchain := chainOf_of_nonblank hkk
    rw [hkk, ← hchain]
    obtain ⟨hsame, hdiff⟩ := applied_route live live.stages htarget
    by_cases hcmp : live.chain? stage = (revertTarget live v).1.chain? stage
    · have hlive : live.routes.get? stage = some r := (hsame hcmp).symm.trans hr
      rw [Config.chain?, Config.chain?, hlive, htarget] at hcmp
      exact Option.some.inj hcmp
    · have hset := hdiff hcmp hstage (by rw [hchain]; exact cons_ne_nil k ks)
      rw [hr] at hset
      obtain ⟨-, -, heq⟩ := Option.map_eq_some_iff.1 hset.symm
      rw [← heq]
  · rw [hkeys.2] at hc hc'
    obtain ⟨n, hn⟩ := Option.ne_none_iff_exists'.1 (mem_deployments.1 hvc)
    obtain ⟨n', hn'⟩ := Option.ne_none_iff_exists'.1 (mem_deployments.1 hvc')
    have ht := hprios _ n hc hn
    have ht' := hprios _ n' hc' hn'
    have htarget : Precedes (revertTarget live v).1.priorities m c c' ↔ Precedes v.priorities m c c' :=
      precedes_congr (ht.trans hn.symm) (ht'.trans hn'.symm)
    rw [← htarget]
    obtain ⟨hsame, hdiff⟩ := applied_priority live live.stages ht
    obtain ⟨hsame', hdiff'⟩ := applied_priority live live.stages ht'
    by_cases hcmp : orderOf live.priorities m = orderOf (revertTarget live v).1.priorities m
    · -- nothing written for this model: its order is the target's already
      rw [precedes_congr (hsame hcmp) (hsame' hcmp)]
      exact precedes_of_orderOf hcmp
    · obtain ⟨q, hq⟩ := Option.ne_none_iff_exists'.1 (mem_deployments.1 hc)
      obtain ⟨q', hq'⟩ := Option.ne_none_iff_exists'.1 (mem_deployments.1 hc')
      refine precedes_congr ?_ ?_
      · rw [hdiff hcmp, hq, ht]
        rfl
      · rw [hdiff' hcmp, hq', ht']
        rfl

end CisApp.RouteConfig
