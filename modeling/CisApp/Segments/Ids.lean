import CisApp.Segments.Derive

/-!
# Every derived Segment has its own id

Keys are made of words of `[a-z0-9]`, so the parts of a mint can be read back
from the text that is hashed: a first mint has two or three parts, a second mint
six.  In a contested group one Segment at most keeps the first mint (the one that
holds the pseudo atom of that id), and the second mints of one full key count up.
-/

namespace CisApp.Segments

open CisApp.Lib List

variable {T : Text} {sha : String → String}

/-! ## Words of keys -/

def Plain (s : String) : Prop := ∀ c ∈ s.toList, wordChar c = true

def PlainWords (l : List String) : Prop := ∀ w ∈ l, Plain w ∧ w ≠ ""

structure Key.Clean (k : Key) : Prop where
  place : PlainWords k.place
  verb : Plain k.verb
  said : Plain k.said
  about : PlainWords k.about

theorem Plain.not_mem {s : String} (h : Plain s) {c : Char} (hc : wordChar c = false) :
    c ∉ s.toList := by
  intro hin
  have := h c hin
  rw [hc] at this
  cases this

theorem plain_empty : Plain "" := by
  intro c hc
  cases hc

theorem splitWords_plain (s : String) : PlainWords (splitWords (fun c => !wordChar c) s) := by
  have hparts : ∀ (l acc : List Char), (∀ c ∈ acc, wordChar c = true) →
      ∀ part ∈ List.splitOnPPrepend (fun c => !wordChar c) l acc, ∀ c ∈ part, wordChar c = true := by
    intro l
    induction l with
    | nil =>
      intro acc hacc part hpart c hc
      rw [splitOnPPrepend_nil, mem_singleton] at hpart
      rw [hpart, mem_reverse] at hc
      exact hacc c hc
    | cons x l ih =>
      intro acc hacc part hpart c hc
      cases hx : wordChar x with
      | false =>
        rw [splitOnPPrepend_cons_pos (by rw [hx]; rfl), mem_cons] at hpart
        rcases hpart with rfl | hpart
        · exact hacc c (List.mem_reverse.1 hc)
        · exact ih [] (fun _ h => absurd h not_mem_nil) part hpart c hc
      | true =>
        rw [splitOnPPrepend_cons_neg (by rw [hx]; rfl)] at hpart
        refine ih (x :: acc) (fun c' hc' => ?_) part hpart c hc
        rcases List.mem_cons.1 hc' with rfl | hc'
        · exact hx
        · exact hacc c' hc'
  intro w hw
  obtain ⟨part, hpart, rfl⟩ := List.mem_map.1 hw
  rw [mem_filter, decide_eq_true_eq] at hpart
  refine ⟨fun c hc => ?_, fun he => hpart.2 ?_⟩
  · rw [String.toList_ofList] at hc
    exact hparts _ [] (fun _ h => absurd h not_mem_nil) part hpart.1 c hc
  · rw [← String.toList_inj, String.toList_ofList] at he
    exact he

theorem stem_plain {w : String} (h : Plain w) : Plain (stem w) := by
  unfold stem
  dsimp only
  split
  · intro c hc
    rw [String.toList_ofList] at hc
    exact h c (mem_of_mem_take hc)
  · exact h

theorem stem_ne {w : String} (h : w ≠ "") : stem w ≠ "" := by
  unfold stem
  dsimp only
  split
  · next suffix hs =>
    have hlen := List.find?_some hs
    simp only [Bool.and_eq_true, decide_eq_true_eq] at hlen
    intro he
    rw [← String.toList_inj, String.toList_ofList] at he
    have := congrArg List.length he
    rw [length_take] at this
    simp only [String.toList_empty, length_nil] at this
    omega
  · exact h

theorem pastTheApproach_subset {words : List String} {w : String} (h : w ∈ pastTheApproach words) :
    w ∈ words := by
  unfold pastTheApproach at h
  split at h
  · exact h
  · split at h
    · exact h
    · split at h
      · exact mem_of_mem_drop h
      · exact h

theorem PlainWords.wordSet {l : List String} (h : PlainWords l) : PlainWords (wordSet l) := by
  intro w hw
  unfold Segments.wordSet at hw
  rw [mem_sortBy, mem_dedup] at hw
  exact h w hw

theorem inItsOwnWords_plain {verb : String} (h : Plain verb) : Plain (inItsOwnWords verb) := by
  have hclasses : ∀ e ∈ actionSynonymClasses, Plain e.1 := by
    have hall : (actionSynonymClasses.all fun e => e.1.toList.all wordChar) = true := by decide
    exact fun e he => List.all_eq_true.1 (List.all_eq_true.1 hall e he)
  unfold inItsOwnWords
  dsimp only
  cases hl : (actionSynonymClasses.flatMap fun e => e.2.map fun v => (stem v, stem e.1)).lookup
      verb with
  | none => exact h
  | some w =>
    obtain ⟨l₁, l₂, hl', -⟩ := List.lookup_eq_some_iff.1 hl
    have hin : (verb, w) ∈ actionSynonymClasses.flatMap fun e => e.2.map fun v => (stem v, stem e.1) := by
      rw [hl']
      simp
    obtain ⟨e, he, hv⟩ := List.mem_flatMap.1 hin
    obtain ⟨v, -, hvw⟩ := List.mem_map.1 hv
    rw [← (Prod.mk.inj hvw).2]
    exact stem_plain (hclasses e he)

theorem key_clean (place action : String) : (T.key place action).Clean := by
  have hwords : ∀ s, PlainWords (T.words s) := fun s => splitWords_plain _
  have hrest : PlainWords (pastTheApproach (T.words action)) := fun w hw =>
    hwords action w (pastTheApproach_subset hw)
  refine ⟨?_, ?_, ?_, ?_⟩
  · show PlainWords (T.placeTokens place)
    refine PlainWords.wordSet ?_
    split
    · exact hwords place
    · exact fun w hw => hwords place w (mem_of_mem_filter hw)
  · show Plain (T.leadingVerb action)
    unfold Text.leadingVerb
    split
    · exact plain_empty
    · next w rest hw =>
      exact inItsOwnWords_plain (stem_plain (hrest w (by rw [hw]; exact mem_cons_self)).1)
  · show Plain (((pastTheApproach (T.words action)).head?.map stem).getD "")
    cases hh : (pastTheApproach (T.words action)).head? with
    | none => exact plain_empty
    | some w => exact stem_plain (hrest w (mem_of_mem_head? hh)).1
  · refine PlainWords.wordSet fun w hw => ?_
    obtain ⟨v, hv, rfl⟩ := List.mem_map.1 hw
    have := hrest v (mem_of_mem_tail (mem_of_mem_filter hv))
    exact ⟨stem_plain this.1, stem_ne this.2⟩

/-! ## Reading a mint back -/

theorem joinWith_inj {sep : Char} {l l' : List String} (h : ∀ s ∈ l, sep ∉ s.toList)
    (h' : ∀ s ∈ l', sep ∉ s.toList) (hne : l ≠ []) (hne' : l' ≠ [])
    (heq : joinWith sep l = joinWith sep l') : l = l' := by
  have hsplit : ∀ m : List String, (∀ s ∈ m, sep ∉ s.toList) → m ≠ [] →
      (joinWith sep m).toList.splitOn sep = m.map String.toList := by
    intro m hm hmne
    unfold joinWith
    rw [String.toList_ofList]
    refine splitOn_intercalate sep (fun part hpart => ?_) (by simpa using hmne)
    obtain ⟨s, hs, rfl⟩ := List.mem_map.1 hpart
    exact hm s hs
  have hmap : l.map String.toList = l'.map String.toList := by
    rw [← hsplit l h hne, ← hsplit l' h' hne', heq]
  exact List.map_injective_iff.2 (fun _ _ => String.toList_inj.1) hmap

theorem joinWords_inj {l l' : List String} (h : PlainWords l) (h' : PlainWords l')
    (heq : joinWith ' ' l = joinWith ' ' l') : l = l' := by
  have hsep : ∀ m : List String, PlainWords m → ∀ s ∈ m, ' ' ∉ s.toList := fun m hm s hs =>
    (hm s hs).1.not_mem (by decide)
  have hempty : ∀ m : List String, PlainWords m → joinWith ' ' m = joinWith ' ' [] → m = [] := by
    intro m hm he
    by_contra hne
    have he' : joinWith ' ' m = joinWith ' ' [""] := by
      rw [he]
      rfl
    have := joinWith_inj (hsep m hm) (by simp) hne (by simp) he'
    exact (hm "" (by rw [this]; simp)).2 rfl
  by_cases hne : l = []
  · subst hne
    exact (hempty l' h' heq.symm).symm
  · by_cases hne' : l' = []
    · subst hne'
      exact absurd (hempty l h heq) hne
    · exact joinWith_inj (hsep l h) (hsep l' h') hne hne' heq

theorem mem_intercalate {sep c : Char} {parts : List (List Char)}
    (h : c ∈ List.intercalate [sep] parts) : c = sep ∨ ∃ part ∈ parts, c ∈ part := by
  induction parts with
  | nil => cases h
  | cons part parts ih =>
    cases parts with
    | nil =>
      refine Or.inr ⟨part, List.mem_singleton.2 rfl, ?_⟩
      simpa [List.intercalate] using h
    | cons part' parts =>
      rw [intercalate_cons_cons, mem_append, mem_append, mem_singleton] at h
      rcases h with (h | h) | h
      · exact Or.inr ⟨part, mem_cons_self, h⟩
      · exact Or.inl h
      · rcases ih h with h | ⟨q, hq, hc⟩
        · exact Or.inl h
        · exact Or.inr ⟨q, mem_cons_of_mem _ hq, hc⟩

theorem joinWith_blank_not_mem {l : List String} (h : PlainWords l) : '|' ∉ (joinWith ' ' l).toList := by
  unfold joinWith
  rw [String.toList_ofList]
  intro hin
  rcases mem_intercalate hin with hin | ⟨part, hpart, hin⟩
  · simp at hin
  · obtain ⟨s, hs, rfl⟩ := List.mem_map.1 hpart
    exact (h s hs).1.not_mem (by decide) hin

def mintParts (k : Key) (country : String) : List String :=
  [joinWith ' ' k.place, k.verb] ++ if country = "" then [] else [country]

def specificParts (k : Key) (country : String) (n : Nat) : List String :=
  [joinWith ' ' k.place, k.verb, country, k.said, joinWith ' ' k.about, n.repr]

theorem repr_plain (n : Nat) : Plain n.repr := by
  intro c hc
  rw [Nat.toList_repr] at hc
  have := Nat.isDigit_of_mem_toDigits (by decide) (by decide) hc
  unfold wordChar
  rw [this, Bool.or_true]

theorem mintParts_bars {k : Key} {country : String} (hk : k.Clean) (hc : '|' ∉ country.toList) :
    ∀ s ∈ mintParts k country, '|' ∉ s.toList := by
  intro s hs
  unfold mintParts at hs
  simp only [cons_append, nil_append, mem_cons] at hs
  rcases hs with rfl | rfl | hs
  · exact joinWith_blank_not_mem hk.place
  · exact hk.verb.not_mem (by decide)
  · split at hs
    · cases hs
    · rw [List.mem_singleton.1 hs]
      exact hc

theorem specificParts_bars {k : Key} {country : String} {n : Nat} (hk : k.Clean)
    (hc : '|' ∉ country.toList) : ∀ s ∈ specificParts k country n, '|' ∉ s.toList := by
  intro s hs
  unfold specificParts at hs
  simp only [mem_cons, not_mem_nil, or_false] at hs
  rcases hs with rfl | rfl | rfl | rfl | rfl | rfl
  · exact joinWith_blank_not_mem hk.place
  · exact hk.verb.not_mem (by decide)
  · exact hc
  · exact hk.said.not_mem (by decide)
  · exact joinWith_blank_not_mem hk.about
  · exact (repr_plain n).not_mem (by decide)

section mints

variable (hsha : Function.Injective sha) {k k' : Key} {c c' : String} (hk : k.Clean) (hk' : k'.Clean)
  (hc : '|' ∉ c.toList) (hc' : '|' ∉ c'.toList)

include hsha hk hk' hc hc'

theorem mintSpecific_inj {n n' : Nat} (h : mintSpecific sha k c n = mintSpecific sha k' c' n') :
    k = k' ∧ c = c' ∧ n = n' := by
  have hparts : specificParts k c n = specificParts k' c' n' :=
    joinWith_inj (specificParts_bars hk hc) (specificParts_bars hk' hc') (by simp [specificParts])
      (by simp [specificParts]) (hsha h)
  simp only [specificParts, List.cons.injEq, and_true] at hparts
  obtain ⟨hplace, hverb, hcountry, hsaid, habout, hn⟩ := hparts
  refine ⟨?_, hcountry, Nat.repr_injective hn⟩
  cases k
  cases k'
  simp only [Key.mk.injEq]
  exact ⟨joinWords_inj hk.place hk'.place hplace, hverb, hsaid, joinWords_inj hk.about hk'.about habout⟩

theorem mint_ne_mintSpecific {n : Nat} : mint sha k c ≠ mintSpecific sha k' c' n := by
  intro h
  have hparts : mintParts k c = specificParts k' c' n :=
    joinWith_inj (mintParts_bars hk hc) (specificParts_bars hk' hc') (by simp [mintParts])
      (by simp [specificParts]) (hsha h)
  have hlen := congrArg List.length hparts
  unfold mintParts specificParts at hlen
  split at hlen <;> simp at hlen

theorem mint_country (h : mint sha k c = mint sha k' c') : c = c' := by
  have hparts : mintParts k c = mintParts k' c' :=
    joinWith_inj (mintParts_bars hk hc) (mintParts_bars hk' hc') (by simp [mintParts])
      (by simp [mintParts]) (hsha h)
  unfold mintParts at hparts
  simp only [cons_append, nil_append, List.cons.injEq] at hparts
  obtain ⟨-, -, hcountry⟩ := hparts
  split at hcountry <;> split at hcountry <;> simp_all

end mints

/-! ## Second mints -/

/-- A list of minted Segments: the first mints of clean keys, without a member in common. -/
structure MintedOk (sha : String → String) (minted : List Minted) : Prop where
  id : ∀ m ∈ minted, m.segment.id = mint sha m.canonical m.country
  clean : ∀ m ∈ minted, m.canonical.Clean
  country : ∀ m ∈ minted, '|' ∉ m.country.toList
  disjoint : minted.Pairwise fun m m' => m.segment.atomIds.Disjoint m'.segment.atomIds

/-- The ids of one group so far: second mints of its members below the next index of their key,
no two alike. -/
structure Reminted (sha : String → String) (done : List (Minted × Nat))
    (st : (Key × String → Nat) × List (Nat × String)) : Prop where
  named : ∀ x ∈ st.2, ∃ e ∈ done, x.1 = e.2 ∧
    ∃ n, n < st.1 (e.1.canonical, e.1.country) ∧ x.2 = mintSpecific sha e.1.canonical e.1.country n
  all : ∀ e ∈ done, ∃ x ∈ st.2, x.1 = e.2
  distinct : st.2.Pairwise fun x y => x.2 ≠ y.2

theorem le_freeMint (sha : String → String) (stored : List String) (m : Minted) (fuel n : Nat) :
    n ≤ freeMint sha stored m fuel n := by
  induction fuel generalizing n with
  | zero => exact le_refl n
  | succ fuel ih =>
    unfold freeMint
    dsimp only
    split
    · have := ih (n + 1)
      omega
    · exact le_refl n

theorem Reminted.step (hsha : Function.Injective sha) {stored : List String}
    {done : List (Minted × Nat)} {st : (Key × String → Nat) × List (Nat × String)} {e : Minted × Nat}
    (hclean : ∀ e' ∈ done ++ [e], e'.1.canonical.Clean ∧ '|' ∉ e'.1.country.toList)
    (h : Reminted sha done st) : Reminted sha (done ++ [e]) (remintStep sha stored st e) := by
  have hle := le_freeMint sha stored e.1 stored.length (st.1 (e.1.canonical, e.1.country))
  unfold remintStep
  dsimp only
  generalize freeMint sha stored e.1 stored.length (st.1 (e.1.canonical, e.1.country)) = n at hle ⊢
  have hgrow : ∀ full, st.1 full ≤ Function.update st.1 (e.1.canonical, e.1.country) (n + 1) full := by
    intro full
    by_cases hf : full = (e.1.canonical, e.1.country)
    · rw [hf, Function.update_self]
      omega
    · rw [Function.update_of_ne hf]
  refine ⟨fun x hx => ?_, fun e' he' => ?_, ?_⟩
  · rcases List.mem_append.1 hx with hx | hx
    · obtain ⟨e', he', hi, k, hk, hid⟩ := h.named x hx
      exact ⟨e', mem_append_left _ he', hi, k, lt_of_lt_of_le hk (hgrow _), hid⟩
    · rw [mem_singleton] at hx
      subst hx
      refine ⟨e, by simp, rfl, n, ?_, rfl⟩
      dsimp only
      rw [Function.update_self]
      omega
  · rcases List.mem_append.1 he' with he' | he'
    · obtain ⟨x, hx, hi⟩ := h.all e' he'
      exact ⟨x, mem_append_left _ hx, hi⟩
    · rw [List.mem_singleton.1 he']
      exact ⟨_, mem_append_right _ (List.mem_singleton.2 rfl), rfl⟩
  · rw [pairwise_append]
    refine ⟨h.distinct, pairwise_singleton _ _, fun x hx y hy heq => ?_⟩
    rw [List.mem_singleton.1 hy] at heq
    obtain ⟨e', he', -, k, hk, hid⟩ := h.named x hx
    rw [hid] at heq
    obtain ⟨hkey, hcountry, hkn⟩ := mintSpecific_inj hsha (hclean e' (mem_append_left _ he')).1
      (hclean e (by simp)).1 (hclean e' (mem_append_left _ he')).2 (hclean e (by simp)).2 heq
    -- the earlier index of this full key is below the next one
    rw [hkey, hcountry] at hk
    omega

theorem remintGroup_spec (hsha : Function.Injective sha) (stored : List String) (baseId : String)
    (members : List (Minted × Nat))
    (hclean : ∀ e ∈ members, e.1.canonical.Clean ∧ '|' ∉ e.1.country.toList) :
    (∀ x ∈ remintGroup sha stored baseId members, ∃ e ∈ members, x.1 = e.2 ∧
      ∃ n, x.2 = mintSpecific sha e.1.canonical e.1.country n) ∧
    (remintGroup sha stored baseId members).Pairwise (fun x y => x.2 ≠ y.2) ∧
    (2 ≤ members.length → ∀ e ∈ members, pseudoId baseId ∉ e.1.segment.atomIds →
      ∃ x ∈ remintGroup sha stored baseId members, x.1 = e.2) := by
  have hfold : ∀ (l done : List (Minted × Nat)) (st : (Key × String → Nat) × List (Nat × String)),
      (∀ e ∈ done ++ l, e.1.canonical.Clean ∧ '|' ∉ e.1.country.toList) → Reminted sha done st →
      Reminted sha (done ++ l) (l.foldl (remintStep sha stored) st) := by
    intro l
    induction l with
    | nil =>
      intro done st _ h
      rw [append_nil]
      exact h
    | cons e l ih =>
      intro done st hc h
      have hassoc : done ++ e :: l = (done ++ [e]) ++ l := by simp
      rw [hassoc] at hc ⊢
      exact ih (done ++ [e]) _ hc (h.step hsha fun e' he' => hc e' (mem_append_left _ he'))
  have hinit : Reminted sha [] ((fun _ => 0, []) : (Key × String → Nat) × List (Nat × String)) :=
    ⟨fun x hx => absurd hx not_mem_nil, fun e he => absurd he not_mem_nil, List.Pairwise.nil⟩
  unfold remintGroup
  split
  · next hsmall =>
    simp only [Bool.and_eq_true, decide_eq_true_eq] at hsmall
    exact ⟨fun x hx => absurd hx not_mem_nil, List.Pairwise.nil, fun h2 => by omega⟩
  · have h := hfold (sortBy (fun e => e.1.segment.atomIds)
      (members.filter fun e => pseudoId baseId ∉ e.1.segment.atomIds)) [] _
      (fun e he => by
        rw [nil_append, mem_sortBy] at he
        exact hclean e (mem_of_mem_filter he)) hinit
    rw [nil_append] at h
    refine ⟨fun x hx => ?_, h.distinct, fun _ e he hown => ?_⟩
    · obtain ⟨e, he, hi, n, -, hid⟩ := h.named x hx
      rw [mem_sortBy] at he
      exact ⟨e, mem_of_mem_filter he, hi, n, hid⟩
    · refine h.all e ?_
      rw [mem_sortBy, mem_filter, decide_eq_true_eq]
      exact ⟨he, hown⟩

variable {minted : List Minted}

theorem mem_group {g : String × List (Minted × Nat)}
    (hg : g ∈ groups (fun e : Minted × Nat => e.1.segment.id) minted.zipIdx) (e : Minted × Nat) :
    e ∈ g.2 ↔ e ∈ minted.zipIdx ∧ e.1.segment.id = g.1 := by
  rw [((mem_groups _ _ g).1 hg).2, mem_filter, decide_eq_true_eq]

theorem group_of_mem {e : Minted × Nat} (he : e ∈ minted.zipIdx) :
    ∃ g ∈ groups (fun e : Minted × Nat => e.1.segment.id) minted.zipIdx, g.1 = e.1.segment.id :=
  ⟨(e.1.segment.id, minted.zipIdx.filter fun d => d.1.segment.id = e.1.segment.id),
    (mem_groups _ _ _).2 ⟨⟨e, he, rfl⟩, rfl⟩, rfl⟩

theorem eq_of_index {e e' : Minted × Nat} (he : e ∈ minted.zipIdx) (he' : e' ∈ minted.zipIdx)
    (h : e.2 = e'.2) : e = e' := by
  obtain ⟨m, i⟩ := e
  rw [mk_mem_zipIdx_iff_getElem?] at he he'
  subst h
  rw [he] at he'
  rw [Option.some.inj he']

section unique

variable (hsha : Function.Injective sha) (hok : MintedOk sha minted)

include hok

theorem MintedOk.of_mem {e : Minted × Nat} (he : e ∈ minted.zipIdx) :
    e.1.segment.id = mint sha e.1.canonical e.1.country ∧ e.1.canonical.Clean ∧
      '|' ∉ e.1.country.toList := by
  have hm := fst_mem_of_mem_zipIdx he
  exact ⟨hok.id _ hm, hok.clean _ hm, hok.country _ hm⟩

theorem MintedOk.disjoint_of_ne {e e' : Minted × Nat} (he : e ∈ minted.zipIdx)
    (he' : e' ∈ minted.zipIdx) (hne : e ≠ e') : e.1.segment.atomIds.Disjoint e'.1.segment.atomIds := by
  have hpair : minted.zipIdx.Pairwise fun e e' =>
      e.1.segment.atomIds.Disjoint e'.1.segment.atomIds := by
    have := hok.disjoint
    rw [← zipIdx_map_fst 0 minted, pairwise_map] at this
    exact this
  have : Std.Symm fun e e' : Minted × Nat => e.1.segment.atomIds.Disjoint e'.1.segment.atomIds :=
    ⟨fun _ _ h => h.symm⟩
  exact hpair.forall he he' hne

include hsha

theorem mem_remints {x : Nat × String} (hx : x ∈ remints sha minted) :
    ∃ g ∈ groups (fun e : Minted × Nat => e.1.segment.id) minted.zipIdx,
      x ∈ remintGroup sha (storedIds minted) g.1 g.2 ∧
      ∃ e ∈ minted.zipIdx, e.1.segment.id = g.1 ∧ x.1 = e.2 ∧
        ∃ n, x.2 = mintSpecific sha e.1.canonical e.1.country n := by
  obtain ⟨g, hg, hxg⟩ := List.mem_flatMap.1 hx
  have hclean : ∀ e ∈ g.2, e.1.canonical.Clean ∧ '|' ∉ e.1.country.toList := fun e he =>
    (hok.of_mem ((mem_group hg e).1 he).1).2
  obtain ⟨e, he, hi, hn⟩ := (remintGroup_spec hsha _ g.1 g.2 hclean).1 x hxg
  obtain ⟨hez, heg⟩ := (mem_group hg e).1 he
  exact ⟨g, hg, hxg, e, hez, heg, hi, hn⟩

theorem remints_inj {x y : Nat × String} (hx : x ∈ remints sha minted) (hy : y ∈ remints sha minted)
    (h : x.2 = y.2) : x.1 = y.1 := by
  obtain ⟨g, hg, hxg, e, he, heg, hi, n, hn⟩ := mem_remints hsha hok hx
  obtain ⟨g', hg', hyg, e', he', heg', hi', n', hn'⟩ := mem_remints hsha hok hy
  rw [hn, hn'] at h
  have hof := hok.of_mem he
  have hof' := hok.of_mem he'
  obtain ⟨hk, hc, -⟩ := mintSpecific_inj hsha hof.2.1 hof'.2.1 hof.2.2 hof'.2.2 h
  -- the same full key is of the same group
  have hbase : g.1 = g'.1 := by
    rw [← heg, ← heg', hof.1, hof'.1, hk, hc]
  have hgg : g = g' := by
    have h1 := ((mem_groups _ _ g).1 hg).2
    have h2 := ((mem_groups _ _ g').1 hg').2
    rw [hbase, ← h2] at h1
    exact Prod.ext hbase h1
  subst hgg
  have hclean : ∀ e ∈ g.2, e.1.canonical.Clean ∧ '|' ∉ e.1.country.toList := fun e he =>
    (hok.of_mem ((mem_group hg e).1 he).1).2
  have hnodup : ((remintGroup sha (storedIds minted) g.1 g.2).map Prod.snd).Nodup :=
    List.pairwise_map.2 (remintGroup_spec hsha (storedIds minted) g.1 g.2 hclean).2.1
  rw [inj_on_of_nodup_map hnodup hxg hyg (by rw [hn, hn', h])]

theorem kept_first_mint {e : Minted × Nat} (he : e ∈ minted.zipIdx)
    (hkeep : (remints sha minted).lookup e.2 = none) :
    pseudoId e.1.segment.id ∈ e.1.segment.atomIds ∨
      ∀ e' ∈ minted.zipIdx, e'.1.segment.id = e.1.segment.id → e' = e := by
  obtain ⟨g, hg, hge⟩ := group_of_mem he
  have hclean : ∀ e ∈ g.2, e.1.canonical.Clean ∧ '|' ∉ e.1.country.toList := fun e he =>
    (hok.of_mem ((mem_group hg e).1 he).1).2
  have hin : e ∈ g.2 := (mem_group hg e).2 ⟨he, hge.symm⟩
  by_cases h2 : 2 ≤ g.2.length
  · by_contra hcon
    rw [not_or] at hcon
    obtain ⟨x, hx, hxi⟩ := (remintGroup_spec hsha (storedIds minted) g.1 g.2 hclean).2.2 h2 e hin
      (by rw [hge]; exact hcon.1)
    rw [lookup_eq_none_iff] at hkeep
    have := hkeep x (List.mem_flatMap.2 ⟨g, hg, hx⟩)
    simp [hxi] at this
  · right
    intro e' he' hid
    have hin' : e' ∈ g.2 := (mem_group hg e').2 ⟨he', hid.trans hge.symm⟩
    match hl : g.2 with
    | [] => rw [hl] at hin; cases hin
    | [a] =>
      rw [hl, mem_singleton] at hin hin'
      rw [hin, hin']
    | a :: b :: rest => rw [hl] at h2; simp at h2

theorem uniqueIds_nodup : ((uniqueIds sha minted).map Segment.id).Nodup := by
  unfold uniqueIds
  rw [map_map]
  have hnodup : minted.zipIdx.Nodup := List.Nodup.of_map Prod.snd (by
    rw [zipIdx_map_snd]
    exact nodup_range')
  refine List.Nodup.map_on (fun e he e' he' heq => ?_) hnodup
  dsimp only [Function.comp] at heq
  -- a second mint of one against the first mint of another
  have hmixed : ∀ d d' : Minted × Nat, d ∈ minted.zipIdx → ∀ x,
      (remints sha minted).lookup d'.2 = some x → d.1.segment.id ≠ x := by
    intro d d' hd x hx hdx
    obtain ⟨l₁, l₂, hl, -⟩ := List.lookup_eq_some_iff.1 hx
    obtain ⟨-, -, -, a, ha, -, -, n, hn⟩ := mem_remints hsha hok (x := (d'.2, x)) (by rw [hl]; simp)
    rw [(hok.of_mem hd).1] at hdx
    have hoa := hok.of_mem ha
    exact mint_ne_mintSpecific hsha (hok.of_mem hd).2.1 hoa.2.1 (hok.of_mem hd).2.2 hoa.2.2
      (hdx.trans hn)
  cases hl : (remints sha minted).lookup e.2 with
  | some x =>
    cases hl' : (remints sha minted).lookup e'.2 with
    | some x' =>
      rw [hl, hl', Option.getD_some, Option.getD_some] at heq
      obtain ⟨l₁, l₂, h1, -⟩ := List.lookup_eq_some_iff.1 hl
      obtain ⟨l₁', l₂', h1', -⟩ := List.lookup_eq_some_iff.1 hl'
      refine eq_of_index he he' ?_
      exact remints_inj hsha hok (x := (e.2, x)) (y := (e'.2, x')) (by rw [h1]; simp)
        (by rw [h1']; simp) heq
    | none =>
      rw [hl, hl', Option.getD_some, Option.getD_none] at heq
      exact absurd heq.symm (hmixed e' e he' x hl)
  | none =>
    cases hl' : (remints sha minted).lookup e'.2 with
    | some x' =>
      rw [hl, hl', Option.getD_some, Option.getD_none] at heq
      exact absurd heq (hmixed e e' he x' hl')
    | none =>
      rw [hl, hl', Option.getD_none, Option.getD_none] at heq
      rcases kept_first_mint hsha hok he hl with hown | hone
      · rcases kept_first_mint hsha hok he' hl' with hown' | hone'
        · -- both would hold the pseudo atom of the id
          by_contra hne
          rw [← heq] at hown'
          exact hok.disjoint_of_ne he he' hne hown hown'
        · exact hone' e he heq
      · exact (hone e' he' heq.symm).symm

end unique

/-! ## Digests by table -/

/-- A digest with known values; every other text is its own digest, marked. -/
def tableDigest (known : List (String × String)) (s : String) : String :=
  (known.lookup s).getD ("#" ++ s)

theorem tableDigest_injective {known : List (String × String)}
    (hdistinct : (known.map Prod.snd).Nodup)
    (hmarked : ∀ e ∈ known, e.2.toList.head? ≠ some '#') :
    Function.Injective (tableDigest known) := by
  have hmem : ∀ s x, known.lookup s = some x → (s, x) ∈ known := by
    intro s x h
    obtain ⟨l₁, l₂, rfl, -⟩ := List.lookup_eq_some_iff.1 h
    simp
  have hmark : ∀ s, ("#" ++ s).toList.head? = some '#' := fun s => by
    rw [String.toList_append]
    rfl
  intro s s' h
  unfold tableDigest at h
  cases hs : known.lookup s with
  | none =>
    cases hs' : known.lookup s' with
    | none =>
      rw [hs, hs'] at h
      have := congrArg String.toList h
      simp only [Option.getD_none, String.toList_append] at this
      exact String.toList_inj.1 (append_cancel_left this)
    | some y =>
      rw [hs, hs'] at h
      refine absurd ?_ (hmarked _ (hmem s' y hs'))
      rw [← show "#" ++ s = y from h]
      exact hmark s
  | some x =>
    cases hs' : known.lookup s' with
    | none =>
      rw [hs, hs'] at h
      refine absurd ?_ (hmarked _ (hmem s x hs))
      rw [show x = "#" ++ s' from h]
      exact hmark s'
    | some y =>
      rw [hs, hs'] at h
      have heq := inj_on_of_nodup_map hdistinct (hmem s x hs) (hmem s' y hs') h
      exact (Prod.mk.inj heq).1

end CisApp.Segments
