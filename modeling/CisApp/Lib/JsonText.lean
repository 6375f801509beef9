import CisApp.Lib.Json

/-! Where the strings of a JSON document stand in its text.

A string value is written between quotes with its characters escaped one by one, so the quoted
string is a part of the text of every document that holds the value (`Json.Holds.quote_infix`), and
a document without an `@` in its strings has none in its text (`Json.plain.at_notMem`). -/

namespace CisApp

open List

/-- The string `s` is a value somewhere in the document. -/
inductive Json.Holds (s : String) : Json → Prop where
  | here : Json.Holds s (.str s)
  | inArr {x : Json} {xs : List Json} (hmem : x ∈ xs) (h : Json.Holds s x) : Json.Holds s (.arr xs)
  | inObj {k : String} {v : Json} {kvs : List (String × Json)} (hmem : (k, v) ∈ kvs)
    (h : Json.Holds s v) : Json.Holds s (.obj kvs)

/-- The characters of a string as they are written between the quotes. -/
def escaped (s : List Char) : List Char := s.flatMap fun c => (escapeChar c).toList

theorem quote_toList (s : String) : (quote s).toList = '"' :: (escaped s.toList ++ ['"']) := by
  simp [quote, escaped, String.toList_append, String.toList_join, flatMap_map]

@[simp] theorem escaped_append (s t : List Char) : escaped (s ++ t) = escaped s ++ escaped t :=
  flatMap_append

theorem infix_intercalate (sep : List Char) {w : List Char} {l : List (List Char)} (h : w ∈ l) :
    w <:+: List.intercalate sep l := by
  induction l with
  | nil => cases h
  | cons v l ih =>
    cases l with
    | nil =>
      rw [mem_singleton] at h
      subst h
      simp [List.intercalate]
    | cons u l =>
      rw [intercalate_cons_cons]
      rcases mem_cons.1 h with rfl | h
      · rw [append_assoc]
        exact (prefix_append _ _).isInfix
      · exact (ih h).trans (suffix_append _ _).isInfix

theorem mem_renderAll {x : Json} {xs : List Json} (h : x ∈ xs) : x.render ∈ renderAll xs := by
  induction xs with
  | nil => cases h
  | cons y xs ih =>
    rcases mem_cons.1 h with rfl | h
    · exact mem_cons_self
    · exact mem_cons_of_mem _ (ih h)

theorem mem_renderPairs {k : String} {v : Json} {kvs : List (String × Json)} (h : (k, v) ∈ kvs) :
    (quote k ++ ": " ++ v.render) ∈ renderPairs kvs := by
  induction kvs with
  | nil => cases h
  | cons y kvs ih =>
    rcases mem_cons.1 h with heq | h
    · cases heq
      exact mem_cons_self
    · exact mem_cons_of_mem _ (ih h)

theorem Json.Holds.quote_infix {s : String} {j : Json} (h : j.Holds s) : (quote s).toList <:+: j.render.toList := by
  induction h with
  | here => rw [Json.render]
  | inArr hmem _ ih =>
    have hin := ih.trans
      (infix_intercalate ", ".toList (mem_map_of_mem (f := String.toList) (mem_renderAll hmem)))
    rw [Json.render, String.toList_append, String.toList_append, String.toList_intercalate]
    exact hin.trans ⟨_, _, rfl⟩
  | inObj hmem _ ih =>
    have hin := infix_intercalate ", ".toList
      (mem_map_of_mem (f := String.toList) (mem_renderPairs hmem))
    rw [String.toList_append] at hin
    rw [Json.render, String.toList_append, String.toList_append, String.toList_intercalate]
    exact ((ih.trans (suffix_append _ _).isInfix).trans hin).trans ⟨_, _, rfl⟩

/-! ## Documents without an `@` -/

mutual
/-- No `@` in any string of the document, and its numbers are integers. -/
def Json.plain : Json → Bool
  | .null => true
  | .bool _ => true
  | .num _ scale => scale == 0
  | .str s => !s.toList.contains '@'
  | .arr xs => plainAll xs
  | .obj kvs => plainPairs kvs

def plainAll : List Json → Bool
  | [] => true
  | x :: xs => x.plain && plainAll xs

def plainPairs : List (String × Json) → Bool
  | [] => true
  | (k, v) :: kvs => !k.toList.contains '@' && v.plain && plainPairs kvs
end

theorem plainPairs_iff {kvs : List (String × Json)} :
    plainPairs kvs = true ↔ ∀ x ∈ kvs, '@' ∉ x.1.toList ∧ x.2.plain = true := by
  induction kvs with
  | nil => simp [plainPairs]
  | cons x kvs ih =>
    rw [plainPairs, Bool.and_eq_true, Bool.and_eq_true, ih, forall_mem_cons]
    simp

theorem plainAll_iff {xs : List Json} : plainAll xs = true ↔ ∀ x ∈ xs, x.plain = true := by
  induction xs with
  | nil => simp [plainAll]
  | cons x xs ih => rw [plainAll, Bool.and_eq_true, ih, forall_mem_cons]

theorem plainPairs_merge {a b : JObj} (ha : plainPairs a = true) (hb : plainPairs b = true) :
    plainPairs (a.merge b) = true := by
  rw [plainPairs_iff] at *
  intro x hx
  rcases mem_append.1 hx with hx | hx
  · exact hb x hx
  · exact ha x (mem_filter.1 hx).1

theorem plainPairs_erase {a : JObj} (k : String) (ha : plainPairs a = true) : plainPairs (a.erase k) = true := by
  rw [plainPairs_iff] at *
  intro x hx
  exact ha x (mem_filter.1 hx).1

theorem at_notMem_escapeChar {c : Char} (h : c ≠ '@') : '@' ∉ (escapeChar c).toList := by
  have hdigit : ∀ n, n < 16 → Nat.digitChar n ≠ '@' := by decide
  unfold escapeChar
  split_ifs with h1 h2 h3 h4 h5 h6 h7
  · simpa using h.symm
  · decide
  · decide
  · decide
  · decide
  · decide
  · have hq : c.toNat / 16 < 16 := by omega
    have hr : c.toNat % 16 < 16 := by omega
    simp [(hdigit _ hq).symm, (hdigit _ hr).symm]
  · simpa using h.symm

theorem at_notMem_quote {s : String} (h : '@' ∉ s.toList) : '@' ∉ (quote s).toList := by
  rw [quote_toList]
  simp only [escaped, mem_cons, mem_append, mem_flatMap, not_mem_nil, or_false, not_or, not_exists, not_and]
  refine ⟨by decide, fun c hc => at_notMem_escapeChar ?_, by decide⟩
  rintro rfl
  exact h hc

theorem at_notMem_toString (m : Int) : '@' ∉ (toString m).toList := by
  have hnat : ∀ n : Nat, '@' ∉ n.repr.toList := by
    intro n h
    have := Nat.isDigit_of_mem_toDigits (b := 10) (by decide) (by decide)
      (show '@' ∈ Nat.toDigits 10 n by simpa [Nat.repr] using h)
    simp at this
  cases m with
  | ofNat n => exact hnat n
  | negSucc n =>
    show '@' ∉ ("-" ++ (n + 1).repr).toList
    simpa [String.toList_append] using hnat (n + 1)

theorem notMem_intercalate {c : Char} {sep : List Char} {l : List (List Char)} (hsep : c ∉ sep)
    (h : ∀ w ∈ l, c ∉ w) : c ∉ List.intercalate sep l := by
  induction l with
  | nil => simp [List.intercalate]
  | cons v l ih =>
    cases l with
    | nil =>
      have := h v (by simp)
      simpa [List.intercalate] using this
    | cons u l =>
      have h1 := h v (by simp)
      have h2 := ih fun w hw => h w (mem_cons_of_mem _ hw)
      simp [h1, hsep, h2]

mutual
theorem Json.plain.at_notMem : ∀ {j : Json}, j.plain = true → '@' ∉ j.render.toList
  | .null, _ => by decide
  | .bool true, _ => by decide
  | .bool false, _ => by decide
  | .num m scale, h => by
    rw [Json.plain, beq_iff_eq] at h
    rw [Json.render, decimalText, if_pos h]
    exact at_notMem_toString m
  | .str s, h => by
    rw [Json.render]
    exact at_notMem_quote (by simpa [Json.plain] using h)
  | .arr xs, h => by
    rw [Json.render, String.toList_append, String.toList_append, String.toList_intercalate]
    have hin := notMem_intercalate (show '@' ∉ ", ".toList by decide) (plainAll_notMem h)
    simp only [mem_append, not_or]
    exact ⟨⟨by decide, hin⟩, by decide⟩
  | .obj kvs, h => by
    rw [Json.render, String.toList_append, String.toList_append, String.toList_intercalate]
    have hin := notMem_intercalate (show '@' ∉ ", ".toList by decide) (plainPairs_notMem h)
    simp only [mem_append, not_or]
    exact ⟨⟨by decide, hin⟩, by decide⟩

theorem plainAll_notMem : ∀ {xs : List Json}, plainAll xs = true →
    ∀ w ∈ (renderAll xs).map String.toList, '@' ∉ w
  | [], _ => by simp [renderAll]
  | x :: xs, h => by
    rw [plainAll, Bool.and_eq_true] at h
    rw [renderAll, List.map_cons, List.forall_mem_cons]
    exact ⟨Json.plain.at_notMem h.1, plainAll_notMem h.2⟩

theorem plainPairs_notMem : ∀ {kvs : List (String × Json)}, plainPairs kvs = true →
    ∀ w ∈ (renderPairs kvs).map String.toList, '@' ∉ w
  | [], _ => by simp [renderPairs]
  | (k, v) :: kvs, h => by
    rw [plainPairs, Bool.and_eq_true, Bool.and_eq_true] at h
    rw [renderPairs, List.map_cons, List.forall_mem_cons]
    have hk := at_notMem_quote (s := k) (by simpa using h.1.1)
    have hv := Json.plain.at_notMem h.1.2
    exact ⟨by simp [String.toList_append, hk, hv], plainPairs_notMem h.2⟩
end

end CisApp
