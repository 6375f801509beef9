import CisApp.Lib.Text

/-! Searching a text for literal phrases with word boundaries: the part of `re` that an alternation of literals
needs.

`\w` and the case folding of `re.IGNORECASE` are tables of Unicode; an `Alphabet` holds them. -/

namespace CisApp.Lib

structure Alphabet where
  /-- `\w`. -/
  word : Char → Bool
  /-- Two characters are equal under `re.IGNORECASE` when these are. -/
  fold : Char → Char

/-- A literal, with `\b` before it (`opens`) or after it (`closes`). -/
structure Phrase where
  text : Text
  opens : Bool
  closes : Bool

/-- `\b` between two characters, where there are such. -/
def Alphabet.boundary (abc : Alphabet) (before after : Option Char) : Bool := before.any abc.word != after.any abc.word

/-- The phrase stands at the front of `rest`. -/
def Phrase.at? (abc : Alphabet) (same : Char → Char → Bool) (p : Phrase) (before : Option Char) (rest : Text) : Bool :=
  p.text.length ≤ rest.length && (p.text.zip rest).all (fun x => same x.1 x.2) &&
    (!p.opens || abc.boundary before rest.head?) &&
    (!p.closes || abc.boundary (if p.text.isEmpty then before else (rest.take p.text.length).getLast?)
      (rest.drop p.text.length).head?)

/-- The first match of `here`, which sees the character before a place and the text from there on. -/
def searchFrom {α : Type} (here : Option Char → Text → Option α) : Option Char → Text → Option α
  | before, [] => here before []
  | before, c :: rest =>
    match here before (c :: rest) with
    | some a => some a
    | none => searchFrom here (some c) rest

/-- `re.search`. -/
def search {α : Type} (here : Option Char → Text → Option α) (text : Text) : Option α := searchFrom here none text

/-- `re.compile("…|…").search(text) is not None`. -/
def Alphabet.finds (abc : Alphabet) (same : Char → Char → Bool) (phrases : List Phrase) (text : Text) : Bool :=
  (search (fun before rest => if phrases.any (fun p => p.at? abc same before rest) then some () else none)
    text).isSome

def Alphabet.ignoreCase (abc : Alphabet) (c d : Char) : Bool := abc.fold c = abc.fold d

/-- `\w` on the ASCII characters. -/
def Alphabet.Ascii (abc : Alphabet) : Prop := ∀ c : Char, c.toNat < 128 → abc.word c = (c.isAlphanum || c == '_')

theorem Phrase.at?_append {abc : Alphabet} {same : Char → Char → Bool} (hsame : ∀ c, same c c = true) (p : Phrase)
    (hp : p.text ≠ []) (before : Option Char) (rest : Text) : p.at? abc same before (p.text ++ rest) =
      ((!p.opens || abc.boundary before p.text.head?) && (!p.closes || abc.boundary p.text.getLast? rest.head?)) := by
  have hzip : (p.text.zip (p.text ++ rest)).all (fun x => same x.1 x.2) = true := by
    induction p.text with
    | nil => rfl
    | cons c cs ih => simp [hsame, ih]
  have hhead : (p.text ++ rest).head? = p.text.head? := by
    cases htext : p.text with
    | nil => exact absurd htext hp
    | cons c cs => rfl
  have hempty : p.text.isEmpty = false := by simpa using hp
  unfold Phrase.at?
  rw [hzip, hhead, hempty, List.take_left, List.drop_left]
  simp

theorem search_isSome {α : Type} {here : Option Char → Text → Option α} {text : Text}
    (h : (here none text).isSome = true) : (search here text).isSome = true := by
  obtain ⟨a, ha⟩ := Option.isSome_iff_exists.1 h
  cases text with
  | nil => simp [search, searchFrom, ha]
  | cons c rest => simp [search, searchFrom, ha]

theorem Alphabet.finds_of_front {abc : Alphabet} {same : Char → Char → Bool} {phrases : List Phrase} {p : Phrase}
    {text : Text} (hp : p ∈ phrases) (h : p.at? abc same none text = true) : abc.finds same phrases text = true := by
  apply search_isSome
  rw [if_pos (List.any_eq_true.2 ⟨p, hp, h⟩)]
  rfl

end CisApp.Lib
