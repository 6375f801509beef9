import CisApp.Lib.Text

/-! Citation tags and headings.

The tags of `services/acp_shared/citation_tags.py` and `clean_heading`.  The character classes of
`re` that follow the Unicode tables (`\w`, `\d`) are a parameter, `CharClasses`. -/

namespace CisApp.Repair

open Lib

/-- `\w` and `\d` of `re` on text. -/
structure CharClasses where
  word : Char → Bool
  digit : Char → Bool

/-! ## Citation tags -/

def plainTagChar (c : Char) : Bool := !(c == '[' || c == ']' || c == '\n')

/-- `_TAG_FULL_RE`: `[R:…]` or `[F:…]` with a body of plain characters. -/
def isTag : Text → Bool
  | '[' :: k :: ':' :: body =>
    (k == 'R' || k == 'F') &&
      match body.reverse with
      | ']' :: ids => !ids.isEmpty && ids.all plainTagChar
      | _ => false
  | _ => false

/-- What follows a tag's `[R:`: up to its bracket, or (a dangling opener) past the id characters. -/
def afterTagBody (u : CharClasses) (s : Text) : Text :=
  match s.dropWhile plainTagChar with
  | ']' :: rest => rest
  | _ => s.dropWhile fun c => u.word c || c == '-'

/-- What `_STRIP_RE` leaves to the right of a match that starts here. -/
def afterTag (u : CharClasses) : Text → Option Text
  | '[' :: k :: ':' :: s => if k == 'R' || k == 'F' then some (afterTagBody u s) else none
  | c :: '[' :: k :: ':' :: s =>
    if isSpace c && (k == 'R' || k == 'F') then some (afterTagBody u s) else none
  | _ => none

/-- `_STRIP_RE.sub(repl, s)`; a match is at least three characters long. -/
def stripTagsFrom (u : CharClasses) (repl : Text) : Nat → Text → Text
  | 0, s => s
  | _, [] => []
  | fuel + 1, c :: s =>
    match afterTag u (c :: s) with
    | some rest => repl ++ stripTagsFrom u repl fuel rest
    | none => c :: stripTagsFrom u repl fuel s

def stripCitationTags (u : CharClasses) (repl s : Text) : Text := stripTagsFrom u repl s.length s

/-- Where the tag that ends at `i` starts. -/
def tagBefore (text : Text) (i : Nat) : Option Nat :=
  if slice text (i - 1) i = [']'] then
    (rfind '[' (text.take (i - 1))).filter fun lb => isTag (slice text lb i)
  else none

/-- The loop of `trailing_tags`: one tag a round, with the space before it. -/
def tagsFrom (text : Text) : Nat → Nat → Option Nat → Option Nat
  | 0, _, start => start
  | fuel + 1, i, start =>
    match tagBefore text i with
    | none => start
    | some lb =>
      let j := if (slice text (lb - 1) lb).any isSpace then lb - 1 else lb
      tagsFrom text fuel j (some j)

/-- The run of citation tags, and the space after it, that ends a text (`trailing_tags`). -/
def trailingTags (text : Text) : Text :=
  let i := (rstrip text).length
  match tagsFrom text i i none with
  | none => []
  | some start => text.drop start

/-! ## Headings -/

def headingMaxChars : Nat := 90

/-- Characters `clean_heading` takes off both ends. -/
def headingWrap : Text := "*\"'“”‘’ ".toList

/-- Characters `clean_heading` takes off the end (`_HEADING_END_MARKS` and the blank). -/
def headingEnd : Text := ".!;:,… ".toList

/-- `re.sub(r"^#{1,6}\s*", "", s)`. -/
def dropHeadingMark (s : Text) : Text :=
  let marks := (s.takeWhile (· == '#')).length
  if marks = 0 then s else (s.drop (min marks 6)).dropWhile isSpace

/-- `re.search(r"[^\W\d_]{3,}", s)`. -/
def hasWord (u : CharClasses) (s : Text) : Bool :=
  s.tails.any fun t =>
    decide (3 ≤ (t.takeWhile fun c => u.word c && !u.digit c && !(c == '_')).length)

/-- A repair reply as heading text; nothing when no heading is left of it. -/
def cleanHeading (u : CharClasses) (reply : Text) : Text :=
  let s := dropHeadingMark (oneLine (stripCitationTags u [' '] reply))
  let s := strip (rstripOf (headingEnd.contains ·) (stripOf (headingWrap.contains ·) (strip s)))
  if !hasWord u s || decide (headingMaxChars < s.length) then [] else s

end CisApp.Repair
