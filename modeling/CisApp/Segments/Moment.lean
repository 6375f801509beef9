import CisApp.Lib.Sorted
import Mathlib

/-!
# The moment an atom describes

The rules of `services/acp_contract/segment_matching.py` on the text of one atom
or two: `key` reduces place and action to words, `looksLikeOneMoment` compares two
keys, `mayJoin` adds the country and the pairs of places known to be apart, and
`formsSegment` leaves out transit and unnamed places by the word lists of
`ranking_reference.py`.

What Python knows of Unicode (lower case, upper case, white space) is the
parameter `Text`; words are runs of `[a-z0-9]` of the lower-cased text.
-/

namespace CisApp.Segments

open Lib

/-! ## Words -/

/-- `str.lower`, `str.isspace` and `str.isupper` of a character. -/
structure Text where
  lower : String → String
  isSpace : Char → Bool
  isUpper : Char → Bool
  lower_ne : ∀ s, s ≠ "" → lower s ≠ ""

/-- What Python does on ASCII text. -/
def Text.ascii : Text where
  lower s := String.ofList (s.toList.map Char.toLower)
  isSpace := Char.isWhitespace
  isUpper := Char.isUpper
  lower_ne s hs h := by
    rw [← String.toList_inj, String.toList_ofList] at h
    exact hs (String.toList_inj.1 (List.map_eq_nil_iff.1 h))

/-- `sep.join(parts)`. -/
def joinWith (sep : Char) (parts : List String) : String :=
  String.ofList (List.intercalate [sep] (parts.map String.toList))

/-- The runs of characters outside `sep`, without the empty ones. -/
def splitWords (sep : Char → Bool) (s : String) : List String :=
  ((s.toList.splitOnP sep).filter (· ≠ [])).map String.ofList

def wordChar (c : Char) : Bool := c.isLower || c.isDigit

def wordSet (words : List String) : List String := sortBy id words.dedup

variable (T : Text)

/-- `re.findall(r"[a-z0-9]+", s.lower())`. -/
def Text.words (s : String) : List String := splitWords (fun c => !wordChar c) (T.lower s)

/-- `s.split()`. -/
def Text.split (s : String) : List String := splitWords T.isSpace s

/-- `s.strip()`. -/
def Text.strip (s : String) : String :=
  String.ofList (((s.toList.dropWhile T.isSpace).reverse.dropWhile T.isSpace).reverse)

/-- `(country or "").strip().lower()`. -/
def Text.countryNorm (country : String) : String := T.lower (T.strip country)

def Text.placeNorm (place : String) : String := joinWith ' ' (T.words place)

def Text.placePair (left right : String) : Finset String := {T.placeNorm left, T.placeNorm right}

/-! ## Keys -/

def actionSynonymClasses : List (String × List String) :=
  [("eat", ["eat", "have", "dine", "taste", "sample"]),
    ("walk", ["walk", "hike", "stroll", "cross", "ramble", "trek"]),
    ("view", ["view", "observe", "watch", "see"]),
    ("bathe", ["bathe", "soak"])]

def reachedByOpeners : List String := ["descend", "ascend", "climb", "continue", "proceed"]

def reachedByConnectors : List (List String) := [["to", "and"], ["and", "then"], ["and"]]

def connectors : List String :=
  ["a", "an", "and", "at", "between", "by", "for", "from", "in", "into", "of", "on", "over", "the",
    "through", "to", "via", "with"]

/-- What an atom says, reduced to what grouping compares; `place` and `about` are sets,
as sorted lists. -/
structure Key where
  place : List String
  verb : String
  said : String
  about : List String
deriving Repr, DecidableEq

/-- The first of `ing`, `ed` and `s` that leaves three letters or more is dropped. -/
def stem (word : String) : String :=
  let w := word.toList
  match [['i', 'n', 'g'], ['e', 'd'], ['s']].find? fun suffix =>
      suffix.length + 2 < w.length && suffix.isSuffixOf w with
  | some suffix => String.ofList (w.take (w.length - suffix.length))
  | none => word

/-- What is left of an action once it stops saying how you got there. -/
def pastTheApproach (words : List String) : List String :=
  match words with
  | [] => []
  | w :: rest =>
    if w ∉ reachedByOpeners then words
    else
      match reachedByConnectors.find? fun joined =>
          rest.take joined.length = joined && joined.length + 1 < words.length with
      | some joined => words.drop (joined.length + 1)
      | none => words

/-- `_synonyms().get(verb, verb)`; both sides of the table are stemmed. -/
def inItsOwnWords (verb : String) : String :=
  let table := actionSynonymClasses.flatMap fun e => e.2.map fun v => (stem v, stem e.1)
  (table.lookup verb).getD verb

def Text.placeTokens (place : String) : List String :=
  let words := T.words place
  let kept := words.filter (· ∉ connectors)
  wordSet (if kept.isEmpty then words else kept)

def Text.leadingVerb (action : String) : String :=
  match pastTheApproach (T.words action) with
  | [] => ""
  | w :: _ => inItsOwnWords (stem w)

def Text.key (place action : String) : Key :=
  let rest := pastTheApproach (T.words action)
  { place := T.placeTokens place
    verb := T.leadingVerb action
    said := (rest.head?.map stem).getD ""
    about := wordSet ((rest.tail.filter (· ∉ connectors)).map stem) }

/-! ## One moment -/

def aboutTheSameThing (left right : Key) : Bool :=
  left.said = right.said || (left.about.isEmpty && right.about.isEmpty) ||
    left.about.any (· ∈ right.about)

/-- The same verb about the same thing, and one place within the other or half of the words
of both shared (`SIMILARITY = 0.5`). -/
def looksLikeOneMoment (left right : Key) : Bool :=
  if left.verb ≠ right.verb || left.verb = "" then false
  else if !aboutTheSameThing left right then false
  else if left.place.isEmpty || right.place.isEmpty then false
  else
    let shared := left.place.filter (· ∈ right.place)
    shared.length = left.place.length || shared.length = right.place.length ||
      left.place.length + right.place.length - shared.length ≤ 2 * shared.length

/-- One row of `tour_atoms` as the grouping sees it; a country of `""` is unknown. -/
structure SegmentAtom where
  atomId : String
  tourId : String
  day : Option Int
  place : String
  action : String
  country : String := ""
  activityType : Option String := none
deriving Repr, DecidableEq

def SegmentAtom.key (a : SegmentAtom) : Key := T.key a.place a.action

/-- Two known countries, or a pair of places said to be apart, keep two atoms apart. -/
def mayJoin (apart : Finset (Finset String)) (left right : SegmentAtom) : Bool :=
  if left.country ≠ "" && right.country ≠ "" && left.country ≠ right.country then false
  else T.placePair left.place right.place ∉ apart

/-! ## What forms a Segment -/

def transitOpeners : List String :=
  ["arrive", "assemble", "board", "catch", "connect", "continue by", "cross by", "depart",
    "disembark", "drive", "fly", "meet", "return", "ride the", "take the", "transfer", "travel"]

def frameOpeners : List String :=
  ["attend", "begin the tour", "conclude", "end the tour", "gather for", "orientation",
    "have breakfast", "have dinner", "free time", "have lunch", "leave luggage", "receive",
    "settle in", "spend free time", "spend leisure", "visit for orientation", "assist", "consult",
    "introduce", "undergo"]

def lodgingOpeners : List String :=
  ["check in", "check out", "check into", "overnight", "sleep", "spend the night", "stay"]

def lodgingFiller : List String :=
  ["a", "access", "accommodation", "airport", "an", "and", "another", "at", "close", "extra",
    "final", "first", "for", "further", "here", "hotel", "hotels", "in", "last", "lodging",
    "lodgings", "more", "night", "nights", "on", "one", "or", "overnight", "rest", "second",
    "stay", "style", "the", "third", "this", "three", "to", "transfer", "two", "up", "western",
    "with"]

def leisureOpeners : List String :=
  ["explore", "spend the afternoon", "spend the day", "spend the evening", "spend the morning",
    "relax", "rest", "spend time", "wander"]

def leisureFiller : List String :=
  ["a", "an", "and", "around", "at", "before", "briefly", "day", "departure", "evening", "for",
    "freely", "further", "here", "in", "independently", "dining", "exploration", "exploring",
    "leisure", "more", "morning", "on", "or", "own", "pace", "quietly", "shopping",
    "sightseeing", "the", "there", "time", "to", "until", "up", "wandering", "your"]

def mealOpeners : List String := ["dine", "eat", "have"]

def mealFiller : List String :=
  ["a", "an", "and", "at", "before", "breakfast", "brunch", "dinner", "farewell", "final",
    "first", "for", "group", "guide", "here", "in", "last", "lunch", "meal", "of", "on", "own",
    "supper", "the", "to", "together", "tonight", "welcome", "with", "your"]

def placeKindNouns : List String :=
  ["airport", "area", "bar", "beach", "bridge", "cafe", "castle", "center", "centre", "city",
    "coast", "district", "falls", "ferry", "forest", "garden", "gardens", "gorge", "guesthouse",
    "hall", "harbour", "hostel", "hotel", "hotels", "house", "inn", "island", "japan",
    "japanese", "lake", "lodge", "lodging", "market", "minshuku", "mount", "mountain",
    "mountains", "museum", "onsen", "park", "pass", "path", "peninsula", "port", "quarter",
    "region", "restaurant", "river", "ryokan", "san", "shrine", "shrines", "shukubo", "station",
    "street", "temple", "temples", "town", "trail", "valley", "village", "waterfall", "cho",
    "dera", "gawa", "gu", "ji", "jinja", "jingu", "kawa", "ko", "koen", "ku", "machi", "misaki",
    "saki", "taisha", "yama", "zan"] ++
  ["annual", "daily", "friday", "monday", "monthly", "saturday", "sunday", "thursday", "tuesday",
    "wednesday", "weekend", "weekly", "yearly"]

/-- The words of `tidied` after the opener. -/
def afterOpener (tidied opener : String) : List String :=
  splitWords (· = ' ') (String.ofList (tidied.toList.drop opener.length))

def opensWith (tidied opener : String) : Bool :=
  tidied = opener || (opener.toList ++ [' ']).isPrefixOf tidied.toList

def namesSomething (tidied opener : String) : Bool :=
  let rest := afterOpener tidied opener
  rest.isEmpty || rest.any (· ∉ leisureFiller)

def namesFood (tidied opener : String) : Bool :=
  let rest := afterOpener tidied opener
  rest.isEmpty || rest.any (· ∉ mealFiller)

def namesABed (tidied opener : String) : Bool :=
  (afterOpener tidied opener).any (· ∉ lodgingFiller)

/-- The listed opener that made this action transit. -/
def Text.transitOpener (action : String) : Option String :=
  let tidied := joinWith ' ' (T.words action)
  ((transitOpeners ++ frameOpeners).find? (opensWith tidied)).or <|
    (lodgingOpeners.find? fun o => opensWith tidied o && !namesABed tidied o).or <|
    (leisureOpeners.find? fun o => opensWith tidied o && !namesSomething tidied o).or <|
    mealOpeners.find? fun o => opensWith tidied o && !namesFood tidied o

/-- `word.strip(",.'’")`. -/
def stripMarks (word : String) : String :=
  let mark : Char → Bool := (· ∈ [',', '.', Char.ofNat 39, '’'])
  String.ofList (((word.toList.dropWhile mark).reverse.dropWhile mark).reverse)

def Text.namesSomewhere (place : String) : Bool :=
  (T.split place).any fun word =>
    (word.toList.head?.map T.isUpper).getD false && T.lower (stripMarks word) ∉ placeKindNouns

inductive Exclusion where
  | transit
  | unnamedPlace
deriving Repr, DecidableEq

def Text.classifyExclusion (place action : String) : Option Exclusion :=
  if (T.transitOpener action).isSome then some .transit
  else if !T.namesSomewhere place then some .unnamedPlace
  else none

/-- Most of the typed atoms are `transit`. -/
def atomsSayTransit (types : List (Option String)) : Bool :=
  let typed := types.filterMap fun t => t.filter (· ≠ "")
  !typed.isEmpty && typed.length < typed.count "transit" * 2

/-- What the rule and the types of the atoms decide together: a moment that the rule calls
transit stays when a type was given and most of the types say otherwise. -/
def Text.formsMoment (place action : String) (types : List (Option String)) : Bool :=
  match T.classifyExclusion place action with
  | some .unnamedPlace => false
  | some .transit => types.any (fun t => (t.filter (· ≠ "")).isSome) && !atomsSayTransit types
  | none => true

def formsSegment (a : SegmentAtom) : Bool := T.formsMoment a.place a.action [a.activityType]

end CisApp.Segments
