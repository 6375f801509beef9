import CisApp.Hygiene.Sentences

/-! The configured call to action.

`ensure_cta` of `services/acp_content_writing/hygiene.py` restores the configured line: it replaces a closing sentence that
invites the reader in other words, or puts the line in as a paragraph of its own.  Whether the line is there is read off its
words (`cta_norm`), so that a line without one is put in again by every call. -/

namespace CisApp.Hygiene

open Lib Repair

/-! ## Words -/

/-- One character of `fold(text).replace("&", " and ")`. -/
def letters (T : Tables) (c : Char) : Text := (T.fold c).flatMap fun d => if d = '&' then " and ".toList else [d]

def wordsOf (T : Tables) (s : Text) : List Text := runs isKey (s.flatMap (letters T))

/-- `re.findall("[a-z0-9]+", …)` in `cta_norm`. -/
def ctaWords (T : Tables) (s : Text) : List Text := wordsOf T (stripTags T.toCharClasses s)

def ctaNorm (T : Tables) (s : Text) : Text := List.intercalate [' '] (ctaWords T s)

/-- `_FAQ_HEADING_RE`, on a line: one to six `#`, then `faq` in any case and the end of a word. -/
def isFaqHeading (T : Tables) (l : Text) : Bool :=
  let level := (l.takeWhile (· == '#')).length
  let rest := (l.drop level).dropWhile fun c => c == ' ' || c == '\t'
  0 < level && level ≤ 6 && (rest.take 3).map Char.toLower == "faq".toList && !(rest.drop 3).head?.any T.word

def faqStart? (T : Tables) (text : Text) : Option Nat :=
  if (lines text).any (isFaqHeading T) then
    some (linesBefore ((lines text).takeWhile fun l => !isFaqHeading T l)).length
  else none

def bodyOf (T : Tables) (text : Text) : Text :=
  match faqStart? T text with
  | some n => text.take n
  | none => text

def isBodyLine (l : Text) : Bool := !isHashtagLine (if (strip l).isEmpty then "-".toList else strip l)

def hasCtaLiteral (T : Tables) (text cta : Text) : Bool :=
  if (ctaNorm T cta).isEmpty then false
  else
    let body := unlines ((lines (bodyOf T text)).filter isBodyLine)
    contains (' ' :: (ctaNorm T body ++ [' '])) (' ' :: (ctaNorm T cta ++ [' ']))

/-! ## Invitations -/

/-- `_STOP`. -/
def stopWords : List String :=
  ["a", "an", "the", "and", "or", "but", "of", "in", "on", "at", "to", "for", "with", "from", "by", "as", "is", "are",
    "was", "were", "be", "been", "being", "it", "its", "this", "that", "these", "those", "which", "who", "whom", "what",
    "when", "where", "why", "how", "not", "no", "so", "than", "then", "there", "here", "into", "onto", "over", "under",
    "about", "after", "before", "during", "their", "his", "her", "our", "your", "you", "we", "they", "he", "she", "them",
    "us", "one", "also", "just", "only", "very", "more", "most", "such", "each", "every", "can", "could", "will", "would",
    "may", "might", "should", "has", "have", "had", "do", "does", "did"]

def contentWords (T : Tables) (sentence : Text) (ignore : List Text) : List Text :=
  let tokens := runs isKey ((stripTags T.toCharClasses sentence).flatMap T.fold)
  let content := tokens.filter fun w => !stopWords.contains (String.ofList w) && 2 < w.length && !ignore.contains w
  content.map fun w => if w.getLast? == some 's' && 4 < w.length then w.dropLast else w

/-- `_is_cta`: the sentence has 60% of the CTA's content words. -/
def isCta (T : Tables) (sentence cta : Text) : Bool :=
  let cw := (contentWords T cta []).dedup
  let sw := contentWords T sentence []
  !cw.isEmpty && 3 * cw.length ≤ 5 * (cw.filter fun w => sw.contains w).length

/-- `_INVITE_VERBS`, each with its words. -/
def inviteVerbs : List (List String) :=
  [["ask"], ["speak"], ["talk"], ["contact"], ["reach", "out"], ["get", "in", "touch"], ["enquire"], ["inquire"],
    ["write"], ["email"], ["call"], ["message"], ["book"], ["request"], ["get"], ["plan"]]

/-- `[A-Za-zÀ-ÖØ-öø-ÿ]`. -/
def isLatin (c : Char) : Bool :=
  c.isAlpha || (0xC0 ≤ c.toNat && c.toNat ≤ 0xFF && c.toNat != 0xD7 && c.toNat != 0xF7)

/-- `str.isupper` of a Latin letter. -/
def isLatinUpper (c : Char) : Bool := c.isUpper || (0xC0 ≤ c.toNat && c.toNat ≤ 0xDE && c.toNat != 0xD7)

/-- `[\w’'-]`. -/
def nameChar (T : Tables) (c : Char) : Bool := T.word c || c == '’' || c == '\'' || c == '-'

/-- `re.findall(r"[A-Za-zÀ-ÖØ-öø-ÿ][\w’'-]*", s)`. -/
def latinWords (T : Tables) : Nat → Text → List Text
  | fuel + 1, c :: s =>
    if isLatin c then (c :: s.takeWhile (nameChar T)) :: latinWords T fuel (s.dropWhile (nameChar T))
    else latinWords T fuel s
  | _, _ => []

/-- `_cta_brand_word`: the first capitalised word after the first word. -/
def ctaBrandWord (T : Tables) (cta : Text) : Option Text :=
  ((latinWords T cta.length cta).drop 1).find? fun w => w.head?.any isLatinUpper

/-- `\b` between two characters, where there are such. -/
def boundary (T : Tables) (before after : Option Char) : Bool := before.any T.word != after.any T.word

/-- `\b` after what was taken off `s` to leave `rest`. -/
def endsWord (T : Tables) (s rest : Text) : Bool := boundary T (s.take (s.length - rest.length)).getLast? rest.head?

def dropLiteral? (T : Tables) (literal s : Text) : Option Text :=
  if literal.length ≤ s.length && (literal.zip s).all (fun p => T.ignoreCase p.1 == T.ignoreCase p.2) then
    some (s.drop literal.length)
  else none

/-- Words at the front with `\s+` between them; what follows. -/
def dropWords? (T : Tables) : List Text → Text → Option Text
  | [], s => some s
  | [w], s => dropLiteral? T w s
  | w :: ws, s =>
    match dropLiteral? T w s with
    | none => none
    | some rest => if rest.head?.any isSpace then dropWords? T ws (rest.dropWhile isSpace) else none

/-- `(?:\s+[\w’'&-]+){0,n}?\s+brand\b`; a word runs up to the next space. -/
def brandFollows (T : Tables) (brand : Text) : Nat → Text → Bool
  | n, s =>
    let next := s.dropWhile isSpace
    s.head?.any isSpace &&
      ((dropLiteral? T brand next).any (fun rest => endsWord T next rest) ||
        match n with
        | 0 => false
        | n + 1 =>
          next.head?.any (fun c => nameChar T c || c == '&') &&
            brandFollows T brand n (next.dropWhile fun c => nameChar T c || c == '&'))

/-- An invitation stands in `s`; `before` is the character before it. -/
def invitesFrom (T : Tables) (brand : Text) : Option Char → Text → Bool
  | _, [] => false
  | before, c :: s =>
    (boundary T before (some c) && inviteVerbs.any fun verb =>
      (dropWords? T (verb.map String.toList) (c :: s)).any fun rest =>
        endsWord T (c :: s) rest && brandFollows T brand 4 rest) ||
    invitesFrom T brand (some c) s

def isCtaInvite (T : Tables) (sentence cta : Text) : Bool :=
  match ctaBrandWord T cta with
  | none => false
  | some brand => invitesFrom T brand none (stripTags T.toCharClasses sentence)

/-! ## Where the line goes -/

def ctaWindow : Nat := 3

/-- `_HASHTAG_TAIL_LINE_RE.fullmatch`. -/
def isTailLine (l : Text) : Bool := (l.dropWhile tagGap).isEmpty || isHashtagLine (l.dropWhile tagGap)

/-- `_HASHTAG_TAIL_FIRST_RE.fullmatch`. -/
def isTailFirst (l : Text) : Bool := isHashtagLine (l.dropWhile fun c => c == ' ' || c == '\t')

/-- The loop of `_hashtag_tail_start`, over the lines from the last one back; `pos` is where they end. -/
def tailFrom : List Text → Nat → Option Nat → Option Nat
  | [], _, start => start
  | l :: ls, pos, start =>
    if isTailLine l then
      let pos := pos - (l.length + 1)
      tailFrom ls pos (if isTailFirst l then some pos else start)
    else start

def hashtagTailStart (body : Text) : Option Nat := tailFrom (lines body).tail.reverse body.length none

/-- `s.rfind(part, 0, stop)`. -/
def rfindText (part s : Text) (stop : Nat) : Option Nat :=
  (List.range (stop + 1 - part.length)).reverse.find? fun i => part.isPrefixOf (s.drop i)

/-- The end of the piece for the line: the FAQ heading, else the hashtags. -/
def ctaEnd (T : Tables) (text : Text) : Nat :=
  match faqStart? T text with
  | some n => n
  | none => (hashtagTailStart text).getD text.length

def ctaSpans (T : Tables) (text : Text) : List Span :=
  (sentenceSpans T text).filter fun s => s.kind = .prose && s.stop ≤ ctaEnd T text && !s.inFaq

/-- The closing sentence that is the CTA in other words. -/
def rewordedCta (T : Tables) (text cta : Text) : Option Span :=
  let spans := ctaSpans T text
  match ((spans.drop (spans.length - ctaWindow)).filter fun s => isCtaInvite T s.clean cta).getLast? with
  | some s => some s
  | none => spans.getLast?.filter fun s => isCta T s.clean cta

/-- Where the paragraph is put in: before a closing question. -/
def paragraphEnd (T : Tables) (text : Text) : Nat :=
  match (ctaSpans T text).getLast? with
  | none => ctaEnd T text
  | some last =>
    if last.clean.getLast? == some '?' then
      match rfindText ['\n', '\n'] text last.start with
      | none => ctaEnd T text
      | some para => if 0 < para && !(strip (text.take para)).isEmpty then para else ctaEnd T text
    else ctaEnd T text

def ctaLine (cta : Text) : Text :=
  let line := oneLine cta
  if line.getLast?.any (fun c => c == '.' || c == '!' || c == '?') then line else line ++ ['.']

/-- The line as a paragraph of its own at `stop`. -/
def insertLine (text line : Text) (stop : Nat) : Text :=
  let head := rstrip (text.take stop)
  let rest := (text.drop stop).dropWhile (· == '\n')
  let new := if rest.isEmpty then head ++ ['\n', '\n'] ++ line ++ ['\n'] else head ++ ['\n', '\n'] ++ line ++ ['\n', '\n'] ++ rest
  if text.getLast? == some '\n' then new else rstripOf (· == '\n') new

/-- `ensure_cta`, with its log. -/
def ensureCta (T : Tables) (text cta : Text) : Text × List Text :=
  if (oneLine cta).isEmpty || hasCtaLiteral T text cta then (text, [])
  else
    match rewordedCta T text cta with
    | some s =>
      (text.take s.start ++ ctaLine cta ++ text.drop s.stop,
        ["restored the configured CTA line in place of a reworded one: '".toList ++ s.clean.take 160 ++ ['\'']])
    | none =>
      (insertLine text (ctaLine cta) (paragraphEnd T text),
        ["added the configured CTA line, which the piece did not have word for word".toList])

end CisApp.Hygiene
