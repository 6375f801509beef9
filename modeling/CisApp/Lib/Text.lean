import Mathlib

/-! Python strings as lists of characters.

`text[a:b]` is `slice`; the other definitions are the string methods of the same names. -/

namespace CisApp.Lib

abbrev Text := List Char

/-- `text[a:b]`. -/
def slice (text : Text) (a b : Nat) : Text := (text.take b).drop a

/-- `str.isspace` of one character. -/
def isSpace (c : Char) : Bool :=
  let n := c.toNat
  (9 ≤ n && n ≤ 13) || (28 ≤ n && n ≤ 32) || n == 0x85 || n == 0xA0 || n == 0x1680 ||
    (0x2000 ≤ n && n ≤ 0x200A) || n == 0x2028 || n == 0x2029 || n == 0x202F || n == 0x205F ||
    n == 0x3000

/-- `s.rstrip(chars)`. -/
def rstripOf (p : Char → Bool) (s : Text) : Text := (s.reverse.dropWhile p).reverse

/-- `s.strip(chars)`. -/
def stripOf (p : Char → Bool) (s : Text) : Text := rstripOf p (s.dropWhile p)

def rstrip (s : Text) : Text := rstripOf isSpace s

def strip (s : Text) : Text := stripOf isSpace s

/-- `s.split()`. -/
def words (s : Text) : List Text := (s.splitOnP isSpace).filter fun w => !w.isEmpty

/-- `" ".join(s.split())`. -/
def oneLine (s : Text) : Text := List.intercalate [' '] (words s)

/-- `part in s`. -/
def contains (s part : Text) : Bool := decide (part <:+: s)

/-- `s.split(sep, 1)` when `sep` occurs. -/
def splitFirst (sep : Text) : Text → Option (Text × Text)
  | [] => none
  | c :: s =>
    if sep.isPrefixOf (c :: s) then some ([], (c :: s).drop sep.length)
    else (splitFirst sep s).map fun p => (c :: p.1, p.2)

/-- `s.replace(old, "")`; every round takes at least one character off. -/
def removeAll (old : Text) : Nat → Text → Text
  | 0, s => s
  | fuel + 1, s =>
    match splitFirst old s with
    | none => s
    | some (before, after) => before ++ removeAll old fuel after

/-- `text.rfind(c)`. -/
def rfind (c : Char) (s : Text) : Option Nat :=
  if c ∈ s then some (s.length - 1 - s.reverse.idxOf c) else none

end CisApp.Lib
