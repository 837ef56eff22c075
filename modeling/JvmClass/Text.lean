/-!
# Text

The text a class file holds: names, descriptors, string constants. It is a sequence of UTF-16 code
units in which a surrogate may stand alone, so it is wider than `String`. A high unit directly
followed by a low one always means the supplementary character of the two; `Text.points` is the view
in which such a pair is one code point, and the order of texts and everything printed is read off
that view.
-/

namespace JvmClass

/-- A sequence of UTF-16 code units. -/
structure Text where
  units : List UInt16
deriving DecidableEq, Hashable, Inhabited, Repr

namespace Text

/-- The first unit of a surrogate pair. -/
def isHigh (unit : UInt16) : Bool :=
  0xD800 ≤ unit && unit < 0xDC00

/-- The second unit of a surrogate pair. -/
def isLow (unit : UInt16) : Bool :=
  0xDC00 ≤ unit && unit < 0xE000

/-- The units of a code point: one below 65536, a surrogate pair from there on. -/
def unitsOfPoint (point : Nat) : List UInt16 :=
  if point < 0x10000 then
    [UInt16.ofNat point]
  else
    [UInt16.ofNat (0xD800 + (point - 0x10000) / 0x400),
      UInt16.ofNat (0xDC00 + (point - 0x10000) % 0x400)]

/-- The code point of a surrogate pair. -/
def pointOfPair (high low : UInt16) : Nat :=
  0x10000 + (high.toNat - 0xD800) * 0x400 + (low.toNat - 0xDC00)

/-- The text of a list of code points, which may hold lone surrogates. -/
def ofPoints (points : List Nat) : Text :=
  ⟨points.flatMap unitsOfPoint⟩

def ofString (string : String) : Text :=
  ofPoints (string.toList.map Char.toNat)

/-- The code points of a list of units, each surrogate pair as one. -/
def pointsOfUnits : List UInt16 → List Nat
  | [] => []
  | [unit] => [unit.toNat]
  | unit :: next :: rest =>
    if isHigh unit && isLow next then
      pointOfPair unit next :: pointsOfUnits rest
    else
      unit.toNat :: pointsOfUnits (next :: rest)

/-- The code points of a text; a surrogate among them is one that stands alone. -/
def points (text : Text) : List Nat :=
  pointsOfUnits text.units

/-- Texts are ordered by their code points, so a supplementary character comes after every lone
surrogate and after every other unit. -/
instance : Ord Text where
  compare left right := List.compareLex compare left.points right.points

/-- A code point that is a surrogate, and therefore no character. -/
def isSurrogate (point : Nat) : Bool :=
  0xD800 ≤ point && point < 0xE000

/-- The text with every lone surrogate replaced by `U+FFFD`. -/
def toStringLossy (text : Text) : String :=
  String.ofList (text.points.map fun point =>
    if isSurrogate point then '\uFFFD' else Char.ofNat point)

/-- The text as a string, unless it has a lone surrogate. -/
def toString? (text : Text) : Option String :=
  let points := text.points
  if points.any isSurrogate then none else some (String.ofList (points.map Char.ofNat))

end Text

end JvmClass
