import JvmClass.Text

/-!
# Quoted text

How messages show a text: between quotation marks, on one line, with everything that could not be
read off the page written as an escape. `quoted` is for texts, `quotedChar` for single characters;
they differ only in which quotation mark they have to protect.
-/

namespace JvmClass.Text

/-- Digits of a number in base sixteen, in lower case and without leading zeros. -/
def hexDigits (n : Nat) : String :=
  String.ofList (Nat.toDigits 16 n)

/-- Code points with no visible form of their own: control characters, the no-break space, the soft
hyphen and lone surrogates. -/
def isInvisible (point : Nat) : Bool :=
  point < 0x20 || (0x7F ≤ point && point ≤ 0xA0) || point == 0xAD || isSurrogate point

/-- A code point between two marks, each a `mark`. -/
def escapePoint (mark : Char) (point : Nat) : String :=
  if point == 0 then "\\0"
  else if point == 0x09 then "\\t"
  else if point == 0x0A then "\\n"
  else if point == 0x0D then "\\r"
  else if point == 0x5C then "\\\\"
  else if point == mark.toNat then String.ofList ['\\', mark]
  else if isInvisible point then "\\u\x7b" ++ hexDigits point ++ "\x7d"
  else String.singleton (Char.ofNat point)

def quoted (text : Text) : String :=
  "\"" ++ text.points.foldl (fun shown point => shown ++ escapePoint '"' point) "" ++ "\""

def quotedChar (point : Nat) : String :=
  "'" ++ escapePoint '\'' point ++ "'"

end JvmClass.Text
