import JvmClass.Text

/-!
# Modified UTF-8

How a `Utf8` constant stores its text. Every unit is written by itself: one byte from 1 to 127, two
bytes for zero and up to 2047, three bytes for all others, surrogates included, so a supplementary
character takes six bytes. Reading first accepts whatever is standard UTF-8, which also covers zero
bytes and four byte sequences, and only then reads unit by unit; the two readings agree on
everything that `encode` produces.
-/

namespace JvmClass.Text.ModifiedUtf8

def encodeUnit (unit : UInt16) : List UInt8 :=
  let n := unit.toNat
  if 0 < n ∧ n < 0x80 then
    [UInt8.ofNat n]
  else if n < 0x800 then
    [UInt8.ofNat (0xC0 + n / 64), UInt8.ofNat (0x80 + n % 64)]
  else
    [UInt8.ofNat (0xE0 + n / 4096), UInt8.ofNat (0x80 + n / 64 % 64), UInt8.ofNat (0x80 + n % 64)]

def encode (text : Text) : List UInt8 :=
  text.units.flatMap encodeUnit

/-- A byte that continues a sequence. -/
def isContinuation (byte : UInt8) : Bool :=
  0x80 ≤ byte && byte < 0xC0

/-- The six bits that a continuation byte carries. -/
def bits (byte : UInt8) : Nat :=
  byte.toNat % 64

/-- The unit that a sequence of two bytes stands for. -/
def unitOfTwo (a b : UInt8) : UInt16 :=
  UInt16.ofNat (a.toNat % 32 * 64 + bits b)

/-- The unit that a sequence of three bytes stands for. -/
def unitOfThree (a b c : UInt8) : UInt16 :=
  UInt16.ofNat (a.toNat % 16 * 4096 + bits b * 64 + bits c)

/-! ### Standard UTF-8 -/

/-- The second byte of a three byte sequence: no overlong forms and no surrogates. -/
def isSecondOfThree (first second : UInt8) : Bool :=
  isContinuation second && !(first == 0xE0 && second < 0xA0) && !(first == 0xED && 0xA0 ≤ second)

/-- The second byte of a four byte sequence: no overlong forms and nothing above `U+10FFFF`. -/
def isSecondOfFour (first second : UInt8) : Bool :=
  isContinuation second && !(first == 0xF0 && second < 0x90) && !(first == 0xF4 && 0x90 ≤ second)

/-- Reads standard UTF-8 in front of the units already read, which stand in reverse. -/
def decodeStandardFrom (units : List UInt16) : List UInt8 → Option (List UInt16)
  | [] => some units.reverse
  | a :: rest =>
    if a < 0x80 then
      decodeStandardFrom (a.toUInt16 :: units) rest
    else
      match rest with
      | [] => none
      | b :: rest =>
        if 0xC2 ≤ a && a < 0xE0 then
          if isContinuation b then
            decodeStandardFrom (unitOfTwo a b :: units) rest
          else
            none
        else
          match rest with
          | [] => none
          | c :: rest =>
            if 0xE0 ≤ a && a < 0xF0 then
              if isSecondOfThree a b && isContinuation c then
                decodeStandardFrom (unitOfThree a b c :: units) rest
              else
                none
            else
              match rest with
              | [] => none
              | d :: rest =>
                if 0xF0 ≤ a && a < 0xF5 && isSecondOfFour a b && isContinuation c
                    && isContinuation d then
                  let point := a.toNat % 8 * 262144 + bits b * 4096 + bits c * 64 + bits d
                  decodeStandardFrom ((unitsOfPoint point).reverse ++ units) rest
                else
                  none

/-- The text of bytes that are standard UTF-8. -/
def decodeStandard? (bytes : List UInt8) : Option Text :=
  (decodeStandardFrom [] bytes).map Text.mk

/-! ### Unit by unit -/

/-- Where reading stopped: how many bytes before it were fine, and how many of the next ones cannot
be part of any sequence, or `none` if the data ends within one. -/
structure Malformed where
  validUpTo : Nat
  length : Option Nat
deriving DecidableEq, Repr

/-- Reads unit by unit, `offset` bytes into the data and in front of the units already read, which
stand in reverse. -/
def decodeUnitsFrom (offset : Nat) (units : List UInt16) :
    List UInt8 → Except Malformed (List UInt16)
  | [] => .ok units.reverse
  | a :: rest =>
    if a == 0 then
      .error ⟨offset, some 1⟩
    else if a < 0x80 then
      decodeUnitsFrom (offset + 1) (a.toUInt16 :: units) rest
    else
      match rest with
      | [] => .error ⟨offset, none⟩
      | b :: rest =>
        if a == 0xC0 then
          if b == 0x80 then
            decodeUnitsFrom (offset + 2) (0 :: units) rest
          else
            .error ⟨offset, some 1⟩
        else if !isContinuation b then
          .error ⟨offset, some 1⟩
        else if 0xC2 ≤ a && a < 0xE0 then
          decodeUnitsFrom (offset + 2) (unitOfTwo a b :: units) rest
        else if 0xE0 ≤ a && a < 0xF0 then
          match rest with
          | [] => .error ⟨offset, none⟩
          | c :: rest =>
            if !isContinuation c then
              .error ⟨offset, some 2⟩
            else if a == 0xE0 && b < 0xA0 then
              .error ⟨offset, some 1⟩
            else
              decodeUnitsFrom (offset + 3) (unitOfThree a b c :: units) rest
        else
          .error ⟨offset, some 1⟩

def decode (bytes : List UInt8) : Except Malformed Text :=
  match decodeStandard? bytes with
  | some text => .ok text
  | none => (decodeUnitsFrom 0 [] bytes).map Text.mk

end JvmClass.Text.ModifiedUtf8
