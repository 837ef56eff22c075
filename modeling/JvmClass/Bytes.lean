import JvmClass.Error

/-!
# Bytes

Numbers as bytes, most significant byte first, which is how a class file stores all of them. A
signed number is stored as the unsigned one with the same bits.
-/

namespace JvmClass

abbrev Bytes := List UInt8

namespace Bytes

/-- The `width` last bytes of a number. -/
def bigEndian : (width : Nat) → Nat → Bytes
  | 0, _ => []
  | width + 1, n => UInt8.ofNat (n / Nat.pow 256 width) :: bigEndian width n

/-- The number that bytes stand for. -/
def toNat (bytes : Bytes) : Nat :=
  bytes.foldl (fun n byte => n * 256 + byte.toNat) 0

def ofUInt16 (n : UInt16) : Bytes :=
  bigEndian 2 n.toNat

def ofUInt32 (n : UInt32) : Bytes :=
  bigEndian 4 n.toNat

def ofUInt64 (n : UInt64) : Bytes :=
  bigEndian 8 n.toNat

def ofInt8 (n : Int8) : Bytes :=
  [n.toUInt8]

def ofInt16 (n : Int16) : Bytes :=
  ofUInt16 n.toUInt16

def ofInt32 (n : Int32) : Bytes :=
  ofUInt32 n.toUInt32

def ofInt64 (n : Int64) : Bytes :=
  ofUInt64 n.toUInt64

/-- A count or length, stored in `width` bytes if it fits. -/
def ofCount (width n : Nat) : Except Error Bytes :=
  if n < Nat.pow 256 width then
    .ok (bigEndian width n)
  else
    .error (.ofFault (.numberTooLarge n (8 * width)))

end Bytes

end JvmClass
