import JvmClass.Bytes

/-!
# Reading bytes

A `Reader` takes a value off the front of its input, or fails. It sees the bytes from the current
position on and nothing else, it never moves back, and it fails with `unexpectedEnd` when fewer
bytes are left than one read asks for. All readers of the format are made from the ones here.
-/

namespace JvmClass

/-- What is left to read, and how many bytes were read before it. -/
structure Input where
  position : Nat
  rest : Bytes

def Input.ofBytes (bytes : Bytes) : Input :=
  ⟨0, bytes⟩

abbrev Reader := StateT Input (Except Error)

namespace Reader

variable {α : Type}

def fail (fault : Fault) : Reader α :=
  throw (Error.ofFault fault)

def during (activity : Activity) (reader : Reader α) : Reader α :=
  fun input => Result.during activity (reader input)

/-- The next `size` bytes. -/
def bytes (size : Nat) : Reader Bytes := fun input =>
  let front := input.rest.take size
  if front.length = size then
    .ok (front, ⟨input.position + size, input.rest.drop size⟩)
  else
    .error (.ofFault (.unexpectedEnd size))

/-- All bytes that are left. -/
def remainder : Reader Bytes := fun input =>
  .ok (input.rest, ⟨input.position + input.rest.length, []⟩)

/-! ### Numbers -/

/-- A number of `width` bytes; `signed` is how it is going to be taken. -/
def number (signed : Bool) (width : Nat) : Reader Nat :=
  during (.number signed (8 * width)) (Bytes.toNat <$> bytes width)

def uint8 : Reader UInt8 :=
  UInt8.ofNat <$> number false 1

def uint16 : Reader UInt16 :=
  UInt16.ofNat <$> number false 2

def uint32 : Reader UInt32 :=
  UInt32.ofNat <$> number false 4

def uint64 : Reader UInt64 :=
  UInt64.ofNat <$> number false 8

def int8 : Reader Int8 :=
  (fun n => (UInt8.ofNat n).toInt8) <$> number true 1

def int16 : Reader Int16 :=
  (fun n => (UInt16.ofNat n).toInt16) <$> number true 2

def int32 : Reader Int32 :=
  (fun n => (UInt32.ofNat n).toInt32) <$> number true 4

def int64 : Reader Int64 :=
  (fun n => (UInt64.ofNat n).toInt64) <$> number true 8

/-! ### Lists -/

/-- Reads `count` more values after the ones already found, which stand in reverse. -/
def manyFrom (reader : Reader α) : (count : Nat) → (found : List α) → Input →
    Except Error (List α × Input)
  | 0, found, input => .ok (found.reverse, input)
  | count + 1, found, input =>
    match reader input with
    | .ok (value, input) => manyFrom reader count (value :: found) input
    | .error error => .error error

/-- Reads `count` values, one after the other. -/
def many (count : Nat) (reader : Reader α) : Reader (List α) :=
  manyFrom reader count []

/-- A list behind its length, which takes one byte. -/
def list8 (reader : Reader α) : Reader (List α) := do
  many (← uint8).toNat reader

/-- A list behind its length, which takes two bytes. -/
def list16 (reader : Reader α) : Reader (List α) := do
  many (← uint16).toNat reader

end Reader

end JvmClass
