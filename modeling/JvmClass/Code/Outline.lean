import JvmClass.Instruction.Reader

/-!
# Outline of bytecode

Where the instructions of bytecode start and which offsets they can continue at, found without
looking at their other operands. The outline is complete before any constant is looked up: it tells
which offsets need a label, and its faults are those of the code alone.
-/

namespace JvmClass

/-- What follows an opcode, as far as the outline is concerned. -/
inductive OperandShape where
  /-- Operands of a fixed size. -/
  | fixed (size : Nat)
  | target
  | wideTarget
  | tableSwitch
  | lookupSwitch
  | wide
deriving DecidableEq, Repr

namespace OperandShape

/-- Whether a byte is from `low` up to `high`. -/
def isIn (low high byte : UInt8) : Bool :=
  low ≤ byte && byte ≤ high

/-- The opcodes of loads, stores and returns to an address, which take the index of a local
variable. -/
def takesVariable (opcode : UInt8) : Bool :=
  isIn 0x15 0x19 opcode || isIn 0x36 0x3a opcode || opcode == 0xa9

def ofOpcode? (opcode : UInt8) : Option OperandShape :=
  if opcode ≤ 0x0f || isIn 0x1a 0x35 opcode || isIn 0x3b 0x83 opcode || isIn 0x85 0x98 opcode
      || isIn 0xac 0xb1 opcode || isIn 0xbe 0xbf opcode || isIn 0xc2 0xc3 opcode then
    some (fixed 0)
  else if opcode == 0x10 || opcode == 0x12 || takesVariable opcode || opcode == 0xbc then
    some (fixed 1)
  else if opcode == 0x11 || isIn 0x13 0x14 opcode || opcode == 0x84 || isIn 0xb2 0xb8 opcode
      || opcode == 0xbb || opcode == 0xbd || isIn 0xc0 0xc1 opcode then
    some (fixed 2)
  else if opcode == 0xc5 then
    some (fixed 3)
  else if isIn 0xb9 0xba opcode then
    some (fixed 4)
  else if isIn 0x99 0xa8 opcode || isIn 0xc6 0xc7 opcode then
    some target
  else if isIn 0xc8 0xc9 opcode then
    some wideTarget
  else if opcode == 0xaa then
    some tableSwitch
  else if opcode == 0xab then
    some lookupSwitch
  else if opcode == 0xc4 then
    some wide
  else
    none

end OperandShape

namespace Outline

variable (length offset : UInt16)

/-- A target of an instruction has to be within the code. -/
def withinCode (target : UInt16) : Reader UInt16 :=
  if target < length then return target else Reader.fail (.labelOutOfBounds target length)

def readTarget : Reader UInt16 := do
  withinCode length (← Instruction.readTarget offset)

def readWideTarget : Reader UInt16 := do
  withinCode length (← Instruction.readWideTarget offset)

def skipWide : Reader Unit := do
  let opcode ← Reader.uint8
  if OperandShape.takesVariable opcode then
    let _ ← Reader.bytes 2
  else if opcode == 0x84 then
    let _ ← Reader.bytes 4
  else
    Reader.fail (.unknownWideOpcode opcode)

/-- The targets in operands of a shape, which are skipped. -/
def readShape : OperandShape → Reader (List UInt16)
  | .fixed size => do
    let _ ← Reader.bytes size
    return []
  | .target => return [← readTarget length offset]
  | .wideTarget => return [← readWideTarget length offset]
  | .tableSwitch => do
    Instruction.readPadding offset
    let otherwise ← readWideTarget length offset
    let low ← Reader.int32
    let high ← Reader.int32
    if high < low then
      Reader.fail (.switchBoundsReversed low high)
    let targets ← Reader.many (high.toInt - low.toInt + 1).toNat (readWideTarget length offset)
    return otherwise :: targets
  | .lookupSwitch => do
    Instruction.readPadding offset
    let otherwise ← readWideTarget length offset
    let count ← Reader.int32
    if count < 0 then
      Reader.fail (.negativePairCount count)
    let targets ← Reader.many count.toInt.toNat do
      let _ ← Reader.int32
      readWideTarget length offset
    return otherwise :: targets
  | .wide => do
    skipWide
    return []

/-- The targets of the instruction at an offset, which is skipped. -/
def readInstruction : Reader (List UInt16) := do
  let opcode ← Reader.uint8
  match OperandShape.ofOpcode? opcode with
  | some shape => readShape length offset shape
  | none => Reader.fail (.unknownOpcode opcode)

end Outline

/-- Reads one thing after the other up to the end of the input, each with the offset it starts at.
Every one of them takes at least one byte, so there are no more of them than bytes. -/
def sweepFrom {α : Type} (read : UInt16 → Reader α) : (bytesLeft : Nat) →
    (found : List (UInt16 × α)) → Input → Except Error (List (UInt16 × α))
  | 0, found, _ => .ok found.reverse
  | bytesLeft + 1, found, input =>
    if input.rest.isEmpty then
      .ok found.reverse
    else
      let offset := UInt16.ofNat input.position
      match Reader.during (.atOffset offset) (read offset) input with
      | .ok (value, input) => sweepFrom read bytesLeft ((offset, value) :: found) input
      | .error error => .error error

/-- Reads bytecode from its start to its end. -/
def sweep {α : Type} (read : UInt16 → Reader α) (code : Bytes) : Except Error (List (UInt16 × α)) :=
  sweepFrom read code.length [] (Input.ofBytes code)

/-- The instructions of bytecode by the offset each starts at, with the offsets it can continue
at. -/
abbrev Outline := List (UInt16 × List UInt16)

namespace Outline

def ofCode (length : UInt16) (code : Bytes) : Except Error Outline :=
  sweep (readInstruction length) code

/-- All offsets that instructions can continue at, in the order they are encoded in. -/
def targets (outline : Outline) : List UInt16 :=
  outline.flatMap Prod.snd

end Outline

end JvmClass
