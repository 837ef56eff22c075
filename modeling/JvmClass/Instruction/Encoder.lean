import JvmClass.Instruction
import JvmClass.Instruction.Descriptor
import JvmClass.Instruction.Opcode
import JvmClass.Pool.Intern

/-!
# Encoding instructions

The bytes of one instruction, in the shortest form that its operands allow. Constants are added to
the pool first, in a pass over all instructions; what an instruction needs of that is its `Operand`.
A distance can be written only once the target has an offset. Where it has none yet, the bytes have
a `Hole` to be filled in later, two bytes wide or four: a jump or branch then takes its short form,
unless it is known to be too far for that.
-/

namespace JvmClass

/-! ### Operands -/

/-- What an instruction needs besides itself: the index of its constant, and the slots that the
arguments of a call take. -/
structure Operand where
  index : UInt16
  slots : UInt8
deriving Inhabited

/-- The first key that is not below the one after it, with that one. -/
def firstUnordered {τ : Type} : List (Int32 × τ) → Option (Int32 × Int32)
  | (key, _) :: (next, target) :: rest =>
    if next ≤ key then some (key, next) else firstUnordered ((next, target) :: rest)
  | _ => none

namespace Instruction

variable {τ : Type}

/-- Adds the constant of an instruction to the pool, and checks that a switch can be encoded. -/
def putOperand : Instruction τ → PoolM Operand
  | load constant => return ⟨← Pool.putLoadable constant, 0⟩
  | onField _ field => return ⟨← Pool.putFieldRef field, 0⟩
  | invokeVirtual method => return ⟨← Pool.putMethodRef method, 0⟩
  | invokeSpecial method isInterface => return ⟨← Pool.putAnyMethodRef method isInterface, 0⟩
  | invokeStatic method isInterface => return ⟨← Pool.putAnyMethodRef method isInterface, 0⟩
  | invokeInterface method => do
    let slots ← Descriptor.argumentSlots method.descriptor
    return ⟨← Pool.putInterfaceMethodRef method, slots⟩
  | invokeDynamic site => return ⟨← Pool.putInvokeDynamic site, 0⟩
  | onClass _ name => return ⟨← Pool.putClass name, 0⟩
  | multiNewArray name _ => return ⟨← Pool.putClass name, 0⟩
  | tableSwitch _ low high targets => do
    let expected := high.toInt - low.toInt + 1
    if (targets.length : Int) ≠ expected then
      PoolM.fail (.wrongTableSize low high expected targets.length)
    return ⟨0, 0⟩
  | lookupSwitch _ cases => do
    match firstUnordered cases with
    | some (key, next) => PoolM.fail (.keysNotAscending key next)
    | none => return ⟨0, 0⟩
  | _ => return ⟨0, 0⟩

end Instruction

/-- Whether a constant takes two places on the stack. A constant that is computed says so by its
descriptor. -/
def Loadable.takesTwoPlaces : Loadable → Bool
  | long _ | double _ => true
  | dynamic value =>
    value.descriptor.units.head? == some 0x4A || value.descriptor.units.head? == some 0x44
  | _ => false

/-! ### Bytes with holes -/

/-- A distance that is missing in the bytes of an instruction. -/
structure Hole where
  /-- The index of the instruction. -/
  instruction : Nat
  label : Label
  /-- The offset that the distance is from. -/
  base : Nat
  /-- The offset that the distance is written at. -/
  position : Nat
  /-- Whether there is room for four bytes, or only for two. -/
  wide : Bool
deriving DecidableEq, Repr

def Hole.width (hole : Hole) : Nat :=
  if hole.wide then 4 else 2

structure Encoded where
  bytes : Bytes
  holes : List Hole

namespace Encoded

def ofBytes (bytes : Bytes) : Encoded :=
  ⟨bytes, []⟩

def append (first second : Encoded) : Encoded :=
  ⟨first.bytes ++ second.bytes, first.holes ++ second.holes⟩

instance : Append Encoded := ⟨append⟩

def concat (parts : List Encoded) : Encoded :=
  ⟨parts.flatMap Encoded.bytes, parts.flatMap Encoded.holes⟩

end Encoded

/-! ### Distances -/

def distance (base : Nat) (target : UInt16) : Int :=
  (target.toNat : Int) - (base : Int)

/-- Whether a distance can be written in two bytes. -/
def fitsShort (distance : Int) : Bool :=
  -32768 ≤ distance && distance ≤ 32767

def shortDistance (distance : Int) : Bytes :=
  Bytes.ofInt16 (Int16.ofInt distance)

def wideDistance (distance : Int) : Bytes :=
  Bytes.ofInt32 (Int32.ofInt distance)

/-- What a hole of two bytes holds until it is filled. -/
def shortPlaceholder : Bytes :=
  shortDistance 32767

/-- What a hole of four bytes holds until it is filled. -/
def widePlaceholder : Bytes :=
  wideDistance 2147483647

/-! ### Instructions -/

/-- Where an instruction is encoded. -/
structure EncodingSite where
  /-- The index of the instruction. -/
  index : Nat
  /-- The offset of its opcode. -/
  offset : Nat
  /-- The offsets of labels that are known already. -/
  offsetOf? : Label → Option UInt16
  /-- Whether a jump or branch has to be wide if its target is not known yet. -/
  wide : Bool

namespace EncodingSite

variable (site : EncodingSite)

/-- An unconditional jump. -/
def encodeJump (op : JumpOp) (label : Label) : Encoded :=
  match site.offsetOf? label with
  | some target =>
    let distance := distance site.offset target
    if fitsShort distance then
      .ofBytes (op.opcode :: shortDistance distance)
    else
      .ofBytes (op.wideOpcode :: wideDistance distance)
  | none =>
    let hole := ⟨site.index, label, site.offset, site.offset + 1, site.wide⟩
    if site.wide then
      ⟨op.wideOpcode :: widePlaceholder, [hole]⟩
    else
      ⟨op.opcode :: shortPlaceholder, [hole]⟩

/-- The opposite condition over a wide jump, which is what stands in front of the distance of that
jump. -/
def farBranchHead (condition : Condition) : Bytes :=
  condition.negate.opcode :: shortDistance 8 ++ [JumpOp.goto.wideOpcode]

/-- The offset of that jump, which its distance is from. An offset takes two bytes, so it is at most
the largest of these. -/
def farBranchBase (offset : Nat) : Nat :=
  min (offset + 3) 65535

/-- A conditional branch. There is no wide form of it, so a far one becomes the opposite branch over
a jump. -/
def encodeBranch (condition : Condition) (label : Label) : Encoded :=
  match site.offsetOf? label with
  | some target =>
    let near := distance site.offset target
    if fitsShort near then
      .ofBytes (condition.opcode :: shortDistance near)
    else
      let far := distance (farBranchBase site.offset) target
      .ofBytes (farBranchHead condition ++ wideDistance far)
  | none =>
    if site.wide then
      ⟨farBranchHead condition ++ widePlaceholder,
        [⟨site.index, label, farBranchBase site.offset, site.offset + 4, true⟩]⟩
    else
      ⟨condition.opcode :: shortPlaceholder,
        [⟨site.index, label, site.offset, site.offset + 1, false⟩]⟩

/-- A target of a switch, at a given position. It always takes four bytes. -/
def encodeSwitchTarget (position : Nat) (label : Label) : Encoded :=
  match site.offsetOf? label with
  | some target => .ofBytes (wideDistance (distance site.offset target))
  | none => ⟨widePlaceholder, [⟨site.index, label, site.offset, position, true⟩]⟩

/-- Fills up to the next multiple of four after the opcode of a switch. -/
def padding : Bytes :=
  List.replicate (3 - site.offset % 4) 0

/-- The offset of the first operand of a switch. -/
def switchStart : Nat :=
  site.offset + 1 + (3 - site.offset % 4)

def encodeTableSwitch (otherwise : Label) (low high : Int32) (targets : List Label) : Encoded :=
  let start := site.switchStart
  .ofBytes (Opcode.tableSwitch.toByte :: site.padding)
    ++ site.encodeSwitchTarget start otherwise
    ++ .ofBytes (Bytes.ofInt32 low ++ Bytes.ofInt32 high)
    ++ .concat (targets.zipIdx.map fun (target, i) =>
      site.encodeSwitchTarget (start + 12 + 4 * i) target)

def encodeLookupSwitch (otherwise : Label) (cases : List (Int32 × Label)) : Encoded :=
  let start := site.switchStart
  .ofBytes (Opcode.lookupSwitch.toByte :: site.padding)
    ++ site.encodeSwitchTarget start otherwise
    ++ .ofBytes (Bytes.bigEndian 4 cases.length)
    ++ .concat (cases.zipIdx.map fun ((key, target), i) =>
      .ofBytes (Bytes.ofInt32 key) ++ site.encodeSwitchTarget (start + 8 + 8 * i + 4) target)

end EncodingSite

/-- An operation on a local variable, with the index in the opcode, in one byte or in two. -/
def VariableOp.encode (op : VariableOp) (index : UInt16) : Bytes :=
  if h : index.toNat < 4 ∧ op.hasShortForm then
    [(Opcode.onVariableAt op ⟨index.toNat, h.1⟩).toByte]
  else if index < 256 then
    [op.opcode, index.toUInt8]
  else
    Opcode.wide.toByte :: op.opcode :: Bytes.ofUInt16 index

/-- An increment of a local variable, with its operands in one byte each or in two. -/
def encodeIncrement (index : UInt16) (amount : Int16) : Bytes :=
  if index < 256 ∧ -128 ≤ amount ∧ amount ≤ 127 then
    Opcode.increment.toByte :: index.toUInt8 :: Bytes.ofInt8 amount.toInt8
  else
    Opcode.wide.toByte :: Opcode.increment.toByte :: Bytes.ofUInt16 index ++ Bytes.ofInt16 amount

/-- The load of a constant, by the shortest form of its index. -/
def Loadable.encodeLoad (constant : Loadable) (index : UInt16) : Bytes :=
  if constant.takesTwoPlaces then
    Opcode.loadDouble.toByte :: Bytes.ofUInt16 index
  else if index < 256 then
    [Opcode.load.toByte, index.toUInt8]
  else
    Opcode.loadWide.toByte :: Bytes.ofUInt16 index

/-- An opcode followed by the index of a constant. -/
def Operand.encodeAfter (operand : Operand) (opcode : Opcode) : Bytes :=
  opcode.toByte :: Bytes.ofUInt16 operand.index

/-- The bytes of an instruction at a place. -/
def Instruction.encode (site : EncodingSite) (operand : Operand) : Instruction Label → Encoded
  | plain op => .ofBytes [op.opcode]
  | pushByte value => .ofBytes (Opcode.pushByte.toByte :: Bytes.ofInt8 value)
  | pushShort value => .ofBytes (Opcode.pushShort.toByte :: Bytes.ofInt16 value)
  | load constant => .ofBytes (constant.encodeLoad operand.index)
  | onVariable op index => .ofBytes (op.encode index)
  | increment index amount => .ofBytes (encodeIncrement index amount)
  | branch condition target => site.encodeBranch condition target
  | jump op target => site.encodeJump op target
  | tableSwitch otherwise low high targets => site.encodeTableSwitch otherwise low high targets
  | lookupSwitch otherwise cases => site.encodeLookupSwitch otherwise cases
  | onField op _ => .ofBytes (operand.encodeAfter (.onField op))
  | invokeVirtual _ => .ofBytes (operand.encodeAfter .invokeVirtual)
  | invokeSpecial .. => .ofBytes (operand.encodeAfter .invokeSpecial)
  | invokeStatic .. => .ofBytes (operand.encodeAfter .invokeStatic)
  | invokeInterface _ => .ofBytes (operand.encodeAfter .invokeInterface ++ [operand.slots, 0])
  | invokeDynamic _ => .ofBytes (operand.encodeAfter .invokeDynamic ++ [0, 0])
  | onClass op _ => .ofBytes (operand.encodeAfter (.onClass op))
  | newArray type => .ofBytes [Opcode.newArray.toByte, type.code]
  | multiNewArray _ dimensions => .ofBytes (operand.encodeAfter .multiNewArray ++ [dimensions])

/-- Whether an instruction has a wide form to be used for far targets. -/
def Instruction.isRelaxable {τ : Type} : Instruction τ → Bool
  | branch .. | jump .. => true
  | _ => false

end JvmClass
