import JvmClass.Instruction
import JvmClass.Instruction.Opcode
import JvmClass.Pool

/-!
# Reading instructions

One instruction off the front of bytecode, with its constants looked up in the pool and its targets
as offsets. Distances to targets are relative to the opcode, and the operands of a switch start at a
multiple of four, so reading has to know the offset of the opcode; it depends on nothing else around
it.
-/

namespace JvmClass.Instruction

variable (pool : Pool) (offset : UInt16)

/-- The offset that a branch from `offset` goes to, which has sixteen bits. -/
def targetOf (distance : Int) : Reader UInt16 :=
  let target := offset.toNat + distance
  if 0 ≤ target ∧ target < 65536 then
    return UInt16.ofNat target.toNat
  else
    Reader.fail (.branchOutOfBounds distance offset)

/-- A target two bytes wide. -/
def readTarget : Reader UInt16 := do
  targetOf offset (← Reader.int16).toInt

/-- A target four bytes wide. -/
def readWideTarget : Reader UInt16 := do
  targetOf offset (← Reader.int32).toInt

/-- Skips to the next multiple of four after the opcode of a switch. -/
def readPadding : Reader Unit := do
  let _ ← Reader.many (3 - offset.toNat % 4) Reader.uint8

def readTableSwitch : Reader (Instruction UInt16) := do
  readPadding offset
  let otherwise ← readWideTarget offset
  let low ← Reader.int32
  let high ← Reader.int32
  let targets ← Reader.many (high.toInt - low.toInt + 1).toNat (readWideTarget offset)
  return tableSwitch otherwise low high targets

def readLookupSwitch : Reader (Instruction UInt16) := do
  readPadding offset
  let otherwise ← readWideTarget offset
  let count ← Reader.int32
  let cases ← Reader.many count.toInt.toNat do
    let key ← Reader.int32
    return (key, ← readWideTarget offset)
  return lookupSwitch otherwise cases

/-- What follows the opcode that makes operands wide. -/
def readWide : Reader (Instruction UInt16) := do
  let byte ← Reader.uint8
  match Opcode.ofByte? byte with
  | some (.onVariable op) => return onVariable op (← Reader.uint16)
  | some .increment => return increment (← Reader.uint16) (← Reader.int16)
  | _ => Reader.fail (.unknownWideOpcode byte)

/-- What follows an opcode. -/
def readOperands : Opcode → Reader (Instruction UInt16)
  | .plain op => return plain op
  | .pushByte => return pushByte (← Reader.int8)
  | .pushShort => return pushShort (← Reader.int16)
  | .load => return load (← pool.loadableAt (← Reader.uint8).toUInt16)
  | .loadWide => return load (← pool.loadableAt (← Reader.uint16))
  | .loadDouble => return load (← pool.loadableAt (← Reader.uint16))
  | .onVariable op => return onVariable op (← Reader.uint8).toUInt16
  | .onVariableAt op index => return onVariable op (UInt16.ofNat index.val)
  | .increment => return increment (← Reader.uint8).toUInt16 (← Reader.int8).toInt16
  | .branch condition => return branch condition (← readTarget offset)
  | .jump op => return jump op (← readTarget offset)
  | .jumpWide op => return jump op (← readWideTarget offset)
  | .tableSwitch => readTableSwitch offset
  | .lookupSwitch => readLookupSwitch offset
  | .onField op => return onField op (← pool.fieldRefAt (← Reader.uint16))
  | .invokeVirtual => return invokeVirtual (← pool.methodRefAt (← Reader.uint16))
  | .invokeSpecial => do
    let (method, isInterface) ← pool.anyMethodRefAt (← Reader.uint16)
    return invokeSpecial method isInterface
  | .invokeStatic => do
    let (method, isInterface) ← pool.anyMethodRefAt (← Reader.uint16)
    return invokeStatic method isInterface
  | .invokeInterface => do
    let method ← pool.interfaceMethodRefAt (← Reader.uint16)
    -- The number of argument slots, which follows from the descriptor, and a zero.
    let _ ← Reader.uint8
    let _ ← Reader.uint8
    return invokeInterface method
  | .invokeDynamic => do
    let site ← pool.invokeDynamicAt (← Reader.uint16)
    let _ ← Reader.uint16
    return invokeDynamic site
  | .onClass op => return onClass op (← pool.classAt (← Reader.uint16))
  | .newArray => do
    let code ← Reader.uint8
    match ArrayType.ofCode? code with
    | some type => return newArray type
    | none => Reader.fail (.unknownArrayType code)
  | .wide => readWide
  | .multiNewArray => do
    let name ← pool.classAt (← Reader.uint16)
    return multiNewArray name (← Reader.uint8)

/-- The instruction at an offset. -/
def read : Reader (Instruction UInt16) := do
  let byte ← Reader.uint8
  match Opcode.ofByte? byte with
  | some opcode => readOperands pool offset opcode
  | none => Reader.fail (.unknownOpcode byte)

end JvmClass.Instruction
