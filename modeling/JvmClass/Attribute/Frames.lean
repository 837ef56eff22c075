import JvmClass.Frame
import JvmClass.Pool.Writer

/-!
# Stack map frames in bytes

Each frame starts with a tag. Tags up to 127 carry the distance to the frame before in themselves,
the others are followed by it. Writing picks the shorter of the two forms that a frame without or
with one stack value has, and refuses a list with a frame that no tag stands for before it writes
any of it.
-/

namespace JvmClass

namespace VerificationType

def read (pool : Pool) : Reader (VerificationType UInt16) := do
  match ← Reader.uint8 with
  | 0 => return top
  | 1 => return integer
  | 2 => return float
  | 3 => return double
  | 4 => return long
  | 5 => return null
  | 6 => return uninitializedThis
  | 7 => return object (← pool.classAt (← Reader.uint16))
  | 8 => return uninitialized (← Reader.uint16)
  | tag => Reader.fail (.unknownVerificationType tag)

def write : VerificationType UInt16 → PoolM Bytes
  | top => return [0]
  | integer => return [1]
  | float => return [2]
  | double => return [3]
  | long => return [4]
  | null => return [5]
  | uninitializedThis => return [6]
  | object name => return 7 :: Bytes.ofUInt16 (← Pool.putClass name)
  | uninitialized origin => return 8 :: Bytes.ofUInt16 origin

end VerificationType

namespace StackMapFrame

def read (pool : Pool) : Reader StackMapFrame := do
  let tag ← Reader.uint8
  if tag < 64 then
    return ⟨tag.toUInt16, .same⟩
  else if tag < 128 then
    return ⟨(tag - 64).toUInt16, .sameWithStack (← VerificationType.read pool)⟩
  else if tag < 247 then
    Reader.fail (.unknownFrameType tag)
  else
    let offsetDelta ← Reader.uint16
    if tag == 247 then
      return ⟨offsetDelta, .sameWithStack (← VerificationType.read pool)⟩
    else if tag < 251 then
      return ⟨offsetDelta, .chop (251 - tag)⟩
    else if tag == 251 then
      return ⟨offsetDelta, .same⟩
    else if tag < 255 then
      return ⟨offsetDelta, .append (← Reader.many (tag - 251).toNat (VerificationType.read pool))⟩
    else
      let locals ← Reader.list16 (VerificationType.read pool)
      let stack ← Reader.list16 (VerificationType.read pool)
      return ⟨offsetDelta, .full locals stack⟩

def write (frame : StackMapFrame) : PoolM Bytes :=
  let delta := frame.offsetDelta
  match frame.frame with
  | .same => return if delta < 64 then [delta.toUInt8] else 251 :: Bytes.ofUInt16 delta
  | .sameWithStack stack => do
    let head := if delta < 64 then [64 + delta.toUInt8] else 247 :: Bytes.ofUInt16 delta
    return head ++ (← stack.write)
  | .chop removed => return (251 - removed) :: Bytes.ofUInt16 delta
  | .append added => do
    let contents ← PoolM.writeAll VerificationType.write added
    return (251 + UInt8.ofNat added.length) :: Bytes.ofUInt16 delta ++ contents
  | .full locals stack => do
    let locals ← PoolM.writeList 2 VerificationType.write locals
    let stack ← PoolM.writeList 2 VerificationType.write stack
    return 255 :: Bytes.ofUInt16 delta ++ locals ++ stack

/-- Reads `missing` more frames, the first of which has the given index, after the ones already
found, which stand in reverse. -/
def readListFrom (pool : Pool) (index : Nat) : (missing : Nat) → (found : List StackMapFrame) →
    Input → Except Error (List StackMapFrame × Input)
  | 0, found, input => .ok (found.reverse, input)
  | missing + 1, found, input =>
    match Reader.during (.readingFrame index) (read pool) input with
    | .ok (frame, input) => readListFrom pool (index + 1) missing (frame :: found) input
    | .error error => .error error

def readList (pool : Pool) : Reader (List StackMapFrame) := do
  readListFrom pool 0 (← Reader.uint16).toNat []

/-- The first frame that cannot be written, as a failure. -/
def checkAll : List StackMapFrame → Except Error Unit
  | [] => .ok ()
  | frame :: rest => do
    frame.frame.check
    checkAll rest

def writeList (frames : List StackMapFrame) : PoolM Bytes := do
  checkAll frames
  PoolM.writeList 2 write frames

end StackMapFrame

end JvmClass
