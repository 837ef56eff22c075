import JvmClass.Code
import JvmClass.Code.Outline
import Std.Data.HashSet

/-!
# Disassembly

From bytecode to a list of instructions. Every offset that something refers to becomes a label on
the instruction there, numbered in the order the offsets come up: first the targets of the
instructions, then the exception table, the tables for debugging and the frames. An offset that is
referred to without an instruction starting there is a fault; only ranges may end right after the
last instruction.
-/

namespace JvmClass

/-! ### Labels for offsets -/

/-- The labels given to offsets of bytecode so far. -/
structure OffsetLabels where
  /-- How many bytes the code has. -/
  length : UInt16
  labels : Std.HashMap UInt16 Label
  /-- The offsets with a label, the last one first. -/
  offsets : List UInt16

namespace OffsetLabels

def empty (length : UInt16) : OffsetLabels :=
  ⟨length, ∅, []⟩

/-- The label of an offset, which is the next one if it has none yet. -/
def labelOf (labels : OffsetLabels) (offset : UInt16) : Label × OffsetLabels :=
  match labels.labels[offset]? with
  | some label => (label, labels)
  | none =>
    let label := ⟨UInt32.ofNat labels.labels.size⟩
    (label, ⟨labels.length, labels.labels.insert offset label, offset :: labels.offsets⟩)

def addAll (labels : OffsetLabels) (offsets : List UInt16) : OffsetLabels :=
  offsets.foldl (fun labels offset => (labels.labelOf offset).2) labels

end OffsetLabels

/-- A computation that gives labels to offsets. -/
abbrev Labeling := StateT OffsetLabels (Except Error)

namespace Labeling

def during {α : Type} (activity : Activity) (action : Labeling α) : Labeling α :=
  fun labels => Result.during activity (action labels)

/-- The label of an offset within the code. -/
def labelAt (offset : UInt16) : Labeling Label := fun labels =>
  if offset < labels.length then
    .ok (labels.labelOf offset)
  else
    .error (.ofFault (.labelOutOfBounds offset labels.length))

/-- The label of an offset within the code or right after it. -/
def endLabelAt (offset : Nat) : Labeling Label := fun labels =>
  if offset ≤ labels.length.toNat then
    .ok (labels.labelOf (UInt16.ofNat offset))
  else
    .error (.ofFault (.endLabelOutOfBounds offset labels.length))

/-- The labels around `length` bytes of code. -/
def rangeAt (start length : UInt16) : Labeling LabelRange := do
  let first ← labelAt start
  let last ← endLabelAt (start.toNat + length.toNat)
  return ⟨first, last⟩

def handler (entry : ExceptionEntry) : Labeling ExceptionHandler := do
  let start ← labelAt entry.startOffset
  let stop ← endLabelAt entry.endOffset.toNat
  let handler ← labelAt entry.handlerOffset
  return ⟨start, stop, handler, entry.catchType⟩

def lineNumber (row : LineNumber) : Labeling (Label × UInt16) := do
  return (← labelAt row.startOffset, row.line)

/-- A variable with its type as a descriptor. -/
def describedVariable (row : LocalVariable) : Labeling Variable := do
  return ⟨← rangeAt row.startOffset row.length, row.name, some row.descriptor, none, row.index⟩

/-- A variable with its type as a signature. -/
def signedVariable (row : LocalVariable) : Labeling Variable := do
  return ⟨← rangeAt row.startOffset row.length, row.name, none, some row.descriptor, row.index⟩

end Labeling

/-! ### Tables -/

/-- What the attributes of code say, as far as it becomes part of the list of instructions. -/
structure CodeTables where
  frames : Option (List StackMapFrame)
  lineNumbers : Option (Array (Label × UInt16))
  localVariables : Option (Array Variable)
  /-- The attributes that stay as they are. -/
  others : Array Attribute

namespace CodeTables

def empty : CodeTables :=
  ⟨none, none, none, #[]⟩

/-- Adds what an attribute says. Tables that come in several parts are joined; there can be only one
list of frames. -/
def add (tables : CodeTables) (next : Attribute) : Labeling CodeTables :=
  match next.value with
  | .stackMapTable frames =>
    match tables.frames with
    | none => return { tables with frames := some frames }
    | some _ => throw (Error.ofFault .secondStackMapTable)
  | .lineNumberTable rows => do
    let lines ← rows.mapM Labeling.lineNumber
    return { tables with lineNumbers := some (tables.lineNumbers.getD #[] ++ lines) }
  | .localVariableTable rows => do
    let found ← rows.mapM Labeling.describedVariable
    return { tables with localVariables := some (tables.localVariables.getD #[] ++ found) }
  | .localVariableTypeTable rows => do
    let found ← rows.mapM Labeling.signedVariable
    return { tables with localVariables := some (tables.localVariables.getD #[] ++ found) }
  | _ => return { tables with others := tables.others.push next }

def ofAttributes (attributes : List Attribute) : Labeling CodeTables :=
  attributes.foldlM add empty

end CodeTables

/-- The offset of a frame, given the one of the frame before it. -/
def StackMapFrame.offset? (previous : Option UInt16) (frame : StackMapFrame) : Option UInt16 :=
  match previous with
  | none => some frame.offsetDelta
  | some previous =>
    let offset := previous.toNat + frame.offsetDelta.toNat + 1
    if offset < 65536 then some (UInt16.ofNat offset) else none

/-- Frames by the offset each is at, after the `found` ones, which stand in reverse; there are
`index` of them and the last is at `previous`. -/
def Labeling.framesFrom (index : Nat) (previous : Option UInt16)
    (found : List (UInt16 × Frame Label)) :
    List StackMapFrame → Labeling (List (UInt16 × Frame Label))
  | [] => return found.reverse
  | frame :: rest => do
    match frame.offset? previous with
    | none => throw (Error.ofFault (.frameOffsetOverflow index))
    | some offset =>
      let labeled ← Labeling.during (.frame index) (frame.frame.mapM Labeling.labelAt)
      framesFrom (index + 1) (some offset) ((offset, labeled) :: found) rest

/-! ### Instructions -/

/-- The smallest of some offsets that is not one of `starts`. -/
def firstMisplaced (starts : Std.HashSet UInt16) (offsets : List UInt16) : Option UInt16 :=
  (offsets.filter fun offset => !starts.contains offset).min?

namespace Code

/-- Everything that refers to offsets, with labels in their place. -/
def labelTables (code : CodeAttribute) :
    Labeling (List ExceptionHandler × CodeTables × List (UInt16 × Frame Label)) := do
  let handlers ← Labeling.during .readingExceptionTable (code.exceptionTable.mapM Labeling.handler)
  let tables ← CodeTables.ofAttributes code.attributes
  let frames ← Labeling.framesFrom 0 none [] (tables.frames.getD [])
  return (handlers, tables, frames)

/-- Every label and every frame has to be at an instruction. -/
def checkPlaces (length : UInt16) (starts : Std.HashSet UInt16) (labeled framed : List UInt16) :
    Except Error Unit := do
  match firstMisplaced (starts.insert length) labeled with
  | some offset => throw (Error.ofFault (.offsetWithinInstruction offset))
  | none => pure ()
  match firstMisplaced starts framed with
  | some offset => throw (Error.ofFault (.frameWithinInstruction offset))
  | none => pure ()

/-- The instruction at an offset, with labels for targets. -/
def readLabeled (pool : Pool) (labels : OffsetLabels) (offset : UInt16) :
    Reader (Instruction Label) := do
  let instruction ← Instruction.read pool offset
  instruction.mapM fun target =>
    match labels.labels[target]? with
    | some label => return label
    | none => Reader.fail (.unlabeledTarget target)

/-- The list of instructions that bytecode stands for. -/
def disassemble (pool : Pool) (code : CodeAttribute) : Except Error Code := do
  if code.code.isEmpty || CodeAttribute.maxLength < code.code.length then
    throw (Error.ofFault (.codeLengthOutOfBounds code.code.length))
  let length := UInt16.ofNat code.code.length
  let outline ← Outline.ofCode length code.code
  let ((handlers, tables, frames), labels) ←
    labelTables code ((OffsetLabels.empty length).addAll outline.targets)
  let starts := Std.HashSet.ofList (outline.map Prod.fst)
  checkPlaces length starts labels.offsets (frames.map Prod.fst)
  let frameAt := Std.HashMap.ofList frames
  let instructions ← sweep (readLabeled pool labels) code.code
  return {
    maxStack := code.maxStack
    maxLocals := code.maxLocals
    lines := instructions.map fun (offset, instruction) =>
      ⟨labels.labels[offset]?, frameAt[offset]?, instruction⟩
    handlers := handlers
    endLabel := labels.labels[length]?
    lineNumbers := tables.lineNumbers.map Array.toList
    localVariables := tables.localVariables.map Array.toList
    attributes := tables.others.toList
  }

end Code

end JvmClass
