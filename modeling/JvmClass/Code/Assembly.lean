import JvmClass.Code.Layout

/-!
# Assembly

From a list of instructions to bytecode. First the constants of all instructions are added to the
pool, then the instructions are laid out, and then everything that refers to labels is written with
the offsets they got. The tables for debugging and the frames become attributes again, in front of
the others.
-/

namespace JvmClass

/-! ### Constants -/

/-- Adds the constants of lines to the pool, after the operands already found, which stand in
reverse; the first line has the given index. -/
def putOperandsFrom (index : Nat) (found : List Operand) :
    List CodeLine → Pool → Except Error (List Operand) × Pool
  | [], pool => (.ok found.reverse, pool)
  | line :: rest, pool =>
    match (PoolM.during (.instruction index) line.instruction.putOperand).run pool with
    | (.ok operand, pool) => putOperandsFrom (index + 1) (operand :: found) rest pool
    | (.error error, pool) => (.error error, pool)

def putOperands (lines : List CodeLine) : PoolM (List Operand) :=
  ExceptT.mk (putOperandsFrom 0 [] lines)

/-! ### Tables -/

namespace Placement

variable (placement : Placement)

def exceptionEntry (handler : ExceptionHandler) : Except Error ExceptionEntry := do
  let start ← placement.offsetOf handler.start
  let stop ← placement.offsetOf handler.stop
  let handlerOffset ← placement.offsetOf handler.handler
  return ⟨start, stop, handlerOffset, handler.catchType⟩

def lineNumber (line : Label × UInt16) : Except Error LineNumber := do
  return ⟨← placement.offsetOf line.1, line.2⟩

/-- The table of line numbers, if there is one. -/
def lineNumberTables : Option (List (Label × UInt16)) → Except Error (List AttributeValue)
  | none => .ok []
  | some lines => do
    let rows ← Result.during .writingLineNumbers (lines.mapM placement.lineNumber)
    return [.lineNumberTable rows]

/-- The rows of a variable, one for each form that its type has. -/
def variableRows (source : Variable) :
    Except Error (Option LocalVariable × Option LocalVariable) := do
  if source.descriptor.isNone && source.signature.isNone then
    throw (Error.ofFault (.variableWithoutType source.name source.index))
  let (start, length) ← Result.during (.localVariable source.name) (placement.rangeOf source.range)
  let row (type : Text) : LocalVariable := ⟨start, length, source.name, type, source.index⟩
  return (source.descriptor.map row, source.signature.map row)

/-- The tables of variables by descriptor and by signature. An empty one is left out, unless there
would be none at all. -/
def variableTables (sources : List Variable) : Except Error (List AttributeValue) := do
  let rows ← sources.mapM placement.variableRows
  let descriptors := rows.filterMap Prod.fst
  let signatures := rows.filterMap Prod.snd
  let described :=
    if descriptors.isEmpty && !signatures.isEmpty then [] else [.localVariableTable descriptors]
  let signed := if signatures.isEmpty then [] else [.localVariableTypeTable signatures]
  return described ++ signed

/-- The tables of variables, if there are any. -/
def allVariableTables : Option (List Variable) → Except Error (List AttributeValue)
  | none => .ok []
  | some sources => placement.variableTables sources

/-- Frames as stored, after the `found` ones, which stand in reverse and the last of which is at
`previous`. -/
def framesFrom (previous : Option UInt16) (found : List StackMapFrame) :
    List (Frame Label × UInt16) → Except Error (List StackMapFrame)
  | [] => .ok found.reverse
  | (frame, offset) :: rest =>
    match frame.mapM placement.offsetOf with
    | .error error => .error error
    | .ok frame =>
      let delta := match previous with
        | none => offset
        | some previous => offset - previous - 1
      framesFrom (some offset) (⟨delta, frame⟩ :: found) rest

end Placement

namespace Code

/-- The attributes that stand for line numbers, variables and frames. -/
def tableValues (code : Code) (layout : Layout) : Except Error (List AttributeValue) := do
  let lines ← layout.placement.lineNumberTables code.lineNumbers
  let variableTables ← layout.placement.allVariableTables code.localVariables
  let framed := (code.lines.filterMap CodeLine.frame).zip layout.frameOffsets.toList
  let frames ← Result.during .writingFrames (layout.placement.framesFrom none [] framed)
  return lines ++ variableTables ++ if frames.isEmpty then [] else [.stackMapTable frames]

/-- The bytecode for instructions with their constants in the pool. -/
def layOut (code : Code) (operands : List Operand) : Except Error CodeAttribute := do
  let layout ← Layout.settle (code.lines.zip operands) code.endLabel ∅
  if layout.code.isEmpty then
    throw (Error.ofFault .noInstructions)
  if CodeAttribute.maxLength < layout.code.size then
    throw (Error.ofFault (.bytecodeTooLong layout.code.size))
  let exceptionTable ← Result.during .writingExceptionTable
    (code.handlers.mapM layout.placement.exceptionEntry)
  let tables ← code.tableValues layout
  return ⟨code.maxStack, code.maxLocals, layout.code.toList, exceptionTable,
    tables.filterMap Attribute.ofValue? ++ code.attributes⟩

/-- The bytecode that a list of instructions stands for. -/
def assemble (code : Code) : PoolM CodeAttribute := do
  let operands ← putOperands code.lines
  code.layOut operands

end Code

end JvmClass
