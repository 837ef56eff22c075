import JvmClass.Attribute
import JvmClass.Instruction
import JvmClass.Label

/-!
# Code

The code of a method as a list of instructions. Places in it are named by labels on the
instructions; `endLabel` names the place after the last one, where ranges can end. Stack map frames
stand with the instruction they describe, and the tables for debugging refer to labels, so nothing
in it depends on how the instructions are encoded.
-/

namespace JvmClass

structure CodeLine where
  label : Option Label
  frame : Option (Frame Label)
  instruction : Instruction Label
deriving DecidableEq

/-- A handler for what is thrown in a range of instructions; without a type it handles
everything. -/
structure ExceptionHandler where
  start : Label
  stop : Label
  handler : Label
  catchType : Option ClassName
deriving DecidableEq

/-- A local variable, with its type as a descriptor, as a signature or as both. -/
structure Variable where
  range : LabelRange
  name : Text
  descriptor : Option Text
  signature : Option Text
  index : UInt16
deriving DecidableEq

structure Code where
  maxStack : UInt16
  maxLocals : UInt16
  lines : List CodeLine
  handlers : List ExceptionHandler
  endLabel : Option Label
  /-- From which labels on the instructions belong to which line of the source. -/
  lineNumbers : Option (List (Label × UInt16))
  localVariables : Option (List Variable)
  /-- All other attributes. -/
  attributes : List Attribute
deriving BEq

end JvmClass
