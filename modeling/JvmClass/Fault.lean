import JvmClass.Attribute.Kind
import JvmClass.Constant
import JvmClass.Label
import JvmClass.Text.ModifiedUtf8
import JvmClass.Version

/-!
# Faults

Every way in which reading or writing can go wrong, as a cause. A fault is of one of three kinds:
the input is malformed, a value does not fit where it has to be stored, or the values given
contradict each other. What reading and writing themselves rule out has no kind. The wording of a
fault is in `JvmClass.Fault.Message`.
-/

namespace JvmClass

inductive FaultKind where
  | format
  | capacity
  | consistency
  /-- None of the others. -/
  | untyped
deriving DecidableEq, Repr

inductive Fault where
  /-- The data ends within the next `size` bytes. -/
  | unexpectedEnd (size : Nat)
  /-- A count or length does not fit into a number of `bits` bits. -/
  | numberTooLarge (value bits : Nat)
  | malformedText (malformed : Text.ModifiedUtf8.Malformed)
  /-- A text takes more bytes than a `Utf8` constant can have. -/
  | textTooLong (size : Nat)
  | invalidClassName (text : Text)
  -- Constant pool
  | indexZero
  | upperHalf (index : UInt16)
  | indexOutOfBounds (index : UInt16) (count : Nat)
  | unexpectedEntry (wanted : List EntryKind) (index : UInt16) (found : EntryKind)
  | notLoadable (kind : EntryKind)
  | notConstantValue (kind : EntryKind)
  | poolFull (kind : EntryKind) (index : Nat)
  /-- The index remembered for an entry is not where that entry is. -/
  | misremembered (kind : EntryKind) (index : UInt16)
  | emptyPool
  | unknownTag (tag : UInt8)
  | missingUpperHalf (index : Nat)
  | missingEntry (index : UInt16)
  | wrongEntry (wanted : EntryKind) (found : RawEntry)
  | unknownReferenceKind (value : UInt8)
  | handleMismatch (handle : MethodHandle)
  -- Attributes
  | trailingBytes (name : Text) (size read : Nat)
  | wrongValue (name : Text) (held : AttributeKind)
  | notAllowed (name : Text) (scope : Scope)
  | duplicateAttribute (name : Text) (scope : Scope)
  | unknownFrameType (tag : UInt8)
  | unknownVerificationType (tag : UInt8)
  | chopOutOfBounds (removed : UInt8)
  | appendOutOfBounds (added : Nat)
  | constantOutOfRange (value : Int32) (tag : UInt8)
  | notBoolean (value : Int32)
  | unknownElementTag (tag : UInt8)
  | tooManyParameters (count : Nat)
  | codeLengthOutOfBounds (length : Nat)
  | noBytecode
  | bytecodeTooLong (size : Nat)
  -- Disassembly
  | labelOutOfBounds (offset length : UInt16)
  | endLabelOutOfBounds (offset : Nat) (length : UInt16)
  | branchOutOfBounds (branch : Int) (offset : UInt16)
  | switchBoundsReversed (low high : Int32)
  | negativePairCount (count : Int32)
  | unknownOpcode (byte : UInt8)
  | unknownWideOpcode (byte : UInt8)
  | unknownArrayType (code : UInt8)
  | secondStackMapTable
  | frameOffsetOverflow (frame : Nat)
  | offsetWithinInstruction (offset : UInt16)
  | frameWithinInstruction (offset : UInt16)
  /-- A branch target that no label was made for. -/
  | unlabeledTarget (offset : UInt16)
  -- Assembly
  | labelPlacedTwice (label : Label) (first second : UInt16)
  | labelNotPlaced (label : Label)
  | rangeReversed (range : LabelRange) (start stop : UInt16)
  | wrongTableSize (low high : Int32) (expected : Int) (size : Nat)
  | keysNotAscending (key next : Int32)
  | malformedDescriptor (descriptor : Text)
  | tooManyArgumentSlots (descriptor : Text) (slots : Nat)
  | bytecodeOverflow
  | branchPastEnd (instruction : Nat) (label : Label)
  /-- A branch was to be widened that has no wider form left. -/
  | branchUnsettled (instruction : Nat)
  | noInstructions
  | variableWithoutType (name : Text) (index : UInt16)
  -- Classes
  | wrongMagic (magic : UInt32)
  | unsupportedVersion (version : Version)
  | secondCode (name descriptor : Text)
  | codeAndCodeAttribute (name descriptor : Text)
deriving DecidableEq

namespace Fault

def kind : Fault → FaultKind
  | unexpectedEnd .. | malformedText .. | invalidClassName .. => .format
  | indexZero | upperHalf .. | indexOutOfBounds .. | unexpectedEntry .. => .format
  | notLoadable .. | notConstantValue .. => .format
  | emptyPool | unknownTag .. | missingUpperHalf .. | missingEntry .. | wrongEntry .. => .format
  | unknownReferenceKind .. => .format
  | trailingBytes .. | unknownFrameType .. | unknownVerificationType .. => .format
  | chopOutOfBounds .. | appendOutOfBounds .. => .format
  | constantOutOfRange .. | notBoolean .. | unknownElementTag .. => .format
  | codeLengthOutOfBounds .. | noBytecode | noInstructions => .format
  | labelOutOfBounds .. | endLabelOutOfBounds .. | branchOutOfBounds .. => .format
  | switchBoundsReversed .. | negativePairCount .. => .format
  | unknownOpcode .. | unknownWideOpcode .. | unknownArrayType .. => .format
  | secondStackMapTable | frameOffsetOverflow .. => .format
  | offsetWithinInstruction .. | frameWithinInstruction .. => .format
  | wrongTableSize .. | keysNotAscending .. | malformedDescriptor .. => .format
  | wrongMagic .. | unsupportedVersion .. | secondCode .. => .format
  | numberTooLarge .. | textTooLong .. | poolFull .. | tooManyParameters .. => .capacity
  | bytecodeTooLong .. | bytecodeOverflow | tooManyArgumentSlots .. => .capacity
  | misremembered .. | handleMismatch .. => .consistency
  | wrongValue .. | notAllowed .. | duplicateAttribute .. => .consistency
  | labelPlacedTwice .. | labelNotPlaced .. | rangeReversed .. | branchPastEnd .. => .consistency
  | variableWithoutType .. | codeAndCodeAttribute .. => .consistency
  | unlabeledTarget .. | branchUnsettled .. => .untyped

end Fault

end JvmClass
