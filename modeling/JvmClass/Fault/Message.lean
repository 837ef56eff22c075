import JvmClass.Fault
import JvmClass.Text.Quoted

/-!
# Wording of faults

What a fault says to a person. The values that a message shows have one form each, defined first;
`Fault.message` is the only place where the wording of a fault is chosen.
-/

namespace JvmClass

/-! ### Values in messages -/

def ClassName.shown (name : ClassName) : String :=
  "ClassName(" ++ name.text.quoted ++ ")"

def Label.shown (label : Label) : String :=
  s!"Label \x7b id: {label.id.toNat} \x7d"

def LabelRange.shown (range : LabelRange) : String :=
  s!"LabelRange \x7b start: {range.start.shown}, end: {range.stop.shown} \x7d"

/-- A name followed by named fields. -/
def showFields (name : String) (fields : List (String × String)) : String :=
  let shown := fields.map fun (field, value) => field ++ ": " ++ value
  name ++ " \x7b " ++ ", ".intercalate shown ++ " \x7d"

def MemberRef.shown (member : MemberRef) : String :=
  showFields "MemberRef" [("class", member.className.shown), ("name", member.name.quoted),
    ("descriptor", member.descriptor.quoted)]

def HandleReference.shown : HandleReference → String
  | field member => s!"Field({member.shown})"
  | method member => s!"Method({member.shown})"
  | interfaceMethod member => s!"InterfaceMethod({member.shown})"

/-- The fields of a stored entry, under the names the class file format gives them. -/
def RawEntry.shownFields : RawEntry → List (String × String)
  | utf8 text => [("string", text.quoted)]
  | integer value => [("bytes", toString value.toInt)]
  | float bits => [("bytes", toString bits.toNat)]
  | long value => [("bytes", toString value.toInt)]
  | double bits => [("bytes", toString bits.toNat)]
  | classRef name => [("name_index", toString name.toNat)]
  | string text => [("string_index", toString text.toNat)]
  | fieldRef owner member =>
    [("class_index", toString owner.toNat), ("name_and_type_index", toString member.toNat)]
  | methodRef owner member =>
    [("class_index", toString owner.toNat), ("name_and_type_index", toString member.toNat)]
  | interfaceMethodRef owner member =>
    [("class_index", toString owner.toNat), ("name_and_type_index", toString member.toNat)]
  | nameAndType name descriptor =>
    [("name_index", toString name.toNat), ("descriptor_index", toString descriptor.toNat)]
  | methodHandle kind reference =>
    [("reference_kind", toString kind.toNat), ("reference_index", toString reference.toNat)]
  | methodType descriptor => [("descriptor_index", toString descriptor.toNat)]
  | dynamic bootstrap member =>
    [("bootstrap_method_attr_index", toString bootstrap.toNat),
      ("name_and_type_index", toString member.toNat)]
  | invokeDynamic bootstrap member =>
    [("bootstrap_method_attr_index", toString bootstrap.toNat),
      ("name_and_type_index", toString member.toNat)]
  | moduleRef name => [("name_index", toString name.toNat)]
  | packageRef name => [("name_index", toString name.toNat)]

def RawEntry.shown (entry : RawEntry) : String :=
  showFields entry.kind.name entry.shownFields

def showLength : Option Nat → String
  | none => "None"
  | some n => s!"Some({n})"

/-- A number in base sixteen. -/
def showHex (n : Nat) : String :=
  "0x" ++ Text.hexDigits n

/-! ### Messages -/

def FaultKind.name : FaultKind → String
  | format => "format"
  | capacity => "capacity"
  | consistency => "consistency"
  | untyped => "untyped"

/-- The cause in words, without its kind. -/
def Fault.wording : Fault → String
  | unexpectedEnd size =>
    s!"unexpected end of data while reading {size} bytes: failed to fill whole buffer"
  | numberTooLarge value bits =>
    s!"failed to convert {value} to u{bits} for writing: value too large"
  | malformedText malformed =>
    "invalid modified utf8 contents: "
      ++ showFields "Utf8Error"
        [("valid_up_to", toString malformed.validUpTo), ("error_len", showLength malformed.length)]
  | textTooLong size =>
    s!"string of {size} bytes in modified utf8 doesn't fit into an utf8 pool entry"
  | invalidClassName text =>
    s!"invalid class name {text.quoted}: must be non-empty and not contain any of `.`, `;`, `[` "
      ++ "(except for arrays) and empty segments"
  | indexZero => "constant pool index 0 is never valid"
  | upperHalf index => s!"constant pool index {index.toNat} is the upper half of a long or double"
  | indexOutOfBounds index count =>
    s!"constant pool index {index.toNat} is out of bounds, the pool count is {count}"
  | unexpectedEntry wanted index found =>
    let names := " or ".intercalate (wanted.map EntryKind.name)
    s!"expected `{names}` pool entry at index {index.toNat}, got `{found.name}`"
  | notLoadable kind => s!"pool entry is not loadable: {kind.name}"
  | notConstantValue kind =>
    s!"pool entry may not be used in a `ConstantValue` attribute: {kind.name}"
  | poolFull kind index => s!"constant pool is full: cannot add {kind.name} entry at index {index}"
  | misremembered kind index =>
    s!"constant pool map points to index {index.toNat} for an entry of kind {kind.name} "
      ++ "that is not there"
  | emptyPool => "constant pool count must be at least 1"
  | unknownTag tag => s!"unknown constant pool tag {tag.toNat}"
  | missingUpperHalf index =>
    s!"long or double pool entry at index {index} is the last one, so its second slot is missing"
  | missingEntry index =>
    s!"pool entry at index {index.toNat} is not there: either index zero, too large or "
      ++ "the upper half of long or double"
  | wrongEntry wanted found => s!"pool entry not `{wanted.name}`: {found.shown}"
  | unknownReferenceKind value =>
    s!"unknown `reference_kind` {value.toNat} for `MethodHandle` pool entry"
  | handleMismatch handle =>
    s!"method handle of kind {handle.kind.name} cannot refer to {handle.reference.shown}"
  | trailingBytes name size read =>
    s!"attribute {name.quoted} has {size} bytes, but only {read} of them were read"
  | wrongValue name held =>
    s!"attribute named {name.quoted} holds a value of a Some({held.text.quoted}) attribute"
  | notAllowed name scope => s!"attribute {name.quoted} isn't allowed on a {scope.name}"
  | duplicateAttribute name scope =>
    s!"{name.quoted} attribute is present more than once on the same {scope.name}"
  | unknownFrameType tag => s!"unknown stack map frame type {tag.toNat}"
  | unknownVerificationType tag => s!"unknown verification_type_info tag {tag.toNat}"
  | chopOutOfBounds removed =>
    s!"chop frame must remove between 1 and 3 locals, got {removed.toNat}"
  | appendOutOfBounds added => s!"append frame must add between 1 and 3 locals, got {added}"
  | constantOutOfRange value tag =>
    s!"constant {value.toInt} is out of range for element value tag {Text.quotedChar tag.toNat}"
  | notBoolean value => s!"constant {value.toInt} is not a boolean"
  | unknownElementTag tag => s!"unknown element_value tag {Text.quotedChar tag.toNat}"
  | tooManyParameters count =>
    s!"annotations for {count} parameters given, but at most 255 can be stored"
  | codeLengthOutOfBounds length =>
    s!"`code_length` must be greater than zero and less than 65536, got {length}"
  | noBytecode => "cannot write a `Code` attribute without any bytecode"
  | bytecodeTooLong size =>
    s!"bytecode of {size} bytes is too long, at most 65535 bytes are allowed"
  | labelOutOfBounds offset length =>
    s!"label for bytecode offset {offset.toNat} out of bounds for code length {length.toNat}"
  | endLabelOutOfBounds offset length =>
    s!"label for exclusive bytecode offset {offset} out of bounds for code length {length.toNat}"
  | branchOutOfBounds branch offset =>
    s!"branch offset {branch} from bytecode offset {offset.toNat} goes out of bounds"
  | switchBoundsReversed low high =>
    "in tableswitch `low` must be lower or equal to `high`, "
      ++ s!"it's low={low.toInt} and high={high.toInt}"
  | negativePairCount count => s!"in lookupswitch `npairs` must not be negative, it's {count.toInt}"
  | unknownOpcode byte => s!"unknown opcode {showHex byte.toNat}"
  | unknownWideOpcode byte => s!"unknown wide opcode {showHex byte.toNat}"
  | unknownArrayType code => s!"unknown array type {showHex code.toNat}"
  | secondStackMapTable => "only one `StackMapTable` attribute is allowed"
  | frameOffsetOverflow frame => s!"offset of stack map frame {frame} overflows"
  | offsetWithinInstruction offset =>
    s!"bytecode offset {offset.toNat} is referenced, but no instruction starts there"
  | frameWithinInstruction offset =>
    s!"stack map frame at bytecode offset {offset.toNat} isn't at the start of an instruction"
  | unlabeledTarget offset =>
    s!"no label at bytecode offset {offset.toNat}, even though all branch targets got one"
  | labelPlacedTwice label first second =>
    s!"label {label.shown} is placed twice, at bytecode offsets {first.toNat} and {second.toNat}"
  | labelNotPlaced label => s!"label {label.shown} isn't placed at any instruction"
  | rangeReversed range start stop =>
    s!"range {range.shown} ends at bytecode offset {stop.toNat} before its start at {start.toNat}"
  | wrongTableSize low high expected size =>
    s!"`tableswitch` from {low.toInt} to {high.toInt} must have {expected} targets, got {size}"
  | keysNotAscending key next =>
    s!"`lookupswitch` keys must be strictly ascending, got {key.toInt} before {next.toInt}"
  | malformedDescriptor descriptor => s!"malformed method descriptor {descriptor.quoted}"
  | tooManyArgumentSlots descriptor slots =>
    s!"arguments of {descriptor.quoted} take {slots} slots, "
      ++ "at most 255 are allowed for `invokeinterface`"
  | bytecodeOverflow => "bytecode exceeds 65535 bytes"
  | branchPastEnd instruction label =>
    s!"instruction {instruction} branches to label {label.shown} after the last instruction"
  | branchUnsettled instruction =>
    s!"the branch of instruction {instruction} has no form that is wide enough"
  | noInstructions => "cannot write code without any instructions"
  | variableWithoutType name index =>
    s!"local variable {name.quoted} at index {index.toNat} has neither a descriptor nor a signature"
  | wrongMagic magic => s!"wrong magic: got {showHex magic.toNat}, expected 0xCAFEBABE"
  | unsupportedVersion version =>
    s!"unsupported class file version {version}, the latest supported one is {Version.latest}"
  | secondCode name descriptor =>
    s!"method {name.quoted} {descriptor.quoted} has more than one `Code` attribute"
  | codeAndCodeAttribute name descriptor =>
    s!"method {name.quoted} {descriptor.quoted} has both code and a `Code` attribute"

def Fault.message (fault : Fault) : String :=
  match fault.kind with
  | .untyped => fault.wording
  | kind => s!"{kind.name} error: {fault.wording}"

end JvmClass
