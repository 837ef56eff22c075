import JvmClass.Error
import JvmClass.Fault.Message

/-!
# Wording of errors
-/

namespace JvmClass

def ClassPart.name : ClassPart → String
  | interfaces => "interfaces"
  | fields => "fields"
  | methods => "methods"
  | attributes => "attributes"

def Activity.wording : Activity → String
  | number signed bits =>
    let letter := if signed then "i" else "u"
    s!"couldn't read {letter}{bits}, perhaps the data's end is reached?"
  | poolIndex index => s!"while getting pool index {index.toNat}"
  | readingEntry index => s!"while reading pool entry at index {index}"
  | resolvingEntry index => s!"while resolving pool entry at index {index}"
  | addingDependencies => "while adding the entries"
  | attributeBytes length name => s!"while reading the {length} bytes of attribute {name.quoted}"
  | parsingAttribute name scope => s!"while parsing attribute {name.quoted} on {scope.name}"
  | countingAttributes scope => s!"too many attributes on {scope.name}"
  | writingAttribute name scope => s!"while writing attribute {name.quoted} on {scope.name}"
  | sizingAttribute name => s!"attribute {name.quoted} is too large"
  | annotationUse descriptor => s!"in annotation {descriptor.quoted}"
  | readingFrame index => s!"failed to read stack map frame {index}"
  | readingExceptionTable => "while reading the exception table"
  | writingExceptionEntries count => s!"while writing the exception table of {count} entries"
  | atOffset offset => s!"at bytecode offset {offset.toNat}"
  | frame index => s!"in stack map frame {index}"
  | instruction index => s!"for instruction {index}"
  | writingExceptionTable => "while writing the exception table"
  | writingLineNumbers => "while writing the line numbers"
  | localVariable name => s!"for local variable {name.quoted}"
  | writingFrames => "while writing the stack map frames"
  | readingPart part name => s!"while reading the {part.name} of class {name.shown}"
  | countingPart part name => s!"too many {part.name} on class {name.shown}"
  | writingClassAttributes name => s!"while writing the attributes of class {name.shown}"
  | readingField name => s!"while reading field {name.quoted}"
  | writingField name => s!"while writing field {name.quoted}"
  | readingMethod name descriptor => s!"while reading method {name.quoted} {descriptor.quoted}"
  | writingMethod name descriptor => s!"while writing method {name.quoted} {descriptor.quoted}"
  | decodingMethod name descriptor =>
    s!"while decoding the code of method {name.quoted} {descriptor.quoted}"
  | encodingMethod name descriptor =>
    s!"while encoding the code of method {name.quoted} {descriptor.quoted}"

def Error.message (error : Error) : String :=
  error.fault.message

/-- What was being done, from the outermost activity to the innermost. -/
def Error.context (error : Error) : List String :=
  error.trail.map Activity.wording

end JvmClass
