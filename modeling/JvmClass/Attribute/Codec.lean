import JvmClass.Attribute.Elements
import JvmClass.Attribute.Frames
import JvmClass.Attribute.Tables

/-!
# Attributes in bytes

An attribute is stored as its name, the length of its contents and the contents. Contents are
understood by name, and only in a scope where that kind of attribute is allowed; all others are kept
as they are. Contents that are understood have to be used up exactly. Only the code of a method has
attributes inside it, and code is not understood within code, so attributes nest no deeper than
that.
-/

namespace JvmClass

/-! ### Reading -/

/-- Bytecode with its tables, given how to read the attributes inside it. -/
def CodeAttribute.readWith (pool : Pool) (attributes : Reader (List Attribute)) :
    Reader CodeAttribute := do
  let maxStack ← Reader.uint16
  let maxLocals ← Reader.uint16
  let length := (← Reader.uint32).toNat
  if length == 0 || CodeAttribute.maxLength < length then
    Reader.fail (.codeLengthOutOfBounds length)
  let code ← Reader.bytes length
  let exceptionTable ← Reader.during .readingExceptionTable
    (Reader.list16 (ExceptionEntry.read pool))
  return ⟨maxStack, maxLocals, code, exceptionTable, ← attributes⟩

/-- The contents of an attribute of a kind; `inner` reads the attributes inside code. -/
def AttributeValue.readContents (pool : Pool) (inner : Reader (List Attribute)) :
    AttributeKind → Reader AttributeValue
  | .constantValue => return .constantValue (← pool.constantValueAt (← Reader.uint16))
  | .code => return .code (← CodeAttribute.readWith pool inner)
  | .stackMapTable => return .stackMapTable (← StackMapFrame.readList pool)
  | .exceptions => return .exceptions (← Reader.list16 (Reader.className pool))
  | .innerClasses => return .innerClasses (← Reader.list16 (InnerClass.read pool))
  | .enclosingMethod => return .enclosingMethod (← EnclosingMethod.read pool)
  | .synthetic => return .synthetic
  | .signature => return .signature (← Reader.utf8 pool)
  | .sourceFile => return .sourceFile (← Reader.utf8 pool)
  | .sourceDebugExtension => return .sourceDebugExtension (← Reader.remainder)
  | .lineNumberTable => return .lineNumberTable (← Reader.list16 LineNumber.read)
  | .localVariableTable => return .localVariableTable (← Reader.list16 (LocalVariable.read pool))
  | .localVariableTypeTable =>
    return .localVariableTypeTable (← Reader.list16 (LocalVariable.read pool))
  | .deprecated => return .deprecated
  | .runtimeVisibleAnnotations => return .runtimeVisibleAnnotations (← AnnotationUse.readList pool)
  | .runtimeInvisibleAnnotations =>
    return .runtimeInvisibleAnnotations (← AnnotationUse.readList pool)
  | .runtimeVisibleParameterAnnotations =>
    return .runtimeVisibleParameterAnnotations (← ParameterAnnotations.read pool)
  | .runtimeInvisibleParameterAnnotations =>
    return .runtimeInvisibleParameterAnnotations (← ParameterAnnotations.read pool)
  | .annotationDefault => return .annotationDefault (← ElementValue.read pool)
  | .bootstrapMethods => return .bootstrapMethods (← Reader.list16 (BootstrapMethod.read pool))
  | .methodParameters => return .methodParameters (← Reader.list8 (MethodParameter.read pool))
  | .nestHost => return .nestHost (← Reader.className pool)
  | .nestMembers => return .nestMembers (← Reader.list16 (Reader.className pool))
  | .permittedSubclasses => return .permittedSubclasses (← Reader.list16 (Reader.className pool))

namespace Attribute

/-- The kind of an attribute that is understood under a name in a scope. -/
def kindIn? (scope : Scope) (name : Text) : Option AttributeKind :=
  (AttributeKind.ofName? name).filter (·.allowedIn scope)

/-- The value that the contents of an attribute stand for; `inner` reads the attributes inside
code. -/
def parseWith (pool : Pool) (inner : Reader (List Attribute)) (scope : Scope) (name : Text)
    (contents : Bytes) : Except Error AttributeValue :=
  match kindIn? scope name with
  | none => .ok (.unknown contents)
  | some kind =>
    match AttributeValue.readContents pool inner kind (Input.ofBytes contents) with
    | .error error => .error error
    | .ok (value, input) =>
      if input.rest.isEmpty then
        .ok value
      else
        .error (.ofFault (.trailingBytes name contents.length input.position))

/-- An attribute, given how to read the ones inside code. -/
def readWith (pool : Pool) (inner : Reader (List Attribute)) (scope : Scope) :
    Reader Attribute := do
  let name ← Reader.utf8 pool
  let length := (← Reader.uint32).toNat
  let contents ← Reader.during (.attributeBytes length name) (Reader.bytes length)
  let value ← Result.during (.parsingAttribute name scope)
    (parseWith pool inner scope name contents)
  return ⟨name, value⟩

/-- The attributes inside code. None of them has attributes inside it. -/
def readInner (pool : Pool) : Reader (List Attribute) :=
  Reader.list16 (readWith pool (pure []) .codeScope)

/-- The value that the contents of an attribute stand for. -/
def parse (pool : Pool) (scope : Scope) (name : Text) (contents : Bytes) :
    Except Error AttributeValue :=
  parseWith pool (readInner pool) scope name contents

def readList (pool : Pool) (scope : Scope) : Reader (List Attribute) :=
  Reader.list16 (readWith pool (readInner pool) scope)

end Attribute

/-! ### Writing -/

namespace Attribute

/-- The first name of a kind of attribute that was there before, as a failure. Attributes that are
not understood may repeat. -/
def checkDistinct (scope : Scope) : (seen : List Text) → List Attribute → Except Error Unit
  | _, [] => .ok ()
  | seen, first :: rest =>
    if (AttributeKind.ofName? first.name).isNone then
      checkDistinct scope seen rest
    else if seen.contains first.name then
      .error (.ofFault (.duplicateAttribute first.name scope))
    else
      checkDistinct scope (first.name :: seen) rest

/-- The number of attributes of something, which have to be distinct. -/
def writeCount (scope : Scope) (attributes : List Attribute) : Except Error Bytes := do
  checkDistinct scope [] attributes
  Result.during (.countingAttributes scope) (Bytes.ofCount 2 attributes.length)

/-- A value that is understood has to be under its own name, in a scope where it is allowed. -/
def check (scope : Scope) (name : Text) (value : AttributeValue) : Except Error Unit :=
  match value.kind? with
  | none => .ok ()
  | some kind =>
    if kind.text != name then
      .error (.ofFault (.wrongValue name kind))
    else if !kind.allowedIn scope then
      .error (.ofFault (.notAllowed name scope))
    else
      .ok ()

/-- An attribute around its contents. -/
def writeEnvelope (name : Text) (contents : Bytes) : PoolM Bytes := do
  let nameIndex ← Pool.putUtf8 name
  let length ← Result.during (.sizingAttribute name) (Bytes.ofCount 4 contents.length)
  return Bytes.ofUInt16 nameIndex ++ length ++ contents

end Attribute

/-- Bytecode has at least one byte, and no more than a length of sixteen bits can count. -/
def CodeAttribute.checkLength (code : Bytes) : Except Error Unit :=
  if code.isEmpty then
    .error (.ofFault .noBytecode)
  else if CodeAttribute.maxLength < code.length then
    .error (.ofFault (.bytecodeTooLong code.length))
  else
    .ok ()

/-- Bytecode and exception table, without the attributes that follow. -/
def CodeAttribute.writeHead (code : CodeAttribute) : PoolM Bytes := do
  CodeAttribute.checkLength code.code
  let length ← Bytes.ofCount 4 code.code.length
  let exceptionTable ← PoolM.during (.writingExceptionEntries code.exceptionTable.length)
    (PoolM.writeList 2 ExceptionEntry.write code.exceptionTable)
  return Bytes.ofUInt16 code.maxStack ++ Bytes.ofUInt16 code.maxLocals ++ length ++ code.code
    ++ exceptionTable

mutual

/-- The contents of an attribute with the given value, whatever its name is. -/
def AttributeValue.writeContents : AttributeValue → PoolM Bytes
  | .constantValue value => PoolM.writeIndex (Pool.putConstantValue value)
  | .code code => code.write
  | .stackMapTable frames => StackMapFrame.writeList frames
  | .exceptions classes => PoolM.writeList 2 PoolM.writeClass classes
  | .innerClasses classes => PoolM.writeList 2 InnerClass.write classes
  | .enclosingMethod method => method.write
  | .synthetic => return []
  | .signature text => PoolM.writeUtf8 text
  | .sourceFile name => PoolM.writeUtf8 name
  | .sourceDebugExtension bytes => return bytes
  | .lineNumberTable lines => PoolM.writeList 2 LineNumber.write lines
  | .localVariableTable rows => PoolM.writeList 2 LocalVariable.write rows
  | .localVariableTypeTable rows => PoolM.writeList 2 LocalVariable.write rows
  | .deprecated => return []
  | .runtimeVisibleAnnotations uses => AnnotationUse.writeList uses
  | .runtimeInvisibleAnnotations uses => AnnotationUse.writeList uses
  | .runtimeVisibleParameterAnnotations parameters => parameters.write
  | .runtimeInvisibleParameterAnnotations parameters => parameters.write
  | .annotationDefault value => value.write
  | .bootstrapMethods methods => PoolM.writeList 2 BootstrapMethod.write methods
  | .methodParameters parameters => PoolM.writeList 1 MethodParameter.write parameters
  | .nestHost host => PoolM.writeClass host
  | .nestMembers members => PoolM.writeList 2 PoolM.writeClass members
  | .permittedSubclasses subclasses => PoolM.writeList 2 PoolM.writeClass subclasses
  | .unknown bytes => return bytes

def CodeAttribute.write : CodeAttribute → PoolM Bytes
  | ⟨maxStack, maxLocals, code, exceptionTable, attributes⟩ => do
    let head ← CodeAttribute.writeHead ⟨maxStack, maxLocals, code, exceptionTable, []⟩
    let count ← Attribute.writeCount .codeScope attributes
    let contents ← ExceptT.mk (Attribute.writeFrom .codeScope attributes #[])
    return head ++ count ++ contents

/-- An attribute in a scope, with its name and length. -/
def Attribute.write (scope : Scope) : Attribute → PoolM Bytes
  | ⟨name, value⟩ => do
    let contents ← PoolM.during (.writingAttribute name scope) do
      Attribute.check scope name value
      value.writeContents
    Attribute.writeEnvelope name contents

/-- Writes attributes one after the other, behind what is written already. -/
def Attribute.writeFrom (scope : Scope) : List Attribute → (written : Array UInt8) → Pool →
    Except Error Bytes × Pool
  | [], written, pool => (.ok written.toList, pool)
  | first :: rest, written, pool =>
    match (first.write scope).run pool with
    | (.ok bytes, pool) => Attribute.writeFrom scope rest (written ++ bytes) pool
    | (.error error, pool) => (.error error, pool)

end

namespace Attribute

/-- The contents of an attribute with the given name and value. -/
def writeValue (scope : Scope) (name : Text) (value : AttributeValue) : PoolM Bytes := do
  check scope name value
  value.writeContents

/-- All attributes of something, behind their number. -/
def writeList (scope : Scope) (attributes : List Attribute) : PoolM Bytes := do
  let count ← writeCount scope attributes
  let contents ← ExceptT.mk (writeFrom scope attributes #[])
  return count ++ contents

end Attribute

end JvmClass
