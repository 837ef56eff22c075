import JvmClass.Attribute.Codec
import JvmClass.ClassFile
import JvmClass.Code.Assembly

/-!
# Writing class files

The body of a class file is written first, since that is what adds the missing constants; the pool
that comes before it in the file is then complete. Constants are only added, so whatever referred to
the pool before still does. Nothing is put out until the body is done.
-/

namespace JvmClass

def Field.write (field : Field) : PoolM Bytes := do
  let name ← Pool.putUtf8 field.name
  let descriptor ← Pool.putUtf8 field.descriptor
  let attributes ← PoolM.during (.writingField field.name)
    (Attribute.writeList .fieldScope field.attributes)
  return Bytes.ofUInt16 field.access ++ Bytes.ofUInt16 name ++ Bytes.ofUInt16 descriptor
    ++ attributes

namespace Method

/-- The attribute for the code of a method, which must not have another one of that name. -/
def codeAttribute (method : Method) : PoolM (List Attribute) :=
  match method.code with
  | none => return []
  | some code => do
    if method.attributes.any fun other => other.name == AttributeKind.code.text then
      PoolM.fail (.codeAndCodeAttribute method.name method.descriptor)
    let bytecode ← PoolM.during (.encodingMethod method.name method.descriptor) code.assemble
    return (Attribute.ofValue? (.code bytecode)).toList

/-- A method, with its code as the first attribute. -/
def write (method : Method) : PoolM Bytes := do
  let name ← Pool.putUtf8 method.name
  let descriptor ← Pool.putUtf8 method.descriptor
  let code ← method.codeAttribute
  let attributes ← PoolM.during (.writingMethod method.name method.descriptor)
    (Attribute.writeList .methodScope (code ++ method.attributes))
  return Bytes.ofUInt16 method.access ++ Bytes.ofUInt16 name ++ Bytes.ofUInt16 descriptor
    ++ attributes

end Method

namespace ClassFile

/-- A list that is part of a class, behind its length. -/
def writePart {α : Type} (name : ClassName) (part : ClassPart) (write : α → PoolM Bytes)
    (values : List α) : PoolM Bytes := do
  let count ← Result.during (.countingPart part name) (Bytes.ofCount 2 values.length)
  let contents ← PoolM.writeAll write values
  return count ++ contents

/-- What stands between the constant pool and the methods. -/
def writeHead (file : ClassFile) : PoolM Bytes := do
  let name ← Pool.putClass file.name
  let superClass ← Pool.putOptional Pool.putClass file.superClass
  let interfaces ← writePart file.name .interfaces PoolM.writeClass file.interfaces
  let fields ← writePart file.name .fields Field.write file.fields
  return Bytes.ofUInt16 file.access ++ Bytes.ofUInt16 name ++ Bytes.ofUInt16 superClass
    ++ interfaces ++ fields

/-- Everything that follows the constant pool. -/
def writeBody (file : ClassFile) : PoolM Bytes := do
  let head ← file.writeHead
  let methods ← writePart file.name .methods Method.write file.methods
  let attributes ← PoolM.during (.writingClassAttributes file.name)
    (Attribute.writeList .classScope file.attributes)
  return head ++ methods ++ attributes

/-- What a class file starts with. -/
def header (file : ClassFile) : Bytes :=
  Bytes.ofUInt32 magic ++ Bytes.ofUInt16 file.version.minor ++ Bytes.ofUInt16 file.version.major

def write (file : ClassFile) : Output :=
  match file.writeBody.run file.pool with
  | (.error error, _) => ⟨[], some error⟩
  | (.ok body, pool) =>
    let ⟨constants, failure⟩ := pool.write
    match failure with
    | some error => ⟨file.header ++ constants, some error⟩
    | none => ⟨file.header ++ constants ++ body, none⟩

end ClassFile

end JvmClass
