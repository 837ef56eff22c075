import JvmClass.Attribute.Codec
import JvmClass.ClassFile
import JvmClass.Code.Disassembly

/-!
# Reading class files

A class file is read from its start and to the end of its last attribute; what follows is not looked
at. The bytecode of each method is turned into a list of instructions as soon as the method is read.
-/

namespace JvmClass

def Field.read (pool : Pool) : Reader Field := do
  let access ← Reader.uint16
  let name ← Reader.utf8 pool
  let descriptor ← Reader.utf8 pool
  let attributes ← Reader.during (.readingField name) (Attribute.readList pool .fieldScope)
  return ⟨access, name, descriptor, attributes⟩

namespace Method

/-- Splits the attributes of a method into its code and all others, after the ones already seen;
`others` stands in reverse. -/
def splitCodeFrom (pool : Pool) (name descriptor : Text) (code : Option Code)
    (others : List Attribute) : List Attribute → Except Error (Option Code × List Attribute)
  | [] => .ok (code, others.reverse)
  | first :: rest =>
    match first.value with
    | .code bytecode =>
      if code.isSome then
        .error (.ofFault (.secondCode name descriptor))
      else
        match Result.during (.decodingMethod name descriptor) (Code.disassemble pool bytecode) with
        | .ok code => splitCodeFrom pool name descriptor (some code) others rest
        | .error error => .error error
    | _ => splitCodeFrom pool name descriptor code (first :: others) rest

def read (pool : Pool) : Reader Method := do
  let access ← Reader.uint16
  let name ← Reader.utf8 pool
  let descriptor ← Reader.utf8 pool
  let attributes ← Reader.during (.readingMethod name descriptor)
    (Attribute.readList pool .methodScope)
  let (code, others) ← splitCodeFrom pool name descriptor none [] attributes
  return ⟨access, name, descriptor, code, others⟩

end Method

namespace ClassFile

def readVersion : Reader Version := do
  let minor ← Reader.uint16
  let major ← Reader.uint16
  let version := ⟨major, minor⟩
  if !version.isSupported then
    Reader.fail (.unsupportedVersion version)
  return version

def read : Reader ClassFile := do
  let magic ← Reader.uint32
  if magic != ClassFile.magic then
    Reader.fail (.wrongMagic magic)
  let version ← readVersion
  let pool ← Pool.read
  let access ← Reader.uint16
  let name ← Reader.className pool
  let superClass ← Reader.optionalClassName pool
  let interfaces ← Reader.during (.readingPart .interfaces name)
    (Reader.list16 (Reader.className pool))
  let fields ← Reader.during (.readingPart .fields name) (Reader.list16 (Field.read pool))
  let methods ← Reader.during (.readingPart .methods name) (Reader.list16 (Method.read pool))
  let attributes ← Reader.during (.readingPart .attributes name)
    (Attribute.readList pool .classScope)
  return ⟨version, access, name, superClass, interfaces, fields, methods, attributes, pool⟩

end ClassFile

end JvmClass
