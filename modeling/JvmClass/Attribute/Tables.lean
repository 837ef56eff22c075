import JvmClass.Attribute
import JvmClass.Pool.Writer

/-!
# Rows of attributes

The parts of the attributes with a flat layout: each is a fixed sequence of numbers and of
references into the pool, some of which may be left out. Reading and writing are given side by side.
-/

namespace JvmClass

/-! ### References -/

namespace Reader

def utf8 (pool : Pool) : Reader Text := do
  pool.utf8At (← uint16)

def className (pool : Pool) : Reader ClassName := do
  pool.classAt (← uint16)

def optionalUtf8 (pool : Pool) : Reader (Option Text) := do
  Pool.optionalAt Pool.utf8At pool (← uint16)

def optionalClassName (pool : Pool) : Reader (Option ClassName) := do
  Pool.optionalAt Pool.classAt pool (← uint16)

end Reader

namespace PoolM

def writeUtf8 (text : Text) : PoolM Bytes :=
  writeIndex (Pool.putUtf8 text)

def writeClass (name : ClassName) : PoolM Bytes :=
  writeIndex (Pool.putClass name)

end PoolM

/-! ### Rows -/

namespace InnerClass

def read (pool : Pool) : Reader InnerClass := do
  let innerClass ← Reader.className pool
  let outerClass ← Reader.optionalClassName pool
  let innerName ← Reader.optionalUtf8 pool
  let flags ← Reader.uint16
  return ⟨innerClass, outerClass, innerName, flags⟩

def write (row : InnerClass) : PoolM Bytes := do
  let innerClass ← Pool.putClass row.innerClass
  let outerClass ← Pool.putOptional Pool.putClass row.outerClass
  let innerName ← Pool.putOptional Pool.putUtf8 row.innerName
  return Bytes.ofUInt16 innerClass ++ Bytes.ofUInt16 outerClass ++ Bytes.ofUInt16 innerName
    ++ Bytes.ofUInt16 row.flags

end InnerClass

namespace EnclosingMethod

def read (pool : Pool) : Reader EnclosingMethod := do
  let className ← Reader.className pool
  let method ← Pool.optionalAt Pool.nameAndTypeAt pool (← Reader.uint16)
  return ⟨className, method⟩

def write (value : EnclosingMethod) : PoolM Bytes := do
  let className ← Pool.putClass value.className
  let method ← Pool.putOptional Pool.putNameAndType value.method
  return Bytes.ofUInt16 className ++ Bytes.ofUInt16 method

end EnclosingMethod

namespace BootstrapMethod

def read (pool : Pool) : Reader BootstrapMethod := do
  let handle ← pool.methodHandleAt (← Reader.uint16)
  let arguments ← Reader.list16 do pool.loadableAt (← Reader.uint16)
  return ⟨handle, arguments⟩

def write (method : BootstrapMethod) : PoolM Bytes := do
  let handle ← Pool.putMethodHandle method.handle
  let arguments ← PoolM.writeList 2 (fun argument => PoolM.writeIndex (Pool.putLoadable argument))
    method.arguments
  return Bytes.ofUInt16 handle ++ arguments

end BootstrapMethod

namespace MethodParameter

def read (pool : Pool) : Reader MethodParameter := do
  let name ← Reader.optionalUtf8 pool
  let flags ← Reader.uint16
  return ⟨name, flags⟩

def write (parameter : MethodParameter) : PoolM Bytes := do
  let name ← Pool.putOptional Pool.putUtf8 parameter.name
  return Bytes.ofUInt16 name ++ Bytes.ofUInt16 parameter.flags

end MethodParameter

namespace LineNumber

def read : Reader LineNumber := do
  let startOffset ← Reader.uint16
  let line ← Reader.uint16
  return ⟨startOffset, line⟩

def write (row : LineNumber) : PoolM Bytes :=
  return Bytes.ofUInt16 row.startOffset ++ Bytes.ofUInt16 row.line

end LineNumber

namespace LocalVariable

def read (pool : Pool) : Reader LocalVariable := do
  let startOffset ← Reader.uint16
  let length ← Reader.uint16
  let name ← Reader.utf8 pool
  let descriptor ← Reader.utf8 pool
  let index ← Reader.uint16
  return ⟨startOffset, length, name, descriptor, index⟩

def write (row : LocalVariable) : PoolM Bytes := do
  let name ← Pool.putUtf8 row.name
  let descriptor ← Pool.putUtf8 row.descriptor
  return Bytes.ofUInt16 row.startOffset ++ Bytes.ofUInt16 row.length ++ Bytes.ofUInt16 name
    ++ Bytes.ofUInt16 descriptor ++ Bytes.ofUInt16 row.index

end LocalVariable

namespace ExceptionEntry

def read (pool : Pool) : Reader ExceptionEntry := do
  let startOffset ← Reader.uint16
  let endOffset ← Reader.uint16
  let handlerOffset ← Reader.uint16
  let catchType ← Reader.optionalClassName pool
  return ⟨startOffset, endOffset, handlerOffset, catchType⟩

def write (entry : ExceptionEntry) : PoolM Bytes := do
  let catchType ← Pool.putOptional Pool.putClass entry.catchType
  return Bytes.ofUInt16 entry.startOffset ++ Bytes.ofUInt16 entry.endOffset
    ++ Bytes.ofUInt16 entry.handlerOffset ++ Bytes.ofUInt16 catchType

end ExceptionEntry

end JvmClass
