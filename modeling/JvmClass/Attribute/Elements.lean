import JvmClass.AnnotationUse
import JvmClass.Attribute
import JvmClass.Pool.Writer

/-!
# Annotations in bytes

Reading and writing annotations and the values of their elements. Each value starts with a tag;
constants are kept in the pool, where bytes, chars, shorts and booleans are all integers. A value
nested in another starts at least one byte later, so reading never nests deeper than there are bytes
to read.
-/

namespace JvmClass

/-! ### Reading -/

namespace ElementConstant

/-- The value of an integer constant, if it is in the range from `low` to `high`. -/
def readInRange (pool : Pool) (tag : UInt8) (low high : Int) : Reader Int32 := do
  let value ← pool.integerAt (← Reader.uint16)
  if low ≤ value.toInt ∧ value.toInt ≤ high then
    return value
  else
    Reader.fail (.constantOutOfRange value tag)

def readBoolean (pool : Pool) : Reader Bool := do
  let value ← pool.integerAt (← Reader.uint16)
  if value == 0 then
    return false
  else if value == 1 then
    return true
  else
    Reader.fail (.notBoolean value)

/-- The constant behind a tag, if the tag is one of a constant. -/
def read? (pool : Pool) (tag : UInt8) : Option (Reader ElementConstant) :=
  match tag with
  | 66 => some do return byte (← readInRange pool tag (-128) 127).toInt8
  | 67 => some do return char (← readInRange pool tag 0 65535).toUInt32.toUInt16
  | 68 => some do return double (← pool.doubleAt (← Reader.uint16))
  | 70 => some do return float (← pool.floatAt (← Reader.uint16))
  | 73 => some do return integer (← pool.integerAt (← Reader.uint16))
  | 74 => some do return long (← pool.longAt (← Reader.uint16))
  | 83 => some do return short (← readInRange pool tag (-32768) 32767).toInt16
  | 90 => some do return boolean (← readBoolean pool)
  | 115 => some do return string (← pool.utf8At (← Reader.uint16))
  | _ => none

end ElementConstant

/-- An annotation, given how to read the values of its elements. -/
def AnnotationUse.readWith (pool : Pool) (value : Reader ElementValue) : Reader AnnotationUse := do
  let descriptor ← pool.utf8At (← Reader.uint16)
  let elements ← Reader.during (.annotationUse descriptor) <| Reader.list16 do
    let name ← pool.utf8At (← Reader.uint16)
    return Element.mk name (← value)
  return ⟨descriptor, elements⟩

/-- A value with at most `depth` values nested in each other, itself included. -/
def ElementValue.readWithin (pool : Pool) : (depth : Nat) → Reader ElementValue
  | 0 => Reader.during (.number false 8) (Reader.fail (.unexpectedEnd 1))
  | depth + 1 => do
    let tag ← Reader.uint8
    match ElementConstant.read? pool tag with
    | some readConstant => return .constant (← readConstant)
    | none =>
      match tag with
      | 101 =>
        return .enumConstant (← pool.utf8At (← Reader.uint16)) (← pool.utf8At (← Reader.uint16))
      | 99 => return .classInfo (← pool.utf8At (← Reader.uint16))
      | 64 => return .nested (← AnnotationUse.readWith pool (readWithin pool depth))
      | 91 => return .array (← Reader.list16 (readWithin pool depth))
      | tag => Reader.fail (.unknownElementTag tag)

/-- A value that can be nested as deep as the bytes that are left allow. -/
def ElementValue.read (pool : Pool) : Reader ElementValue := fun input =>
  ElementValue.readWithin pool input.rest.length input

def AnnotationUse.readList (pool : Pool) : Reader (List AnnotationUse) := fun input =>
  Reader.list16 (AnnotationUse.readWith pool (ElementValue.readWithin pool input.rest.length)) input

def ParameterAnnotations.read (pool : Pool) : Reader ParameterAnnotations := do
  let parameters ← Reader.list8 (AnnotationUse.readList pool)
  ParameterAnnotations.ofList parameters

/-! ### Writing -/

def ElementConstant.tag : ElementConstant → UInt8
  | byte _ => 66
  | char _ => 67
  | double _ => 68
  | float _ => 70
  | integer _ => 73
  | long _ => 74
  | short _ => 83
  | boolean _ => 90
  | string _ => 115

def ElementConstant.put : ElementConstant → PoolM UInt16
  | byte value => Pool.putInteger value.toInt32
  | char value => Pool.putInteger value.toUInt32.toInt32
  | double bits => Pool.putDouble bits
  | float bits => Pool.putFloat bits
  | integer value => Pool.putInteger value
  | long value => Pool.putLong value
  | short value => Pool.putInteger value.toInt32
  | boolean value => Pool.putInteger (if value then 1 else 0)
  | string text => Pool.putUtf8 text

mutual

def ElementValue.write : ElementValue → PoolM Bytes
  | .constant value => do return value.tag :: Bytes.ofUInt16 (← value.put)
  | .enumConstant typeName constantName => do
    let typeIndex ← Pool.putUtf8 typeName
    let constantIndex ← Pool.putUtf8 constantName
    return 101 :: Bytes.ofUInt16 typeIndex ++ Bytes.ofUInt16 constantIndex
  | .classInfo descriptor => do return 99 :: Bytes.ofUInt16 (← Pool.putUtf8 descriptor)
  | .nested use => do return 64 :: (← use.write)
  | .array values => do
    let count ← Bytes.ofCount 2 values.length
    let contents ← ExceptT.mk (ElementValue.writeFrom values #[])
    return 91 :: count ++ contents

def AnnotationUse.write : AnnotationUse → PoolM Bytes
  | ⟨descriptor, elements⟩ => do
    let descriptorIndex ← Pool.putUtf8 descriptor
    let count ← Bytes.ofCount 2 elements.length
    let contents ← ExceptT.mk (Element.writeFrom elements #[])
    return Bytes.ofUInt16 descriptorIndex ++ count ++ contents

def Element.write : Element → PoolM Bytes
  | ⟨name, value⟩ => do
    let nameIndex ← Pool.putUtf8 name
    return Bytes.ofUInt16 nameIndex ++ (← value.write)

/-- Writes values one after the other, behind what is written already. -/
def ElementValue.writeFrom : List ElementValue → (written : Array UInt8) → Pool →
    Except Error Bytes × Pool
  | [], written, pool => (.ok written.toList, pool)
  | value :: rest, written, pool =>
    match value.write.run pool with
    | (.ok bytes, pool) => ElementValue.writeFrom rest (written ++ bytes) pool
    | (.error error, pool) => (.error error, pool)

def Element.writeFrom : List Element → (written : Array UInt8) → Pool → Except Error Bytes × Pool
  | [], written, pool => (.ok written.toList, pool)
  | element :: rest, written, pool =>
    match element.write.run pool with
    | (.ok bytes, pool) => Element.writeFrom rest (written ++ bytes) pool
    | (.error error, pool) => (.error error, pool)

end

def AnnotationUse.writeList (uses : List AnnotationUse) : PoolM Bytes :=
  PoolM.writeList 2 AnnotationUse.write uses

def ParameterAnnotations.write (parameters : ParameterAnnotations) : PoolM Bytes :=
  PoolM.writeList 1 AnnotationUse.writeList parameters.parameters

end JvmClass
