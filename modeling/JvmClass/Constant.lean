import JvmClass.ClassName

/-!
# Constants

The values that the constant pool of a class file holds. An `Entry` is a constant by value: it names
the texts and members it refers to, not where they are stored, so two entries are equal exactly when
they are the same constant. A `RawEntry` is the same constant as stored, with the indices of what it
refers to. Floating point constants are kept as their bits, so every not-a-number and both zeros are
told apart.
-/

namespace JvmClass

structure NameAndType where
  name : Text
  descriptor : Text
deriving DecidableEq, Hashable

/-- A field or method of a class. -/
structure MemberRef where
  className : ClassName
  name : Text
  descriptor : Text
deriving DecidableEq, Hashable

/-- A constant or call site computed by a bootstrap method. -/
structure DynamicRef where
  bootstrapIndex : UInt16
  name : Text
  descriptor : Text
deriving DecidableEq, Hashable

def MemberRef.nameAndType (member : MemberRef) : NameAndType :=
  ⟨member.name, member.descriptor⟩

def DynamicRef.nameAndType (dynamic : DynamicRef) : NameAndType :=
  ⟨dynamic.name, dynamic.descriptor⟩

/-! ### Method handles -/

/-- What a method handle does with the member it refers to. -/
inductive ReferenceKind where
  | getField
  | getStatic
  | putField
  | putStatic
  | invokeVirtual
  | invokeStatic
  | invokeSpecial
  | newInvokeSpecial
  | invokeInterface
deriving DecidableEq, Hashable, Repr

namespace ReferenceKind

def toByte : ReferenceKind → UInt8
  | getField => 1
  | getStatic => 2
  | putField => 3
  | putStatic => 4
  | invokeVirtual => 5
  | invokeStatic => 6
  | invokeSpecial => 7
  | newInvokeSpecial => 8
  | invokeInterface => 9

def ofByte? : UInt8 → Option ReferenceKind
  | 1 => some getField
  | 2 => some getStatic
  | 3 => some putField
  | 4 => some putStatic
  | 5 => some invokeVirtual
  | 6 => some invokeStatic
  | 7 => some invokeSpecial
  | 8 => some newInvokeSpecial
  | 9 => some invokeInterface
  | _ => none

def name : ReferenceKind → String
  | getField => "GetField"
  | getStatic => "GetStatic"
  | putField => "PutField"
  | putStatic => "PutStatic"
  | invokeVirtual => "InvokeVirtual"
  | invokeStatic => "InvokeStatic"
  | invokeSpecial => "InvokeSpecial"
  | newInvokeSpecial => "NewInvokeSpecial"
  | invokeInterface => "InvokeInterface"

def all : List ReferenceKind :=
  [getField, getStatic, putField, putStatic, invokeVirtual, invokeStatic, invokeSpecial,
    newInvokeSpecial, invokeInterface]

def ofName? (name : String) : Option ReferenceKind :=
  all.find? (·.name == name)

end ReferenceKind

inductive HandleReference where
  | field (member : MemberRef)
  | method (member : MemberRef)
  | interfaceMethod (member : MemberRef)
deriving DecidableEq, Hashable

def HandleReference.member : HandleReference → MemberRef
  | field member => member
  | method member => member
  | interfaceMethod member => member

/-- Field access needs a field, a virtual call or construction a method of a class, an interface
call one of an interface; static and special calls take either kind of method. -/
def ReferenceKind.accepts (kind : ReferenceKind) (reference : HandleReference) : Bool :=
  match kind, reference with
  | getField, .field _ => true
  | getStatic, .field _ => true
  | putField, .field _ => true
  | putStatic, .field _ => true
  | invokeVirtual, .method _ => true
  | newInvokeSpecial, .method _ => true
  | invokeStatic, .method _ => true
  | invokeStatic, .interfaceMethod _ => true
  | invokeSpecial, .method _ => true
  | invokeSpecial, .interfaceMethod _ => true
  | invokeInterface, .interfaceMethod _ => true
  | _, _ => false

structure MethodHandle where
  kind : ReferenceKind
  reference : HandleReference
deriving DecidableEq, Hashable

/-! ### Entries -/

inductive Entry where
  | utf8 (text : Text)
  | integer (value : Int32)
  | float (bits : UInt32)
  | long (value : Int64)
  | double (bits : UInt64)
  | classRef (name : ClassName)
  | string (text : Text)
  | fieldRef (member : MemberRef)
  | methodRef (member : MemberRef)
  | interfaceMethodRef (member : MemberRef)
  | nameAndType (value : NameAndType)
  | methodHandle (handle : MethodHandle)
  | methodType (descriptor : Text)
  | dynamic (value : DynamicRef)
  | invokeDynamic (value : DynamicRef)
  | moduleRef (name : Text)
  | packageRef (name : Text)
deriving DecidableEq, Hashable

/-- An entry as stored: what it refers to is given by the index it is stored at. -/
inductive RawEntry where
  | utf8 (text : Text)
  | integer (value : Int32)
  | float (bits : UInt32)
  | long (value : Int64)
  | double (bits : UInt64)
  | classRef (nameIndex : UInt16)
  | string (textIndex : UInt16)
  | fieldRef (classIndex nameAndTypeIndex : UInt16)
  | methodRef (classIndex nameAndTypeIndex : UInt16)
  | interfaceMethodRef (classIndex nameAndTypeIndex : UInt16)
  | nameAndType (nameIndex descriptorIndex : UInt16)
  | methodHandle (referenceKind : UInt8) (referenceIndex : UInt16)
  | methodType (descriptorIndex : UInt16)
  | dynamic (bootstrapIndex nameAndTypeIndex : UInt16)
  | invokeDynamic (bootstrapIndex nameAndTypeIndex : UInt16)
  | moduleRef (nameIndex : UInt16)
  | packageRef (nameIndex : UInt16)
deriving DecidableEq

/-- The kinds of entries, each with a tag of its own. -/
inductive EntryKind where
  | utf8
  | integer
  | float
  | long
  | double
  | classRef
  | string
  | fieldRef
  | methodRef
  | interfaceMethodRef
  | nameAndType
  | methodHandle
  | methodType
  | dynamic
  | invokeDynamic
  | moduleRef
  | packageRef
deriving DecidableEq, Repr

namespace EntryKind

def name : EntryKind → String
  | utf8 => "Utf8"
  | integer => "Integer"
  | float => "Float"
  | long => "Long"
  | double => "Double"
  | classRef => "Class"
  | string => "String"
  | fieldRef => "FieldRef"
  | methodRef => "MethodRef"
  | interfaceMethodRef => "InterfaceMethodRef"
  | nameAndType => "NameAndType"
  | methodHandle => "MethodHandle"
  | methodType => "MethodType"
  | dynamic => "Dynamic"
  | invokeDynamic => "InvokeDynamic"
  | moduleRef => "Module"
  | packageRef => "Package"

def tag : EntryKind → UInt8
  | utf8 => 1
  | integer => 3
  | float => 4
  | long => 5
  | double => 6
  | classRef => 7
  | string => 8
  | fieldRef => 9
  | methodRef => 10
  | interfaceMethodRef => 11
  | nameAndType => 12
  | methodHandle => 15
  | methodType => 16
  | dynamic => 17
  | invokeDynamic => 18
  | moduleRef => 19
  | packageRef => 20

def ofTag? : UInt8 → Option EntryKind
  | 1 => some utf8
  | 3 => some integer
  | 4 => some float
  | 5 => some long
  | 6 => some double
  | 7 => some classRef
  | 8 => some string
  | 9 => some fieldRef
  | 10 => some methodRef
  | 11 => some interfaceMethodRef
  | 12 => some nameAndType
  | 15 => some methodHandle
  | 16 => some methodType
  | 17 => some dynamic
  | 18 => some invokeDynamic
  | 19 => some moduleRef
  | 20 => some packageRef
  | _ => none

/-- Longs and doubles take two slots of the pool. -/
def isWide : EntryKind → Bool
  | long | double => true
  | _ => false

/-- How many slots of the pool an entry of this kind takes. -/
def width (kind : EntryKind) : Nat :=
  if kind.isWide then 2 else 1

end EntryKind

def Entry.kind : Entry → EntryKind
  | utf8 _ => .utf8
  | integer _ => .integer
  | float _ => .float
  | long _ => .long
  | double _ => .double
  | classRef _ => .classRef
  | string _ => .string
  | fieldRef _ => .fieldRef
  | methodRef _ => .methodRef
  | interfaceMethodRef _ => .interfaceMethodRef
  | nameAndType _ => .nameAndType
  | methodHandle _ => .methodHandle
  | methodType _ => .methodType
  | dynamic _ => .dynamic
  | invokeDynamic _ => .invokeDynamic
  | moduleRef _ => .moduleRef
  | packageRef _ => .packageRef

def RawEntry.kind : RawEntry → EntryKind
  | utf8 _ => .utf8
  | integer _ => .integer
  | float _ => .float
  | long _ => .long
  | double _ => .double
  | classRef _ => .classRef
  | string _ => .string
  | fieldRef .. => .fieldRef
  | methodRef .. => .methodRef
  | interfaceMethodRef .. => .interfaceMethodRef
  | nameAndType .. => .nameAndType
  | methodHandle .. => .methodHandle
  | methodType _ => .methodType
  | dynamic .. => .dynamic
  | invokeDynamic .. => .invokeDynamic
  | moduleRef _ => .moduleRef
  | packageRef _ => .packageRef

/-- The entry of the member that a method handle refers to. -/
def HandleReference.entry : HandleReference → Entry
  | field member => .fieldRef member
  | method member => .methodRef member
  | interfaceMethod member => .interfaceMethodRef member

/-! ### Constants with a narrower use -/

/-- The constants that can be pushed on the operand stack, or passed to a bootstrap method. -/
inductive Loadable where
  | integer (value : Int32)
  | float (bits : UInt32)
  | long (value : Int64)
  | double (bits : UInt64)
  | classRef (name : ClassName)
  | string (text : Text)
  | methodHandle (handle : MethodHandle)
  | methodType (descriptor : Text)
  | dynamic (value : DynamicRef)
deriving DecidableEq

namespace Loadable

def toEntry : Loadable → Entry
  | integer value => .integer value
  | float bits => .float bits
  | long value => .long value
  | double bits => .double bits
  | classRef name => .classRef name
  | string text => .string text
  | methodHandle handle => .methodHandle handle
  | methodType descriptor => .methodType descriptor
  | dynamic value => .dynamic value

def ofEntry? : Entry → Option Loadable
  | .integer value => some (integer value)
  | .float bits => some (float bits)
  | .long value => some (long value)
  | .double bits => some (double bits)
  | .classRef name => some (classRef name)
  | .string text => some (string text)
  | .methodHandle handle => some (methodHandle handle)
  | .methodType descriptor => some (methodType descriptor)
  | .dynamic value => some (dynamic value)
  | _ => none

def isWide (value : Loadable) : Bool :=
  value.toEntry.kind.isWide

end Loadable

/-- The constants that a static field can start with. -/
inductive ConstantValue where
  | integer (value : Int32)
  | float (bits : UInt32)
  | long (value : Int64)
  | double (bits : UInt64)
  | string (text : Text)
deriving DecidableEq

namespace ConstantValue

def toEntry : ConstantValue → Entry
  | integer value => .integer value
  | float bits => .float bits
  | long value => .long value
  | double bits => .double bits
  | string text => .string text

def ofEntry? : Entry → Option ConstantValue
  | .integer value => some (integer value)
  | .float bits => some (float bits)
  | .long value => some (long value)
  | .double bits => some (double bits)
  | .string text => some (string text)
  | _ => none

end ConstantValue

end JvmClass
