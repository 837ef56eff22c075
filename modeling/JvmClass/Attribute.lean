import JvmClass.AnnotationUse
import JvmClass.Attribute.Kind
import JvmClass.Bytes
import JvmClass.Frame

/-!
# Attributes

A named piece of information attached to a class, a field, a method or code. The value of an
attribute is typed by its kind; a value that is not understood is the bytes that were found. The
code of a method is an attribute with attributes of its own, which makes the three types here depend
on each other.
-/

namespace JvmClass

structure InnerClass where
  innerClass : ClassName
  outerClass : Option ClassName
  innerName : Option Text
  flags : UInt16
deriving DecidableEq

structure EnclosingMethod where
  className : ClassName
  method : Option NameAndType
deriving DecidableEq

structure BootstrapMethod where
  handle : MethodHandle
  arguments : List Loadable
deriving DecidableEq

structure MethodParameter where
  name : Option Text
  flags : UInt16
deriving DecidableEq

/-- The instructions from `startOffset` on belong to a line. -/
structure LineNumber where
  startOffset : UInt16
  line : UInt16
deriving DecidableEq

/-- A local variable that lives from `startOffset` on for `length` bytes. -/
structure LocalVariable where
  startOffset : UInt16
  length : UInt16
  name : Text
  descriptor : Text
  index : UInt16
deriving DecidableEq

/-- A handler for what is thrown between two offsets, the second of them excluded; without a type it
handles everything. -/
structure ExceptionEntry where
  startOffset : UInt16
  endOffset : UInt16
  handlerOffset : UInt16
  catchType : Option ClassName
deriving DecidableEq

/-- The annotations of each parameter of a method, of which there are at most 255. -/
structure ParameterAnnotations where
  parameters : List (List AnnotationUse)
  length_le : parameters.length ≤ 255
deriving DecidableEq

def ParameterAnnotations.ofList (parameters : List (List AnnotationUse)) :
    Except Error ParameterAnnotations :=
  if h : parameters.length ≤ 255 then
    .ok ⟨parameters, h⟩
  else
    .error (.ofFault (.tooManyParameters parameters.length))

mutual

structure Attribute where
  name : Text
  value : AttributeValue

inductive AttributeValue where
  | constantValue (value : ConstantValue)
  | code (code : CodeAttribute)
  | stackMapTable (frames : List StackMapFrame)
  | exceptions (classes : List ClassName)
  | innerClasses (classes : List InnerClass)
  | enclosingMethod (method : EnclosingMethod)
  | synthetic
  | signature (text : Text)
  | sourceFile (name : Text)
  | sourceDebugExtension (bytes : Bytes)
  | lineNumberTable (lines : List LineNumber)
  | localVariableTable (rows : List LocalVariable)
  | localVariableTypeTable (rows : List LocalVariable)
  | deprecated
  | runtimeVisibleAnnotations (uses : List AnnotationUse)
  | runtimeInvisibleAnnotations (uses : List AnnotationUse)
  | runtimeVisibleParameterAnnotations (parameters : ParameterAnnotations)
  | runtimeInvisibleParameterAnnotations (parameters : ParameterAnnotations)
  | annotationDefault (value : ElementValue)
  | bootstrapMethods (methods : List BootstrapMethod)
  | methodParameters (parameters : List MethodParameter)
  | nestHost (host : ClassName)
  | nestMembers (members : List ClassName)
  | permittedSubclasses (subclasses : List ClassName)
  /-- What is not understood, as it was found. -/
  | unknown (bytes : Bytes)

/-- The code of a method as bytecode. -/
structure CodeAttribute where
  maxStack : UInt16
  maxLocals : UInt16
  code : Bytes
  exceptionTable : List ExceptionEntry
  attributes : List Attribute

end

/-- The longest bytecode that a method can have. -/
def CodeAttribute.maxLength : Nat :=
  65535

namespace AttributeValue

/-- The kind of attribute that a value belongs to, unless it is not understood. -/
def kind? : AttributeValue → Option AttributeKind
  | constantValue _ => some .constantValue
  | code _ => some .code
  | stackMapTable _ => some .stackMapTable
  | exceptions _ => some .exceptions
  | innerClasses _ => some .innerClasses
  | enclosingMethod _ => some .enclosingMethod
  | synthetic => some .synthetic
  | signature _ => some .signature
  | sourceFile _ => some .sourceFile
  | sourceDebugExtension _ => some .sourceDebugExtension
  | lineNumberTable _ => some .lineNumberTable
  | localVariableTable _ => some .localVariableTable
  | localVariableTypeTable _ => some .localVariableTypeTable
  | deprecated => some .deprecated
  | runtimeVisibleAnnotations _ => some .runtimeVisibleAnnotations
  | runtimeInvisibleAnnotations _ => some .runtimeInvisibleAnnotations
  | runtimeVisibleParameterAnnotations _ => some .runtimeVisibleParameterAnnotations
  | runtimeInvisibleParameterAnnotations _ => some .runtimeInvisibleParameterAnnotations
  | annotationDefault _ => some .annotationDefault
  | bootstrapMethods _ => some .bootstrapMethods
  | methodParameters _ => some .methodParameters
  | nestHost _ => some .nestHost
  | nestMembers _ => some .nestMembers
  | permittedSubclasses _ => some .permittedSubclasses
  | unknown _ => none

end AttributeValue

/-- A value under the name of its kind. -/
def Attribute.ofValue? (value : AttributeValue) : Option Attribute :=
  value.kind?.map fun kind => ⟨kind.text, value⟩

/-! ### Equality -/

mutual

def Attribute.beq : Attribute → Attribute → Bool
  | ⟨name, value⟩, ⟨otherName, otherValue⟩ => name == otherName && value.beq otherValue

def AttributeValue.beq : AttributeValue → AttributeValue → Bool
  | .constantValue a, .constantValue b => a == b
  | .code a, .code b => a.beq b
  | .stackMapTable a, .stackMapTable b => a == b
  | .exceptions a, .exceptions b => a == b
  | .innerClasses a, .innerClasses b => a == b
  | .enclosingMethod a, .enclosingMethod b => a == b
  | .synthetic, .synthetic => true
  | .signature a, .signature b => a == b
  | .sourceFile a, .sourceFile b => a == b
  | .sourceDebugExtension a, .sourceDebugExtension b => a == b
  | .lineNumberTable a, .lineNumberTable b => a == b
  | .localVariableTable a, .localVariableTable b => a == b
  | .localVariableTypeTable a, .localVariableTypeTable b => a == b
  | .deprecated, .deprecated => true
  | .runtimeVisibleAnnotations a, .runtimeVisibleAnnotations b => a == b
  | .runtimeInvisibleAnnotations a, .runtimeInvisibleAnnotations b => a == b
  | .runtimeVisibleParameterAnnotations a, .runtimeVisibleParameterAnnotations b => a == b
  | .runtimeInvisibleParameterAnnotations a, .runtimeInvisibleParameterAnnotations b => a == b
  | .annotationDefault a, .annotationDefault b => a == b
  | .bootstrapMethods a, .bootstrapMethods b => a == b
  | .methodParameters a, .methodParameters b => a == b
  | .nestHost a, .nestHost b => a == b
  | .nestMembers a, .nestMembers b => a == b
  | .permittedSubclasses a, .permittedSubclasses b => a == b
  | .unknown a, .unknown b => a == b
  | _, _ => false

def CodeAttribute.beq : CodeAttribute → CodeAttribute → Bool
  | ⟨stack, locals, code, table, attributes⟩,
      ⟨otherStack, otherLocals, otherCode, otherTable, otherAttributes⟩ =>
    stack == otherStack && locals == otherLocals && code == otherCode && table == otherTable
      && Attribute.beqList attributes otherAttributes

def Attribute.beqList : List Attribute → List Attribute → Bool
  | [], [] => true
  | a :: as, b :: bs => a.beq b && Attribute.beqList as bs
  | _, _ => false

end

instance : BEq Attribute := ⟨Attribute.beq⟩

instance : BEq AttributeValue := ⟨AttributeValue.beq⟩

instance : BEq CodeAttribute := ⟨CodeAttribute.beq⟩

end JvmClass
