import JvmClass.Text

/-!
# Kinds of attributes

The attributes whose contents are understood, with the name each is stored under and the scopes it
may appear in. An attribute with any other name, or found in a scope where its kind is not allowed,
is carried along as bytes.
-/

namespace JvmClass

/-- What an attribute is attached to. -/
inductive Scope where
  | classScope
  | fieldScope
  | methodScope
  | codeScope
deriving DecidableEq, Repr

namespace Scope

def all : List Scope :=
  [classScope, fieldScope, methodScope, codeScope]

def name : Scope → String
  | classScope => "class"
  | fieldScope => "field"
  | methodScope => "method"
  | codeScope => "code"

def ofName? (name : String) : Option Scope :=
  all.find? (·.name == name)

end Scope

inductive AttributeKind where
  | constantValue
  | code
  | stackMapTable
  | exceptions
  | innerClasses
  | enclosingMethod
  | synthetic
  | signature
  | sourceFile
  | sourceDebugExtension
  | lineNumberTable
  | localVariableTable
  | localVariableTypeTable
  | deprecated
  | runtimeVisibleAnnotations
  | runtimeInvisibleAnnotations
  | runtimeVisibleParameterAnnotations
  | runtimeInvisibleParameterAnnotations
  | annotationDefault
  | bootstrapMethods
  | methodParameters
  | nestHost
  | nestMembers
  | permittedSubclasses
deriving DecidableEq, Repr

namespace AttributeKind

def all : List AttributeKind :=
  [constantValue, code, stackMapTable, exceptions, innerClasses, enclosingMethod, synthetic,
    signature, sourceFile, sourceDebugExtension, lineNumberTable, localVariableTable,
    localVariableTypeTable, deprecated, runtimeVisibleAnnotations, runtimeInvisibleAnnotations,
    runtimeVisibleParameterAnnotations, runtimeInvisibleParameterAnnotations, annotationDefault,
    bootstrapMethods, methodParameters, nestHost, nestMembers, permittedSubclasses]

def name : AttributeKind → String
  | constantValue => "ConstantValue"
  | code => "Code"
  | stackMapTable => "StackMapTable"
  | exceptions => "Exceptions"
  | innerClasses => "InnerClasses"
  | enclosingMethod => "EnclosingMethod"
  | synthetic => "Synthetic"
  | signature => "Signature"
  | sourceFile => "SourceFile"
  | sourceDebugExtension => "SourceDebugExtension"
  | lineNumberTable => "LineNumberTable"
  | localVariableTable => "LocalVariableTable"
  | localVariableTypeTable => "LocalVariableTypeTable"
  | deprecated => "Deprecated"
  | runtimeVisibleAnnotations => "RuntimeVisibleAnnotations"
  | runtimeInvisibleAnnotations => "RuntimeInvisibleAnnotations"
  | runtimeVisibleParameterAnnotations => "RuntimeVisibleParameterAnnotations"
  | runtimeInvisibleParameterAnnotations => "RuntimeInvisibleParameterAnnotations"
  | annotationDefault => "AnnotationDefault"
  | bootstrapMethods => "BootstrapMethods"
  | methodParameters => "MethodParameters"
  | nestHost => "NestHost"
  | nestMembers => "NestMembers"
  | permittedSubclasses => "PermittedSubclasses"

/-- The name as it stands in the constant pool. -/
def text (kind : AttributeKind) : Text :=
  Text.ofString kind.name

def scopes : AttributeKind → List Scope
  | constantValue => [.fieldScope]
  | code | exceptions | annotationDefault | methodParameters => [.methodScope]
  | runtimeVisibleParameterAnnotations | runtimeInvisibleParameterAnnotations => [.methodScope]
  | stackMapTable | lineNumberTable | localVariableTable | localVariableTypeTable => [.codeScope]
  | innerClasses | enclosingMethod | sourceFile | sourceDebugExtension | bootstrapMethods =>
    [.classScope]
  | nestHost | nestMembers | permittedSubclasses => [.classScope]
  | synthetic | signature | deprecated => [.classScope, .fieldScope, .methodScope]
  | runtimeVisibleAnnotations | runtimeInvisibleAnnotations =>
    [.classScope, .fieldScope, .methodScope]

def allowedIn (kind : AttributeKind) (scope : Scope) : Bool :=
  kind.scopes.contains scope

/-- The kinds by the names they are stored under. -/
def byName : List (Text × AttributeKind) :=
  all.map fun kind => (kind.text, kind)

/-- The kind of attribute stored under a name. -/
def ofName? (name : Text) : Option AttributeKind :=
  byName.lookup name

end AttributeKind

end JvmClass
