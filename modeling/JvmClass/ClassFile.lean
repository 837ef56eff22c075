import JvmClass.Code
import JvmClass.Pool
import JvmClass.Version

/-!
# Class files

A class with everything its file holds. The constant pool is kept beside the rest: attributes that
are not understood may refer into it. It is no part of what the class is, so two class files are the
same when everything else about them is.
-/

namespace JvmClass

structure Field where
  access : UInt16
  name : Text
  descriptor : Text
  attributes : List Attribute
deriving BEq

structure Method where
  access : UInt16
  name : Text
  descriptor : Text
  code : Option Code
  /-- All attributes but the code. -/
  attributes : List Attribute
deriving BEq

structure ClassFile where
  version : Version
  access : UInt16
  name : ClassName
  superClass : Option ClassName
  interfaces : List ClassName
  fields : List Field
  methods : List Method
  attributes : List Attribute
  pool : Pool

/-- Whether two class files hold the same class, whatever their constant pools are. -/
def ClassFile.isSameClass (left right : ClassFile) : Bool :=
  left.version == right.version && left.access == right.access && left.name == right.name
    && left.superClass == right.superClass && left.interfaces == right.interfaces
    && left.fields == right.fields && left.methods == right.methods
    && left.attributes == right.attributes

instance : BEq ClassFile := ⟨ClassFile.isSameClass⟩

/-- The number that every class file starts with. -/
def ClassFile.magic : UInt32 :=
  0xCAFEBABE

end JvmClass
