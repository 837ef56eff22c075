import JvmClass.ClassFile

/-!
# Editing classes

Changes to one part of a class. An edit of something that is not there leaves the class as it is.
-/

namespace JvmClass

/-- Whose attributes are meant. -/
inductive AttributeOwner where
  | classFile
  | field (index : Nat)
  | method (index : Nat)
  /-- The code of a method. -/
  | code (index : Nat)

inductive ClassEdit where
  | setVersion (version : Version)
  | setAccess (access : UInt16)
  | setName (name : ClassName)
  | setSuperClass (name : Option ClassName)
  | addInterface (name : ClassName)
  | addField (field : Field)
  | addMethod (method : Method)
  | removeField (index : Nat)
  | removeMethod (index : Nat)
  | setCode (method : Nat) (code : Option Code)
  | addAttribute (owner : AttributeOwner) (added : Attribute)
  | removeAttribute (owner : AttributeOwner) (index : Nat)
  | insertLine (method index : Nat) (line : CodeLine)
  | setLine (method index : Nat) (line : CodeLine)
  | removeLine (method index : Nat)

namespace ClassFile

variable (file : ClassFile)

/-- The class with the method at an index changed. -/
def modifyMethod (index : Nat) (change : Method → Method) : ClassFile :=
  { file with methods := file.methods.modify index change }

/-- The class with the code of the method at an index changed. -/
def modifyCode (index : Nat) (change : Code → Code) : ClassFile :=
  file.modifyMethod index fun method => { method with code := method.code.map change }

/-- The class with the instructions of the method at an index changed. -/
def modifyLines (index : Nat) (change : List CodeLine → List CodeLine) : ClassFile :=
  file.modifyCode index fun code => { code with lines := change code.lines }

/-- The class with the attributes of something changed. -/
def modifyAttributes (owner : AttributeOwner) (change : List Attribute → List Attribute) :
    ClassFile :=
  match owner with
  | .classFile => { file with attributes := change file.attributes }
  | .field index =>
    { file with
      fields := file.fields.modify index fun field =>
        { field with attributes := change field.attributes } }
  | .method index =>
    file.modifyMethod index fun method => { method with attributes := change method.attributes }
  | .code index =>
    file.modifyCode index fun code => { code with attributes := change code.attributes }

def edit : ClassEdit → ClassFile
  | .setVersion version => { file with version := version }
  | .setAccess access => { file with access := access }
  | .setName name => { file with name := name }
  | .setSuperClass name => { file with superClass := name }
  | .addInterface name => { file with interfaces := file.interfaces ++ [name] }
  | .addField field => { file with fields := file.fields ++ [field] }
  | .addMethod method => { file with methods := file.methods ++ [method] }
  | .removeField index => { file with fields := file.fields.eraseIdx index }
  | .removeMethod index => { file with methods := file.methods.eraseIdx index }
  | .setCode index code => file.modifyMethod index fun method => { method with code := code }
  | .addAttribute owner added => file.modifyAttributes owner (· ++ [added])
  | .removeAttribute owner index => file.modifyAttributes owner (·.eraseIdx index)
  | .insertLine method index line => file.modifyLines method (·.insertIdx index line)
  | .setLine method index line => file.modifyLines method (·.set index line)
  | .removeLine method index => file.modifyLines method (·.eraseIdx index)

end ClassFile

end JvmClass
