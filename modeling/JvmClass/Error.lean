import JvmClass.Fault

/-!
# Errors

An error is a fault together with what was being done when it arose, from the outermost activity to
the innermost. Only the fault says what went wrong; the trail says where.
-/

namespace JvmClass

/-- The lists that make up a class. -/
inductive ClassPart where
  | interfaces
  | fields
  | methods
  | attributes
deriving DecidableEq, Repr

/-- Something that is under way while a fault can arise. -/
inductive Activity where
  /-- Reading a number of `bits` bits. -/
  | number (signed : Bool) (bits : Nat)
  -- Constant pool
  | poolIndex (index : UInt16)
  | readingEntry (index : Nat)
  | resolvingEntry (index : Nat)
  | addingDependencies
  -- Attributes
  | attributeBytes (length : Nat) (name : Text)
  | parsingAttribute (name : Text) (scope : Scope)
  | countingAttributes (scope : Scope)
  | writingAttribute (name : Text) (scope : Scope)
  | sizingAttribute (name : Text)
  | annotationUse (descriptor : Text)
  | readingFrame (index : Nat)
  | readingExceptionTable
  | writingExceptionEntries (count : Nat)
  -- Code
  | atOffset (offset : UInt16)
  | frame (index : Nat)
  | instruction (index : Nat)
  | writingExceptionTable
  | writingLineNumbers
  | localVariable (name : Text)
  | writingFrames
  -- Classes
  | readingPart (part : ClassPart) (name : ClassName)
  | countingPart (part : ClassPart) (name : ClassName)
  | writingClassAttributes (name : ClassName)
  | readingField (name : Text)
  | writingField (name : Text)
  | readingMethod (name descriptor : Text)
  | writingMethod (name descriptor : Text)
  | decodingMethod (name descriptor : Text)
  | encodingMethod (name descriptor : Text)
deriving DecidableEq

structure Error where
  fault : Fault
  trail : List Activity
deriving DecidableEq

namespace Error

/-- The error of a fault that arises outside of any activity. -/
def ofFault (fault : Fault) : Error :=
  ⟨fault, []⟩

def kind (error : Error) : FaultKind :=
  error.fault.kind

/-- The same error, as seen from around one more activity. -/
def during (activity : Activity) (error : Error) : Error :=
  { error with trail := activity :: error.trail }

end Error

/-- A result, as seen from around an activity. -/
def Result.during {α : Type} (activity : Activity) (result : Except Error α) : Except Error α :=
  result.mapError (Error.during activity)

end JvmClass
