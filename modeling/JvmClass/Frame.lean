import JvmClass.Error

/-!
# Stack map frames

What a verifier may assume about local variables and operand stack at a place in the code, as a
change from the frame before. Frames come in two forms that differ only in how they name the
instruction that created an uninitialized object: by its offset in bytecode, by a label in a list of
instructions. Both are a `Frame`, over the type of those names.
-/

namespace JvmClass

inductive VerificationType (υ : Type) where
  | top
  | integer
  | float
  | double
  | long
  | null
  | uninitializedThis
  | object (name : ClassName)
  /-- An object that was created, but not constructed yet, by the instruction at `origin`. -/
  | uninitialized (origin : υ)
deriving DecidableEq

inductive Frame (υ : Type) where
  /-- The same local variables and an empty stack. -/
  | same
  /-- The same local variables and one value on the stack. -/
  | sameWithStack (stack : VerificationType υ)
  /-- Without the last `removed` local variables, and with an empty stack. -/
  | chop (removed : UInt8)
  /-- With more local variables, and with an empty stack. -/
  | append (added : List (VerificationType υ))
  | full (locals stack : List (VerificationType υ))
deriving DecidableEq

/-- A frame as stored. The first frame is `offsetDelta` bytes into the code, and each later one
`offsetDelta + 1` bytes after the one before. -/
structure StackMapFrame where
  offsetDelta : UInt16
  frame : Frame UInt16
deriving DecidableEq

variable {υ ω : Type} {m : Type → Type} [Monad m]

def VerificationType.mapM (f : υ → m ω) : VerificationType υ → m (VerificationType ω)
  | top => pure top
  | integer => pure integer
  | float => pure float
  | double => pure double
  | long => pure long
  | null => pure null
  | uninitializedThis => pure uninitializedThis
  | object name => pure (object name)
  | uninitialized origin => uninitialized <$> f origin

namespace Frame

/-- Renames the origins of uninitialized objects, local variables first. -/
def mapM (f : υ → m ω) : Frame υ → m (Frame ω)
  | same => pure same
  | sameWithStack stack => sameWithStack <$> stack.mapM f
  | chop removed => pure (chop removed)
  | append added => append <$> added.mapM (VerificationType.mapM f)
  | full locals stack => do
    let locals ← locals.mapM (VerificationType.mapM f)
    let stack ← stack.mapM (VerificationType.mapM f)
    return full locals stack

/-- A frame can remove or add one to three local variables. -/
def check : Frame υ → Except Error Unit
  | chop removed =>
    if 1 ≤ removed ∧ removed ≤ 3 then
      .ok ()
    else
      .error (.ofFault (.chopOutOfBounds removed))
  | append added =>
    if 1 ≤ added.length ∧ added.length ≤ 3 then
      .ok ()
    else
      .error (.ofFault (.appendOutOfBounds added.length))
  | _ => .ok ()

end Frame

end JvmClass
