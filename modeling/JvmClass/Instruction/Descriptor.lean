import JvmClass.Error

/-!
# Argument slots of a method descriptor

A call of an interface method says how many stack slots its arguments take, which follows from the
descriptor of the method: one for the receiver, two for each long and double, one for every other
parameter, arrays of longs and doubles included.
-/

namespace JvmClass.Descriptor

/-- Where in the parameters of a descriptor one is. -/
inductive Place where
  /-- Before a parameter. -/
  | parameter
  /-- After the brackets of an array type, before its element type. -/
  | element
  /-- Within the name of a class. -/
  | name
deriving DecidableEq, Repr

/-- The slots of parameters up to the closing parenthesis, added to `slots`, if that is what
follows. -/
def countSlots : Place → (slots : Nat) → List UInt16 → Option Nat
  | _, _, [] => none
  | .name, slots, unit :: rest => countSlots (if unit == 0x3B then .parameter else .name) slots rest
  | place, slots, unit :: rest =>
    match unit with
    -- an opening bracket
    | 0x5B => countSlots .element slots rest
    -- a closing parenthesis
    | 0x29 => if place = .parameter then some slots else none
    -- long and double
    | 0x4A | 0x44 => countSlots .parameter (slots + if place = .parameter then 2 else 1) rest
    -- byte, char, float, int, short and boolean
    | 0x42 | 0x43 | 0x46 | 0x49 | 0x53 | 0x5A => countSlots .parameter (slots + 1) rest
    -- the name of a class follows
    | 0x4C => countSlots .name (slots + 1) rest
    | _ => none

/-- The slots of receiver and parameters, if the descriptor is one of a method. -/
def slots? (descriptor : Text) : Option Nat :=
  match descriptor.units with
  | 0x28 :: parameters => countSlots .parameter 1 parameters
  | _ => none

/-- The slots of receiver and parameters as one byte. -/
def argumentSlots (descriptor : Text) : Except Error UInt8 :=
  match slots? descriptor with
  | none => .error (.ofFault (.malformedDescriptor descriptor))
  | some slots =>
    if slots < 256 then
      .ok (UInt8.ofNat slots)
    else
      .error (.ofFault (.tooManyArgumentSlots descriptor slots))

end JvmClass.Descriptor
