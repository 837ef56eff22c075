import JvmClass.Constant
import JvmClass.Instruction.Operation

/-!
# Instructions

An instruction by meaning: one form for each thing it can do, whatever the number of ways to encode
it. Constants and members are given by value. Where an instruction can continue is given by targets
of any type, labels in a list of instructions and offsets in bytecode.
-/

namespace JvmClass

inductive Instruction (τ : Type) where
  | plain (op : PlainOp)
  | pushByte (value : Int8)
  | pushShort (value : Int16)
  | load (constant : Loadable)
  | onVariable (op : VariableOp) (index : UInt16)
  | increment (index : UInt16) (amount : Int16)
  | branch (condition : Condition) (target : τ)
  | jump (op : JumpOp) (target : τ)
  /-- Continues at the target for the key on the stack, of which there is one for each from `low` to
  `high`. -/
  | tableSwitch (otherwise : τ) (low high : Int32) (targets : List τ)
  | lookupSwitch (otherwise : τ) (cases : List (Int32 × τ))
  | onField (op : FieldOp) (field : MemberRef)
  | invokeVirtual (method : MemberRef)
  | invokeSpecial (method : MemberRef) (isInterface : Bool)
  | invokeStatic (method : MemberRef) (isInterface : Bool)
  | invokeInterface (method : MemberRef)
  | invokeDynamic (site : DynamicRef)
  | onClass (op : ClassOp) (name : ClassName)
  | newArray (type : ArrayType)
  | multiNewArray (name : ClassName) (dimensions : UInt8)
deriving DecidableEq

namespace Instruction

variable {τ σ : Type}

/-- Where the instruction can continue other than after itself, in the order the targets are encoded
in. -/
def targets : Instruction τ → List τ
  | branch _ target => [target]
  | jump _ target => [target]
  | tableSwitch otherwise _ _ targets => otherwise :: targets
  | lookupSwitch otherwise cases => otherwise :: cases.map Prod.snd
  | _ => []

/-- Renames the targets, in the order they are encoded in. -/
def mapM {m : Type → Type} [Monad m] (f : τ → m σ) : Instruction τ → m (Instruction σ)
  | plain op => pure (plain op)
  | pushByte value => pure (pushByte value)
  | pushShort value => pure (pushShort value)
  | load constant => pure (load constant)
  | onVariable op index => pure (onVariable op index)
  | increment index amount => pure (increment index amount)
  | branch condition target => branch condition <$> f target
  | jump op target => jump op <$> f target
  | tableSwitch otherwise low high targets => do
    let otherwise ← f otherwise
    let targets ← targets.mapM f
    return tableSwitch otherwise low high targets
  | lookupSwitch otherwise cases => do
    let otherwise ← f otherwise
    let cases ← cases.mapM fun (key, target) => do return (key, ← f target)
    return lookupSwitch otherwise cases
  | onField op field => pure (onField op field)
  | invokeVirtual method => pure (invokeVirtual method)
  | invokeSpecial method isInterface => pure (invokeSpecial method isInterface)
  | invokeStatic method isInterface => pure (invokeStatic method isInterface)
  | invokeInterface method => pure (invokeInterface method)
  | invokeDynamic site => pure (invokeDynamic site)
  | onClass op name => pure (onClass op name)
  | newArray type => pure (newArray type)
  | multiNewArray name dimensions => pure (multiNewArray name dimensions)

end Instruction

end JvmClass
