import JvmClass.Instruction.Operation

/-!
# What conditions test

A conditional branch tests what it takes off the stack: one number against zero, two numbers against
each other, whether one reference is null, or whether two references are the same. Two conditions are
opposite if they test the same and exactly one of them holds, whatever is tested. Every condition has
one opposite, and `negate` finds it.
-/

namespace JvmClass

/-- What is taken off the stack. A reference is null or refers to one of the objects. -/
inductive Tested where
  | number (value : Int32)
  | numbers (first second : Int32)
  | reference (object : Option Nat)
  | references (first second : Option Nat)

namespace Condition

/-- Whether a condition holds, if it is one on what is tested. -/
def holds? : Condition → Tested → Option Bool
  | ifEq, .number value => some (value = 0)
  | ifNe, .number value => some (value ≠ 0)
  | ifLt, .number value => some (value < 0)
  | ifGe, .number value => some (0 ≤ value)
  | ifGt, .number value => some (0 < value)
  | ifLe, .number value => some (value ≤ 0)
  | ifICmpEq, .numbers first second => some (first = second)
  | ifICmpNe, .numbers first second => some (first ≠ second)
  | ifICmpLt, .numbers first second => some (first < second)
  | ifICmpGe, .numbers first second => some (second ≤ first)
  | ifICmpGt, .numbers first second => some (second < first)
  | ifICmpLe, .numbers first second => some (first ≤ second)
  | ifACmpEq, .references first second => some (first = second)
  | ifACmpNe, .references first second => some (first ≠ second)
  | ifNull, .reference object => some (object = none)
  | ifNonNull, .reference object => some (object ≠ none)
  | _, _ => none

/-- The other condition is tested on the same values and holds of those that this one does not
hold of. -/
def IsOpposite (condition other : Condition) : Prop :=
  ∀ tested, other.holds? tested = (condition.holds? tested).map not

theorem isOpposite_negate (condition : Condition) : condition.IsOpposite condition.negate := by
  intro tested
  cases condition <;> cases tested <;>
    simp only [holds?, negate, Option.map_some, Option.map_none, ← Int32.not_lt, ne_eq, decide_not,
      Bool.not_not]

/-- Numbers on both sides of zero, and references that are null or not. -/
def samples : List Tested :=
  [.number (-1), .number 0, .number 1, .numbers 0 1, .numbers 0 0, .numbers 1 0, .reference none,
    .references none none]

theorem mem_all (condition : Condition) : condition ∈ all := by
  cases condition <;> decide

theorem eq_of_holds? {condition other : Condition}
    (hholds : ∀ tested, condition.holds? tested = other.holds? tested) : condition = other := by
  have hsamples : ∀ first ∈ all, ∀ second ∈ all,
      samples.map first.holds? = samples.map second.holds? → first = second := by
    decide
  exact hsamples condition condition.mem_all other other.mem_all
    (List.map_congr_left fun tested _ => hholds tested)

theorem IsOpposite.eq_negate {condition other : Condition} (hopposite : condition.IsOpposite other) :
    other = condition.negate :=
  eq_of_holds? fun tested => (hopposite tested).trans (condition.isOpposite_negate tested).symm

theorem opcode_negate_ne (condition : Condition) : condition.negate.opcode ≠ condition.opcode := by
  cases condition <;> decide

end Condition

end JvmClass
