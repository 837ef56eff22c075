import JvmClass.Proofs.Code.Reassembly
import JvmClass.Proofs.Instruction.Constants

/-!
# Assembling what was read

Bytecode that anyone may have written, disassembled and assembled again. All its constants are in the
pool, each of its labels is at one place, its targets are instructions, and the ranges of its
variables stay in order wherever the instructions come to lie. So nothing is added to the pool, and
what is left to go wrong is what reading does not ask for: the keys of a lookup may be in any order,
the descriptor of an interface method may be anything, and the bytecode may get too long, as a wide
index or jump can be needed where there was none. The constants are referred to by their smallest
indices then, whichever ones were used before.
-/

namespace JvmClass

/-! ### Operands -/

namespace Code

variable {pool : Pool} {bytecode : CodeAttribute} {length : UInt16} {labels : OffsetLabels}
  {swept : List (Nat × Instruction UInt16)}

namespace IsSwept

theorem length_pos (hswept : IsSwept pool bytecode length labels swept)
    (hcode : 0 < bytecode.code.length) : 0 < (ofSwept bytecode labels swept).lines.length := by
  rw [length_lines]
  by_contra hnone
  have hzero := offsetsOf_length bytecode.code.length swept
  rw [Nat.eq_zero_of_not_pos hnone, hswept.found.offsetsOf_zero] at hzero
  omega

end IsSwept

/-! ### Assembling again -/

/-- Why code with all its constants in the pool is not assembled: with which fault, of which kind. -/
inductive Refuses (code : Code) (pool : Pool) : Fault → FaultKind → Prop
  /-- One of the instructions is refused. -/
  | instruction {fault : Fault} {kind : FaultKind} {line : CodeLine} (hline : line ∈ code.lines)
      (hrefuses : line.instruction.Refuses fault kind) : Refuses code pool fault kind
  /-- An attempt to lay out the instructions gets too long. -/
  | tooLong {fault : Fault} {operands : List Operand}
      (hput : (putOperands code.lines).run pool = (.ok operands, pool))
      (hlong : Layout.GetsTooLong (code.lines.zip operands) code.endLabel)
      (hfault : fault = .bytecodeOverflow ∨ ∃ size, fault = .bytecodeTooLong size) :
      Refuses code pool fault .capacity

end Code

end JvmClass
