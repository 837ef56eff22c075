import JvmClass.Instruction.Operation

/-!
# Opcodes

The byte an instruction starts with, by what follows it. Every byte up to `0xc9` is an opcode, and
`table` has them in the order of their bytes, so reading one is looking it up; `toByte` is how they
are written.
-/

namespace JvmClass

inductive Opcode where
  | plain (op : PlainOp)
  | pushByte
  | pushShort
  /-- Loads a constant, by an index of one byte. -/
  | load
  /-- Loads a constant, by an index of two bytes. -/
  | loadWide
  /-- Loads a constant that takes two places on the stack. -/
  | loadDouble
  | onVariable (op : VariableOp)
  /-- Loads or stores one of the first four local variables. -/
  | onVariableAt (op : VariableOp) (index : Fin 4)
  | increment
  | branch (condition : Condition)
  | jump (op : JumpOp)
  | jumpWide (op : JumpOp)
  | tableSwitch
  | lookupSwitch
  | onField (op : FieldOp)
  | invokeVirtual
  | invokeSpecial
  | invokeStatic
  | invokeInterface
  | invokeDynamic
  | onClass (op : ClassOp)
  | newArray
  /-- Makes the operands of the operation that follows twice as wide. -/
  | wide
  | multiNewArray
deriving DecidableEq, Repr

namespace Opcode

/-- All opcodes in the order of their bytes. -/
@[irreducible] def table : Array Opcode :=
  #[
    .plain .nop, .plain .aConstNull, .plain .iConstM1, .plain .iConst0, .plain .iConst1,
    .plain .iConst2, .plain .iConst3, .plain .iConst4, .plain .iConst5, .plain .lConst0,
    .plain .lConst1, .plain .fConst0, .plain .fConst1, .plain .fConst2, .plain .dConst0,
    .plain .dConst1, .pushByte, .pushShort, .load, .loadWide, .loadDouble, .onVariable .iLoad,
    .onVariable .lLoad, .onVariable .fLoad, .onVariable .dLoad, .onVariable .aLoad,
    .onVariableAt .iLoad 0, .onVariableAt .iLoad 1, .onVariableAt .iLoad 2, .onVariableAt .iLoad 3,
    .onVariableAt .lLoad 0, .onVariableAt .lLoad 1, .onVariableAt .lLoad 2, .onVariableAt .lLoad 3,
    .onVariableAt .fLoad 0, .onVariableAt .fLoad 1, .onVariableAt .fLoad 2, .onVariableAt .fLoad 3,
    .onVariableAt .dLoad 0, .onVariableAt .dLoad 1, .onVariableAt .dLoad 2, .onVariableAt .dLoad 3,
    .onVariableAt .aLoad 0, .onVariableAt .aLoad 1, .onVariableAt .aLoad 2, .onVariableAt .aLoad 3,
    .plain .iALoad, .plain .lALoad, .plain .fALoad, .plain .dALoad, .plain .aALoad, .plain .bALoad,
    .plain .cALoad, .plain .sALoad, .onVariable .iStore, .onVariable .lStore, .onVariable .fStore,
    .onVariable .dStore, .onVariable .aStore, .onVariableAt .iStore 0, .onVariableAt .iStore 1,
    .onVariableAt .iStore 2, .onVariableAt .iStore 3, .onVariableAt .lStore 0,
    .onVariableAt .lStore 1, .onVariableAt .lStore 2, .onVariableAt .lStore 3,
    .onVariableAt .fStore 0, .onVariableAt .fStore 1, .onVariableAt .fStore 2,
    .onVariableAt .fStore 3, .onVariableAt .dStore 0, .onVariableAt .dStore 1,
    .onVariableAt .dStore 2, .onVariableAt .dStore 3, .onVariableAt .aStore 0,
    .onVariableAt .aStore 1, .onVariableAt .aStore 2, .onVariableAt .aStore 3, .plain .iAStore,
    .plain .lAStore, .plain .fAStore, .plain .dAStore, .plain .aAStore, .plain .bAStore,
    .plain .cAStore, .plain .sAStore, .plain .pop, .plain .pop2, .plain .dup, .plain .dupX1,
    .plain .dupX2, .plain .dup2, .plain .dup2X1, .plain .dup2X2, .plain .swap, .plain .iAdd,
    .plain .lAdd, .plain .fAdd, .plain .dAdd, .plain .iSub, .plain .lSub, .plain .fSub,
    .plain .dSub, .plain .iMul, .plain .lMul, .plain .fMul, .plain .dMul, .plain .iDiv,
    .plain .lDiv, .plain .fDiv, .plain .dDiv, .plain .iRem, .plain .lRem, .plain .fRem,
    .plain .dRem, .plain .iNeg, .plain .lNeg, .plain .fNeg, .plain .dNeg, .plain .iShl,
    .plain .lShl, .plain .iShr, .plain .lShr, .plain .iUShr, .plain .lUShr, .plain .iAnd,
    .plain .lAnd, .plain .iOr, .plain .lOr, .plain .iXor, .plain .lXor, .increment, .plain .i2L,
    .plain .i2F, .plain .i2D, .plain .l2I, .plain .l2F, .plain .l2D, .plain .f2I, .plain .f2L,
    .plain .f2D, .plain .d2I, .plain .d2L, .plain .d2F, .plain .i2B, .plain .i2C, .plain .i2S,
    .plain .lCmp, .plain .fCmpL, .plain .fCmpG, .plain .dCmpL, .plain .dCmpG, .branch .ifEq,
    .branch .ifNe, .branch .ifLt, .branch .ifGe, .branch .ifGt, .branch .ifLe, .branch .ifICmpEq,
    .branch .ifICmpNe, .branch .ifICmpLt, .branch .ifICmpGe, .branch .ifICmpGt, .branch .ifICmpLe,
    .branch .ifACmpEq, .branch .ifACmpNe, .jump .goto, .jump .jsr, .onVariable .ret, .tableSwitch,
    .lookupSwitch, .plain .iReturn, .plain .lReturn, .plain .fReturn, .plain .dReturn,
    .plain .aReturn, .plain .voidReturn, .onField .getStatic, .onField .putStatic,
    .onField .getField, .onField .putField, .invokeVirtual, .invokeSpecial, .invokeStatic,
    .invokeInterface, .invokeDynamic, .onClass .newObject, .newArray, .onClass .aNewArray,
    .plain .arrayLength, .plain .aThrow, .onClass .checkCast, .onClass .instanceOf,
    .plain .monitorEnter, .plain .monitorExit, .wide, .multiNewArray, .branch .ifNull,
    .branch .ifNonNull, .jumpWide .goto, .jumpWide .jsr
  ]

def ofByte? (byte : UInt8) : Option Opcode :=
  table[byte.toNat]?

def toByte : Opcode → UInt8
  | plain op => op.opcode
  | pushByte => 0x10
  | pushShort => 0x11
  | load => 0x12
  | loadWide => 0x13
  | loadDouble => 0x14
  | onVariable op => op.opcode
  | onVariableAt op index => op.shortOpcode index
  | increment => 0x84
  | branch condition => condition.opcode
  | jump op => op.opcode
  | jumpWide op => op.wideOpcode
  | tableSwitch => 0xaa
  | lookupSwitch => 0xab
  | onField op => op.opcode
  | invokeVirtual => 0xb6
  | invokeSpecial => 0xb7
  | invokeStatic => 0xb8
  | invokeInterface => 0xb9
  | invokeDynamic => 0xba
  | onClass op => op.opcode
  | newArray => 0xbc
  | wide => 0xc4
  | multiNewArray => 0xc5

end Opcode

end JvmClass
