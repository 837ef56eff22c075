/-!
# Operations

The operations of the instruction set, grouped by the operands they take, with the byte that encodes
each and the name it goes by. Some operations have more than one encoding; the byte given here is
the one of the general form.
-/

namespace JvmClass

/-- Operations without operands. -/
inductive PlainOp where
  | nop | aConstNull | iConstM1 | iConst0 | iConst1 | iConst2 | iConst3 | iConst4 | iConst5
  | lConst0 | lConst1 | fConst0 | fConst1 | fConst2 | dConst0 | dConst1 | iALoad | lALoad | fALoad
  | dALoad | aALoad | bALoad | cALoad | sALoad | iAStore | lAStore | fAStore | dAStore | aAStore
  | bAStore | cAStore | sAStore | pop | pop2 | dup | dupX1 | dupX2 | dup2 | dup2X1 | dup2X2 | swap
  | iAdd | lAdd | fAdd | dAdd | iSub | lSub | fSub | dSub | iMul | lMul | fMul | dMul | iDiv | lDiv
  | fDiv | dDiv | iRem | lRem | fRem | dRem | iNeg | lNeg | fNeg | dNeg | iShl | lShl | iShr | lShr
  | iUShr | lUShr | iAnd | lAnd | iOr | lOr | iXor | lXor | i2L | i2F | i2D | l2I | l2F | l2D | f2I
  | f2L | f2D | d2I | d2L | d2F | i2B | i2C | i2S | lCmp | fCmpL | fCmpG | dCmpL | dCmpG | iReturn
  | lReturn | fReturn | dReturn | aReturn | voidReturn | arrayLength | aThrow | monitorEnter
  | monitorExit
deriving DecidableEq, Repr

namespace PlainOp

def all : List PlainOp :=
  [nop, aConstNull, iConstM1, iConst0, iConst1, iConst2, iConst3, iConst4, iConst5, lConst0,
    lConst1, fConst0, fConst1, fConst2, dConst0, dConst1, iALoad, lALoad, fALoad, dALoad, aALoad,
    bALoad, cALoad, sALoad, iAStore, lAStore, fAStore, dAStore, aAStore, bAStore, cAStore, sAStore,
    pop, pop2, dup, dupX1, dupX2, dup2, dup2X1, dup2X2, swap, iAdd, lAdd, fAdd, dAdd, iSub, lSub,
    fSub, dSub, iMul, lMul, fMul, dMul, iDiv, lDiv, fDiv, dDiv, iRem, lRem, fRem, dRem, iNeg, lNeg,
    fNeg, dNeg, iShl, lShl, iShr, lShr, iUShr, lUShr, iAnd, lAnd, iOr, lOr, iXor, lXor, i2L, i2F,
    i2D, l2I, l2F, l2D, f2I, f2L, f2D, d2I, d2L, d2F, i2B, i2C, i2S, lCmp, fCmpL, fCmpG, dCmpL,
    dCmpG, iReturn, lReturn, fReturn, dReturn, aReturn, voidReturn, arrayLength, aThrow,
    monitorEnter, monitorExit]

def opcode : PlainOp → UInt8
  | nop => 0x00
  | aConstNull => 0x01
  | iConstM1 => 0x02
  | iConst0 => 0x03
  | iConst1 => 0x04
  | iConst2 => 0x05
  | iConst3 => 0x06
  | iConst4 => 0x07
  | iConst5 => 0x08
  | lConst0 => 0x09
  | lConst1 => 0x0a
  | fConst0 => 0x0b
  | fConst1 => 0x0c
  | fConst2 => 0x0d
  | dConst0 => 0x0e
  | dConst1 => 0x0f
  | iALoad => 0x2e
  | lALoad => 0x2f
  | fALoad => 0x30
  | dALoad => 0x31
  | aALoad => 0x32
  | bALoad => 0x33
  | cALoad => 0x34
  | sALoad => 0x35
  | iAStore => 0x4f
  | lAStore => 0x50
  | fAStore => 0x51
  | dAStore => 0x52
  | aAStore => 0x53
  | bAStore => 0x54
  | cAStore => 0x55
  | sAStore => 0x56
  | pop => 0x57
  | pop2 => 0x58
  | dup => 0x59
  | dupX1 => 0x5a
  | dupX2 => 0x5b
  | dup2 => 0x5c
  | dup2X1 => 0x5d
  | dup2X2 => 0x5e
  | swap => 0x5f
  | iAdd => 0x60
  | lAdd => 0x61
  | fAdd => 0x62
  | dAdd => 0x63
  | iSub => 0x64
  | lSub => 0x65
  | fSub => 0x66
  | dSub => 0x67
  | iMul => 0x68
  | lMul => 0x69
  | fMul => 0x6a
  | dMul => 0x6b
  | iDiv => 0x6c
  | lDiv => 0x6d
  | fDiv => 0x6e
  | dDiv => 0x6f
  | iRem => 0x70
  | lRem => 0x71
  | fRem => 0x72
  | dRem => 0x73
  | iNeg => 0x74
  | lNeg => 0x75
  | fNeg => 0x76
  | dNeg => 0x77
  | iShl => 0x78
  | lShl => 0x79
  | iShr => 0x7a
  | lShr => 0x7b
  | iUShr => 0x7c
  | lUShr => 0x7d
  | iAnd => 0x7e
  | lAnd => 0x7f
  | iOr => 0x80
  | lOr => 0x81
  | iXor => 0x82
  | lXor => 0x83
  | i2L => 0x85
  | i2F => 0x86
  | i2D => 0x87
  | l2I => 0x88
  | l2F => 0x89
  | l2D => 0x8a
  | f2I => 0x8b
  | f2L => 0x8c
  | f2D => 0x8d
  | d2I => 0x8e
  | d2L => 0x8f
  | d2F => 0x90
  | i2B => 0x91
  | i2C => 0x92
  | i2S => 0x93
  | lCmp => 0x94
  | fCmpL => 0x95
  | fCmpG => 0x96
  | dCmpL => 0x97
  | dCmpG => 0x98
  | iReturn => 0xac
  | lReturn => 0xad
  | fReturn => 0xae
  | dReturn => 0xaf
  | aReturn => 0xb0
  | voidReturn => 0xb1
  | arrayLength => 0xbe
  | aThrow => 0xbf
  | monitorEnter => 0xc2
  | monitorExit => 0xc3

def name : PlainOp → String
  | nop => "Nop"
  | aConstNull => "AConstNull"
  | iConstM1 => "IConstM1"
  | iConst0 => "IConst0"
  | iConst1 => "IConst1"
  | iConst2 => "IConst2"
  | iConst3 => "IConst3"
  | iConst4 => "IConst4"
  | iConst5 => "IConst5"
  | lConst0 => "LConst0"
  | lConst1 => "LConst1"
  | fConst0 => "FConst0"
  | fConst1 => "FConst1"
  | fConst2 => "FConst2"
  | dConst0 => "DConst0"
  | dConst1 => "DConst1"
  | iALoad => "IALoad"
  | lALoad => "LALoad"
  | fALoad => "FALoad"
  | dALoad => "DALoad"
  | aALoad => "AALoad"
  | bALoad => "BALoad"
  | cALoad => "CALoad"
  | sALoad => "SALoad"
  | iAStore => "IAStore"
  | lAStore => "LAStore"
  | fAStore => "FAStore"
  | dAStore => "DAStore"
  | aAStore => "AAStore"
  | bAStore => "BAStore"
  | cAStore => "CAStore"
  | sAStore => "SAStore"
  | pop => "Pop"
  | pop2 => "Pop2"
  | dup => "Dup"
  | dupX1 => "DupX1"
  | dupX2 => "DupX2"
  | dup2 => "Dup2"
  | dup2X1 => "Dup2X1"
  | dup2X2 => "Dup2X2"
  | swap => "Swap"
  | iAdd => "IAdd"
  | lAdd => "LAdd"
  | fAdd => "FAdd"
  | dAdd => "DAdd"
  | iSub => "ISub"
  | lSub => "LSub"
  | fSub => "FSub"
  | dSub => "DSub"
  | iMul => "IMul"
  | lMul => "LMul"
  | fMul => "FMul"
  | dMul => "DMul"
  | iDiv => "IDiv"
  | lDiv => "LDiv"
  | fDiv => "FDiv"
  | dDiv => "DDiv"
  | iRem => "IRem"
  | lRem => "LRem"
  | fRem => "FRem"
  | dRem => "DRem"
  | iNeg => "INeg"
  | lNeg => "LNeg"
  | fNeg => "FNeg"
  | dNeg => "DNeg"
  | iShl => "IShl"
  | lShl => "LShl"
  | iShr => "IShr"
  | lShr => "LShr"
  | iUShr => "IUShr"
  | lUShr => "LUShr"
  | iAnd => "IAnd"
  | lAnd => "LAnd"
  | iOr => "IOr"
  | lOr => "LOr"
  | iXor => "IXor"
  | lXor => "LXor"
  | i2L => "I2L"
  | i2F => "I2F"
  | i2D => "I2D"
  | l2I => "L2I"
  | l2F => "L2F"
  | l2D => "L2D"
  | f2I => "F2I"
  | f2L => "F2L"
  | f2D => "F2D"
  | d2I => "D2I"
  | d2L => "D2L"
  | d2F => "D2F"
  | i2B => "I2B"
  | i2C => "I2C"
  | i2S => "I2S"
  | lCmp => "LCmp"
  | fCmpL => "FCmpL"
  | fCmpG => "FCmpG"
  | dCmpL => "DCmpL"
  | dCmpG => "DCmpG"
  | iReturn => "IReturn"
  | lReturn => "LReturn"
  | fReturn => "FReturn"
  | dReturn => "DReturn"
  | aReturn => "AReturn"
  | voidReturn => "Return"
  | arrayLength => "ArrayLength"
  | aThrow => "AThrow"
  | monitorEnter => "MonitorEnter"
  | monitorExit => "MonitorExit"

def ofName? (name : String) : Option PlainOp :=
  all.find? (·.name == name)

end PlainOp

/-- Operations on a local variable. -/
inductive VariableOp where
  | iLoad | lLoad | fLoad | dLoad | aLoad | iStore | lStore | fStore | dStore | aStore | ret
deriving DecidableEq, Repr

namespace VariableOp

def all : List VariableOp :=
  [iLoad, lLoad, fLoad, dLoad, aLoad, iStore, lStore, fStore, dStore, aStore, ret]

def opcode : VariableOp → UInt8
  | iLoad => 0x15
  | lLoad => 0x16
  | fLoad => 0x17
  | dLoad => 0x18
  | aLoad => 0x19
  | iStore => 0x36
  | lStore => 0x37
  | fStore => 0x38
  | dStore => 0x39
  | aStore => 0x3a
  | ret => 0xa9

def name : VariableOp → String
  | iLoad => "ILoad"
  | lLoad => "LLoad"
  | fLoad => "FLoad"
  | dLoad => "DLoad"
  | aLoad => "ALoad"
  | iStore => "IStore"
  | lStore => "LStore"
  | fStore => "FStore"
  | dStore => "DStore"
  | aStore => "AStore"
  | ret => "Ret"

def ofName? (name : String) : Option VariableOp :=
  all.find? (·.name == name)

/-- Loads and stores have opcodes of their own for the first four variables. -/
def hasShortForm : VariableOp → Bool
  | ret => false
  | _ => true

/-- The opcode of a load or store of one of the first four variables. -/
def shortOpcode (op : VariableOp) (index : Fin 4) : UInt8 :=
  let first : UInt8 :=
    match op with
    | iLoad => 0x1a
    | lLoad => 0x1e
    | fLoad => 0x22
    | dLoad => 0x26
    | aLoad => 0x2a
    | iStore => 0x3b
    | lStore => 0x3f
    | fStore => 0x43
    | dStore => 0x47
    | aStore => 0x4b
    | ret => 0xa9
  first + UInt8.ofNat index.val

end VariableOp

/-- Conditions to branch on. -/
inductive Condition where
  | ifEq | ifNe | ifLt | ifGe | ifGt | ifLe | ifICmpEq | ifICmpNe | ifICmpLt | ifICmpGe | ifICmpGt
  | ifICmpLe | ifACmpEq | ifACmpNe | ifNull | ifNonNull
deriving DecidableEq, Repr

namespace Condition

def all : List Condition :=
  [ifEq, ifNe, ifLt, ifGe, ifGt, ifLe, ifICmpEq, ifICmpNe, ifICmpLt, ifICmpGe, ifICmpGt, ifICmpLe,
    ifACmpEq, ifACmpNe, ifNull, ifNonNull]

def opcode : Condition → UInt8
  | ifEq => 0x99
  | ifNe => 0x9a
  | ifLt => 0x9b
  | ifGe => 0x9c
  | ifGt => 0x9d
  | ifLe => 0x9e
  | ifICmpEq => 0x9f
  | ifICmpNe => 0xa0
  | ifICmpLt => 0xa1
  | ifICmpGe => 0xa2
  | ifICmpGt => 0xa3
  | ifICmpLe => 0xa4
  | ifACmpEq => 0xa5
  | ifACmpNe => 0xa6
  | ifNull => 0xc6
  | ifNonNull => 0xc7

def name : Condition → String
  | ifEq => "IfEq"
  | ifNe => "IfNe"
  | ifLt => "IfLt"
  | ifGe => "IfGe"
  | ifGt => "IfGt"
  | ifLe => "IfLe"
  | ifICmpEq => "IfICmpEq"
  | ifICmpNe => "IfICmpNe"
  | ifICmpLt => "IfICmpLt"
  | ifICmpGe => "IfICmpGe"
  | ifICmpGt => "IfICmpGt"
  | ifICmpLe => "IfICmpLe"
  | ifACmpEq => "IfACmpEq"
  | ifACmpNe => "IfACmpNe"
  | ifNull => "IfNull"
  | ifNonNull => "IfNonNull"

def ofName? (name : String) : Option Condition :=
  all.find? (·.name == name)

/-- The condition that holds exactly when this one does not. -/
def negate : Condition → Condition
  | ifEq => ifNe
  | ifNe => ifEq
  | ifLt => ifGe
  | ifGe => ifLt
  | ifGt => ifLe
  | ifLe => ifGt
  | ifICmpEq => ifICmpNe
  | ifICmpNe => ifICmpEq
  | ifICmpLt => ifICmpGe
  | ifICmpGe => ifICmpLt
  | ifICmpGt => ifICmpLe
  | ifICmpLe => ifICmpGt
  | ifACmpEq => ifACmpNe
  | ifACmpNe => ifACmpEq
  | ifNull => ifNonNull
  | ifNonNull => ifNull

end Condition

/-- Operations on a field. -/
inductive FieldOp where
  | getStatic | putStatic | getField | putField
deriving DecidableEq, Repr

namespace FieldOp

def all : List FieldOp :=
  [getStatic, putStatic, getField, putField]

def opcode : FieldOp → UInt8
  | getStatic => 0xb2
  | putStatic => 0xb3
  | getField => 0xb4
  | putField => 0xb5

def name : FieldOp → String
  | getStatic => "GetStatic"
  | putStatic => "PutStatic"
  | getField => "GetField"
  | putField => "PutField"

def ofName? (name : String) : Option FieldOp :=
  all.find? (·.name == name)

end FieldOp

/-- Operations on a class. -/
inductive ClassOp where
  | newObject | aNewArray | checkCast | instanceOf
deriving DecidableEq, Repr

namespace ClassOp

def all : List ClassOp :=
  [newObject, aNewArray, checkCast, instanceOf]

def opcode : ClassOp → UInt8
  | newObject => 0xbb
  | aNewArray => 0xbd
  | checkCast => 0xc0
  | instanceOf => 0xc1

def name : ClassOp → String
  | newObject => "New"
  | aNewArray => "ANewArray"
  | checkCast => "CheckCast"
  | instanceOf => "InstanceOf"

def ofName? (name : String) : Option ClassOp :=
  all.find? (·.name == name)

end ClassOp

/-- Unconditional jumps, the second of which leaves a return address. -/
inductive JumpOp where
  | goto | jsr
deriving DecidableEq, Repr

namespace JumpOp

def all : List JumpOp :=
  [goto, jsr]

/-- The form with a target up to 32767 bytes away. -/
def opcode : JumpOp → UInt8
  | goto => 0xa7
  | jsr => 0xa8

/-- The form that reaches every target. -/
def wideOpcode : JumpOp → UInt8
  | goto => 0xc8
  | jsr => 0xc9

def name : JumpOp → String
  | goto => "Goto"
  | jsr => "Jsr"

def ofName? (name : String) : Option JumpOp :=
  all.find? (·.name == name)

end JumpOp

/-- What an array of primitive values holds. -/
inductive ArrayType where
  | boolean | char | float | double | byte | short | int | long
deriving DecidableEq, Repr

namespace ArrayType

def all : List ArrayType :=
  [boolean, char, float, double, byte, short, int, long]

def code : ArrayType → UInt8
  | boolean => 4
  | char => 5
  | float => 6
  | double => 7
  | byte => 8
  | short => 9
  | int => 10
  | long => 11

def ofCode? : UInt8 → Option ArrayType
  | 4 => some boolean
  | 5 => some char
  | 6 => some float
  | 7 => some double
  | 8 => some byte
  | 9 => some short
  | 10 => some int
  | 11 => some long
  | _ => none

def name : ArrayType → String
  | boolean => "Boolean"
  | char => "Char"
  | float => "Float"
  | double => "Double"
  | byte => "Byte"
  | short => "Short"
  | int => "Int"
  | long => "Long"

def ofName? (name : String) : Option ArrayType :=
  all.find? (·.name == name)

end ArrayType

end JvmClass
