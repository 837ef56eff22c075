import JvmClass.Code.Outline
import JvmClass.Proofs.Instruction.Encoding

/-!
# Reading whole code

Code that consists of encoded instructions is read one instruction after the other, up to its end.
`Piece` is one of them, with the form it is encoded in; `Pieces` says that code consists of them.
The outline of such code has the targets of each.
-/

namespace JvmClass

/-! ### Pieces of code -/

structure Piece where
  offset : Nat
  /-- Whether a jump takes its wide form. -/
  wide : Bool
  operand : Operand
  instruction : Instruction UInt16

namespace Piece

def bytes (piece : Piece) : Bytes :=
  piece.instruction.bytesAt piece.offset piece.wide piece.operand

def stop (piece : Piece) : Nat :=
  piece.offset + piece.bytes.length

structure IsReadable (piece : Piece) (pool : Pool) : Prop where
  operandIn : piece.instruction.OperandIn pool piece.operand
  reaches : piece.instruction.ReachesFrom piece.offset piece.wide
  near : piece.instruction.isBranch → piece.wide = false

end Piece

/-- Code consists of pieces from an offset on. -/
inductive Pieces (pool : Pool) (code : Bytes) : Nat → List Piece → Prop
  | nil : Pieces pool code code.length []
  | cons (piece : Piece) {rest : List Piece} (hreadable : piece.IsReadable pool)
      (hcode : code.drop piece.offset = piece.bytes ++ code.drop piece.stop)
      (hrest : Pieces pool code piece.stop rest) : Pieces pool code piece.offset (piece :: rest)

theorem Piece.length_bytes_pos (piece : Piece) : 0 < piece.bytes.length :=
  Instruction.length_bytesAt_pos ..

namespace Pieces

variable {pool : Pool} {code : Bytes} {start : Nat} {pieces : List Piece}

theorem start_le (hpieces : Pieces pool code start pieces) : start ≤ code.length := by
  induction hpieces with
  | nil => exact Nat.le_refl _
  | cons piece _ _ _ ih => exact Nat.le_trans (Nat.le_add_right _ _) ih

theorem stop_le (hpieces : Pieces pool code start pieces) :
    ∀ piece ∈ pieces, piece.stop ≤ code.length := by
  induction hpieces with
  | nil => exact fun _ hpiece => (List.not_mem_nil hpiece).elim
  | cons _ _ _ hrest ih => exact List.forall_mem_cons.2 ⟨hrest.start_le, ih⟩

theorem readable (hpieces : Pieces pool code start pieces) :
    ∀ piece ∈ pieces, piece.IsReadable pool := by
  induction hpieces with
  | nil => exact fun _ hpiece => (List.not_mem_nil hpiece).elim
  | cons _ hreadable _ _ ih => exact List.forall_mem_cons.2 ⟨hreadable, ih⟩

theorem sweepFrom {α : Type} {read : UInt16 → Reader α} {value : Piece → α}
    (hpieces : Pieces pool code start pieces)
    (hread : ∀ piece ∈ pieces, (read (UInt16.ofNat piece.offset)).Reads piece.bytes (value piece))
    {bytesLeft : Nat} (hleft : code.length ≤ start + bytesLeft) (found : List (UInt16 × α)) :
    JvmClass.sweepFrom read bytesLeft found ⟨start, code.drop start⟩ =
      .ok (found.reverse ++ pieces.map fun piece => (UInt16.ofNat piece.offset, value piece)) := by
  induction hpieces generalizing bytesLeft found with
  | nil =>
    rw [List.drop_length]
    cases bytesLeft <;> simp [JvmClass.sweepFrom]
  | @cons piece rest hreadable hcode hrest ih =>
    obtain ⟨hfirst, hothers⟩ := List.forall_mem_cons.1 hread
    have hpos := piece.length_bytes_pos
    have hle := hrest.start_le
    rw [Piece.stop] at hle
    obtain _ | bytesLeft := bytesLeft
    · omega
    · have hleft : code.length ≤ piece.stop + bytesLeft := by
        rw [Piece.stop]
        omega
      have hne : (piece.bytes ++ code.drop piece.stop).isEmpty = false := by
        cases hbytes : piece.bytes with
        | nil => simp [hbytes] at hpos
        | cons byte bytes => rfl
      have hvalue := hfirst.during (.atOffset (UInt16.ofNat piece.offset)) piece.offset
        (code.drop piece.stop)
      rw [hcode, JvmClass.sweepFrom]
      simp only [hne, Bool.false_eq_true, if_false, hvalue]
      change JvmClass.sweepFrom read bytesLeft _ ⟨piece.stop, _⟩ = _
      rw [ih hothers hleft]
      simp

theorem sweep {α : Type} {read : UInt16 → Reader α} {value : Piece → α}
    (hpieces : Pieces pool code 0 pieces)
    (hread : ∀ piece ∈ pieces,
      (read (UInt16.ofNat piece.offset)).Reads piece.bytes (value piece)) :
    JvmClass.sweep read code =
      .ok (pieces.map fun piece => (UInt16.ofNat piece.offset, value piece)) :=
  hpieces.sweepFrom hread (Nat.le_add_left ..) []

end Pieces

/-! ### Pieces of a line -/

/-- The instructions that a line is written as: itself, unless it is a branch that is wide. -/
def Piece.ofLine (offset : Nat) (wide : Bool) (operand : Operand) : Instruction UInt16 → List Piece
  | .branch condition target =>
    if wide then
      [⟨offset, false, operand, .branch condition.negate (UInt16.ofNat (offset + 8))⟩,
        ⟨offset + 3, true, operand, .jump .goto target⟩]
    else
      [⟨offset, false, operand, .branch condition target⟩]
  | instruction => [⟨offset, wide, operand, instruction⟩]

theorem Piece.ofLine_of_not_far {offset : Nat} {wide : Bool} {operand : Operand}
    {instruction : Instruction UInt16} (hnear : instruction.isBranch → wide = false) :
    ofLine offset wide operand instruction = [⟨offset, wide, operand, instruction⟩] := by
  cases instruction with
  | branch condition target =>
    obtain rfl : wide = false := hnear rfl
    rfl
  | _ => rfl

theorem drop_far {code : Bytes} {offset : Nat} {condition : Condition} {target : UInt16}
    {operand : Operand} (hoffset : offset + 8 < 65536)
    (hcode : code.drop offset = Instruction.bytesAt offset true operand (.branch condition target) ++
      code.drop (offset + 8)) :
    code.drop offset = Instruction.bytesAt offset false operand
        (.branch condition.negate (UInt16.ofNat (offset + 8))) ++ code.drop (offset + 3) ∧
      code.drop (offset + 3) = Instruction.bytesAt (offset + 3) true operand
        (.jump .goto target) ++ code.drop (offset + 8) := by
  rw [Instruction.bytesAt_far hoffset, List.append_assoc] at hcode
  have hjump : code.drop (offset + 3) = Instruction.bytesAt (offset + 3) true operand
      (.jump .goto target) ++ code.drop (offset + 8) := by
    rw [← List.drop_drop, hcode]
    exact List.drop_left' rfl
  exact ⟨by rw [hcode, hjump], hjump⟩

theorem reaches_skip {offset : Nat} (hoffset : offset + 8 < 65536) (condition : Condition) :
    (Instruction.branch condition (UInt16.ofNat (offset + 8))).ReachesFrom offset false := by
  intro _
  have height : ((offset + 8 : Nat) : Int) - offset = 8 := by omega
  rw [distance, UInt16.toNat_ofNat_of_lt' hoffset, height]
  rfl

theorem Pieces.ofLine {pool : Pool} {code : Bytes} {offset stop : Nat} {wide : Bool}
    {operand : Operand} {instruction : Instruction UInt16} {rest : List Piece}
    (hoperand : instruction.OperandIn pool operand)
    (hreaches : instruction.ReachesFrom offset wide)
    (hcode : code.drop offset = instruction.bytesAt offset wide operand ++ code.drop stop)
    (hstop : offset + (instruction.bytesAt offset wide operand).length = stop)
    (hsize : code.length < 65536) (hrest : Pieces pool code stop rest) :
    Pieces pool code offset (Piece.ofLine offset wide operand instruction ++ rest) := by
  subst hstop
  by_cases hnear : instruction.isBranch → wide = false
  · rw [Piece.ofLine_of_not_far hnear]
    exact .cons ⟨offset, wide, operand, instruction⟩ ⟨hoperand, hreaches, hnear⟩ hcode hrest
  · obtain ⟨hbranch, hwide⟩ := Classical.not_imp.1 hnear
    obtain rfl : wide = true := (Bool.not_eq_false wide).mp hwide
    cases instruction with
    | branch condition target =>
      have hend : offset + 8 < 65536 := Nat.lt_of_le_of_lt hrest.start_le hsize
      obtain ⟨hskip, hjump⟩ := drop_far hend hcode
      have hlast : Pieces pool code (offset + 3)
          (⟨offset + 3, true, operand, .jump .goto target⟩ :: rest) :=
        .cons ⟨offset + 3, true, operand, .jump .goto target⟩
          ⟨trivial, fun hshort => (by cases hshort), fun hbranch => (by cases hbranch)⟩ hjump hrest
      exact .cons ⟨offset, false, operand, .branch condition.negate (UInt16.ofNat (offset + 8))⟩
        ⟨trivial, reaches_skip hend condition.negate, fun _ => rfl⟩ hskip hlast
    | _ => cases hbranch

/-! ### Outlines -/

def Instruction.isEmptyTable {τ : Type} : Instruction τ → Bool
  | tableSwitch _ _ _ targets => targets.isEmpty
  | _ => false

theorem Instruction.isEmptyTable_map {τ σ : Type} (f : τ → σ) (instruction : Instruction τ) :
    (instruction.map f).isEmptyTable = instruction.isEmptyTable := by
  cases instruction with
  | tableSwitch otherwise low high targets => simp [isEmptyTable]
  | lookupSwitch otherwise cases => simp [isEmptyTable]
  | _ => rfl

namespace Outline

variable {length offset : UInt16}

/-- The opcode decides which operands are skipped. -/
theorem reads_of_shape {opcode : UInt8} (shape : OperandShape) {operands : Bytes}
    {targets : List UInt16} (hshape : OperandShape.ofOpcode? opcode = some shape)
    (hoperands : (readShape length offset shape).Reads operands targets) :
    (readInstruction length offset).Reads (opcode :: operands) targets := by
  refine Reader.Reads.bind (Reader.Reads.uint8 opcode) ?_
  rw [hshape]
  exact hoperands

theorem reads_fixed {opcode : UInt8} (operands : Bytes)
    (hshape : OperandShape.ofOpcode? opcode = some (.fixed operands.length)) :
    (readInstruction length offset).Reads (opcode :: operands) [] :=
  reads_of_shape _ hshape (Reader.Reads.returning (Reader.Reads.bytes operands) rfl)

theorem withinCode_reads {target : UInt16} (htarget : target < length) :
    (withinCode length target).Reads [] target := by
  unfold withinCode
  rw [if_pos htarget]
  exact Reader.Reads.pure target

theorem readTarget_reads {target : UInt16} (hfits : fitsShort (distance offset.toNat target))
    (htarget : target < length) :
    (readTarget length offset).Reads (shortDistance (distance offset.toNat target)) target :=
  Reader.Reads.last (Instruction.readTarget_reads hfits) (withinCode_reads htarget)

theorem readWideTarget_reads (offset : UInt16) {target : UInt16} (htarget : target < length) :
    (readWideTarget length offset).Reads (wideDistance (distance offset.toNat target)) target :=
  Reader.Reads.last (Instruction.readWideTarget_reads offset target) (withinCode_reads htarget)

theorem ofOpcode?_plain (op : PlainOp) : OperandShape.ofOpcode? op.opcode = some (.fixed 0) := by
  cases op <;> rfl

theorem ofOpcode?_variable (op : VariableOp) :
    OperandShape.ofOpcode? op.opcode = some (.fixed 1) := by
  cases op <;> rfl

theorem takesVariable_opcode (op : VariableOp) : OperandShape.takesVariable op.opcode := by
  cases op <;> rfl

theorem ofOpcode?_variableAt (op : VariableOp) (index : Fin 4) (hshort : op.hasShortForm) :
    OperandShape.ofOpcode? (Opcode.onVariableAt op index).toByte = some (.fixed 0) := by
  cases op <;> first | (cases hshort; done) | (revert index; decide)

theorem ofOpcode?_branch (condition : Condition) :
    OperandShape.ofOpcode? condition.opcode = some .target := by
  cases condition <;> rfl

theorem ofOpcode?_field (op : FieldOp) :
    OperandShape.ofOpcode? (Opcode.onField op).toByte = some (.fixed 2) := by
  cases op <;> rfl

theorem ofOpcode?_class (op : ClassOp) :
    OperandShape.ofOpcode? (Opcode.onClass op).toByte = some (.fixed 2) := by
  cases op <;> rfl

theorem reads_wide {opcode : UInt8} {operands : Bytes}
    (hskip : (do
      if OperandShape.takesVariable opcode then
        let _ ← Reader.bytes 2
      else if opcode == 0x84 then
        let _ ← Reader.bytes 4
      else
        Reader.fail (.unknownWideOpcode opcode) : Reader Unit).Reads operands ()) :
    (readInstruction length offset).Reads (Opcode.wide.toByte :: opcode :: operands) [] := by
  refine reads_of_shape .wide rfl ?_
  refine Reader.Reads.last (Reader.Reads.bind (Reader.Reads.uint8 opcode) hskip) ?_
  exact Reader.Reads.pure []

theorem reads_onVariable (op : VariableOp) (index : UInt16) :
    (readInstruction length offset).Reads (op.encode index) [] := by
  unfold VariableOp.encode
  split
  · rename_i hshort
    exact reads_fixed [] (ofOpcode?_variableAt op _ hshort.2)
  · split
    · exact reads_fixed [index.toUInt8] (ofOpcode?_variable op)
    · refine reads_wide ?_
      rw [if_pos (takesVariable_opcode op)]
      have hbytes := Reader.Reads.bytes (Bytes.ofUInt16 index)
      rw [Bytes.length_ofUInt16] at hbytes
      exact Reader.Reads.last hbytes (Reader.Reads.pure ())

theorem reads_increment (index : UInt16) (amount : Int16) :
    (readInstruction length offset).Reads (encodeIncrement index amount) [] := by
  unfold encodeIncrement
  split
  · exact reads_fixed (index.toUInt8 :: Bytes.ofInt8 amount.toInt8) rfl
  · refine reads_wide ?_
    have hbytes := Reader.Reads.bytes (Bytes.ofUInt16 index ++ Bytes.ofInt16 amount)
    rw [List.length_append, Bytes.length_ofUInt16, Bytes.length_ofInt16] at hbytes
    exact Reader.Reads.last hbytes (Reader.Reads.pure ())

theorem reads_load (constant : Loadable) (index : UInt16) :
    (readInstruction length offset).Reads (constant.encodeLoad index) [] := by
  unfold Loadable.encodeLoad
  split
  · exact reads_fixed (Bytes.ofUInt16 index) rfl
  · split
    · exact reads_fixed [index.toUInt8] rfl
    · exact reads_fixed (Bytes.ofUInt16 index) rfl

theorem reads_tableSwitch {otherwise : UInt16} {low high : Int32} {targets : List UInt16}
    (hsize : (targets.length : Int) = high.toInt - low.toInt + 1) (hne : targets ≠ [])
    (htargets : ∀ target ∈ otherwise :: targets, target < length) (wide : Bool)
    (operand : Operand) :
    (readInstruction length offset).Reads (Instruction.bytesAt offset.toNat wide operand
      (.tableSwitch otherwise low high targets)) (otherwise :: targets) := by
  obtain ⟨hotherwise, htargets⟩ := List.forall_mem_cons.1 htargets
  refine reads_of_shape .tableSwitch rfl ?_
  refine Reader.Reads.bind (Instruction.reads_padding offset) ?_
  refine Reader.Reads.bind (readWideTarget_reads offset hotherwise) ?_
  refine Reader.Reads.bind (Reader.Reads.int32 low) ?_
  refine Reader.Reads.bind (Reader.Reads.int32 high) ?_
  have hpos := List.length_pos_iff.2 hne
  have hordered : ¬ high < low := by
    rw [Int32.lt_iff_toInt_lt]
    omega
  rw [if_neg hordered, ← hsize, Int.toNat_natCast]
  have hmany := Reader.ReadsMany.flatMap fun target (htarget : target ∈ targets) =>
    readWideTarget_reads offset (htargets target htarget)
  exact Reader.Reads.last hmany.many (Reader.Reads.pure _)

theorem reads_lookupSwitch {otherwise : UInt16} {cases : List (Int32 × UInt16)}
    (hcount : cases.length < 2 ^ 31)
    (htargets : ∀ target ∈ otherwise :: cases.map Prod.snd, target < length) (wide : Bool)
    (operand : Operand) :
    (readInstruction length offset).Reads (Instruction.bytesAt offset.toNat wide operand
      (.lookupSwitch otherwise cases)) (otherwise :: cases.map Prod.snd) := by
  obtain ⟨hotherwise, htargets⟩ := List.forall_mem_cons.1 htargets
  refine reads_of_shape .lookupSwitch rfl ?_
  refine Reader.Reads.bind (Instruction.reads_padding offset) ?_
  refine Reader.Reads.bind (readWideTarget_reads offset hotherwise) ?_
  refine Reader.Reads.bind (Instruction.reads_count hcount) ?_
  have hvalue : (Int32.ofNat cases.length).toInt = cases.length :=
    Int32.toInt_ofNat_of_lt (by omega)
  have hnonnegative : ¬ Int32.ofNat cases.length < 0 := by
    rw [Int32.lt_iff_toInt_lt, hvalue]
    exact Int.not_lt.2 (Int.natCast_nonneg _)
  rw [if_neg hnonnegative, hvalue, Int.toNat_natCast]
  have hmany : (do
      let _ ← Reader.int32
      readWideTarget length offset : Reader UInt16).ReadsMany _ (cases.map Prod.snd) :=
    Reader.ReadsMany.flatMap_map fun pair hpair =>
      Reader.Reads.bind (Reader.Reads.int32 pair.1)
        (readWideTarget_reads offset (htargets pair.2 (List.mem_map_of_mem hpair)))
  have hread := hmany.many
  rw [List.length_map] at hread
  exact Reader.Reads.last hread (Reader.Reads.pure _)

/-- **Outlines.** Skipping an instruction gives its targets. -/
theorem reads_bytesAt {pool : Pool} {wide : Bool} {operand : Operand}
    {instruction : Instruction UInt16} (hoperand : instruction.OperandIn pool operand)
    (hreaches : instruction.ReachesFrom offset.toNat wide)
    (hnear : instruction.isBranch → wide = false)
    (hsize : (instruction.bytesAt offset.toNat wide operand).length < 2 ^ 31)
    (htable : instruction.isEmptyTable = false)
    (htargets : ∀ target ∈ instruction.targets, target < length) :
    (readInstruction length offset).Reads (instruction.bytesAt offset.toNat wide operand)
      instruction.targets := by
  cases instruction with
  | plain op => exact reads_fixed [] (ofOpcode?_plain op)
  | pushByte value => exact reads_fixed (Bytes.ofInt8 value) rfl
  | pushShort value => exact reads_fixed (Bytes.ofInt16 value) rfl
  | load constant => exact reads_load constant operand.index
  | onVariable op index => exact reads_onVariable op index
  | increment index amount => exact reads_increment index amount
  | branch condition target =>
    obtain rfl : wide = false := hnear rfl
    refine reads_of_shape .target (ofOpcode?_branch condition) ?_
    exact Reader.Reads.returning
      (readTarget_reads (hreaches rfl) (htargets target (List.mem_singleton_self target))) rfl
  | jump op target =>
    have htarget := htargets target (List.mem_singleton_self target)
    cases wide with
    | false =>
      refine reads_of_shape .target (by cases op <;> rfl) ?_
      exact Reader.Reads.returning (readTarget_reads (hreaches rfl) htarget) rfl
    | true =>
      refine reads_of_shape .wideTarget (by cases op <;> rfl) ?_
      exact Reader.Reads.returning (readWideTarget_reads offset htarget) rfl
  | tableSwitch otherwise low high targets =>
    exact reads_tableSwitch hoperand (List.isEmpty_eq_false_iff.1 htable) htargets wide operand
  | lookupSwitch otherwise cases =>
    refine reads_lookupSwitch ?_ htargets wide operand
    simp only [Instruction.bytesAt, List.length_cons, List.length_append,
      Instruction.length_caseBytes] at hsize
    omega
  | onField op field => exact reads_fixed (Bytes.ofUInt16 operand.index) (ofOpcode?_field op)
  | invokeVirtual method => exact reads_fixed (Bytes.ofUInt16 operand.index) rfl
  | invokeSpecial method isInterface => exact reads_fixed (Bytes.ofUInt16 operand.index) rfl
  | invokeStatic method isInterface => exact reads_fixed (Bytes.ofUInt16 operand.index) rfl
  | invokeInterface method =>
    exact reads_fixed (Bytes.ofUInt16 operand.index ++ [operand.slots, 0]) rfl
  | invokeDynamic site =>
    refine reads_fixed (Bytes.ofUInt16 operand.index ++ [0, 0]) ?_
    rfl
  | onClass op name => exact reads_fixed (Bytes.ofUInt16 operand.index) (ofOpcode?_class op)
  | newArray type => exact reads_fixed [type.code] rfl
  | multiNewArray name dimensions =>
    exact reads_fixed (Bytes.ofUInt16 operand.index ++ [dimensions]) rfl

end Outline

namespace Pieces

variable {pool : Pool} {code : Bytes} {start : Nat} {pieces : List Piece}

theorem exists_offset (hpieces : Pieces pool code start pieces) (hsize : code.length < 65536)
    {piece : Piece} (hpiece : piece ∈ pieces) :
    ∃ offset : UInt16, piece.offset = offset.toNat ∧ piece.bytes.length < 2 ^ 31 := by
  have hstop := hpieces.stop_le piece hpiece
  rw [Piece.stop] at hstop
  have hoffset : piece.offset < 65536 := by omega
  exact ⟨UInt16.ofNat piece.offset, (UInt16.toNat_ofNat_of_lt' hoffset).symm, by omega⟩

def outlineOf (pieces : List Piece) : Outline :=
  pieces.map fun piece => (UInt16.ofNat piece.offset, piece.instruction.targets)

theorem targets_outlineOf (pieces : List Piece) :
    (outlineOf pieces).targets = pieces.flatMap fun piece => piece.instruction.targets := by
  rw [outlineOf, Outline.targets, List.flatMap_map]

/-- **Outlines.** The outline of code has the targets of each piece. -/
theorem outline (hpieces : Pieces pool code 0 pieces) (hsize : code.length < 65536)
    {length : UInt16} (htables : ∀ piece ∈ pieces, piece.instruction.isEmptyTable = false)
    (htargets : ∀ piece ∈ pieces, ∀ target ∈ piece.instruction.targets, target < length) :
    Outline.ofCode length code = .ok (outlineOf pieces) := by
  refine hpieces.sweep fun piece hpiece => ?_
  have hreadable := hpieces.readable piece hpiece
  obtain ⟨offset, hoffset, hlength⟩ := hpieces.exists_offset hsize hpiece
  obtain ⟨hoperand, hreaches, hnear⟩ := hreadable
  rw [Piece.bytes] at hlength ⊢
  rw [hoffset] at hreaches hlength ⊢
  rw [UInt16.ofNat_toNat]
  exact Outline.reads_bytesAt hoperand hreaches hnear hlength (htables piece hpiece)
    (htargets piece hpiece)

end Pieces

end JvmClass
