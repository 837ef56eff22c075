import JvmClass.Instruction.Encoder
import JvmClass.Instruction.Reader
import JvmClass.Proofs.Instruction.Condition
import JvmClass.Proofs.Pool.Writing
import JvmClass.Proofs.Reading
import JvmClass.Proofs.Renaming

/-!
# Instructions with known targets

Once every target has an offset, the bytes of an instruction are a function of the instruction, the
offset it is at and whether it takes its wide form: `Instruction.bytesAt`. The reader of
instructions turns them back into the instruction, except for a wide conditional branch, which
reads as the opposite branch over a jump.
-/

namespace JvmClass

/-! ### Opcodes -/

/-- There is no short form of the return to an address. -/
def Opcode.isEncodable : Opcode → Bool
  | onVariableAt op _ => op.hasShortForm
  | _ => true

theorem Opcode.ofByte?_toByte {opcode : Opcode} (hencodable : opcode.isEncodable) :
    Opcode.ofByte? opcode.toByte = some opcode := by
  cases opcode with
  | plain op => cases op <;> decide +kernel
  | onVariable op => cases op <;> decide +kernel
  | onVariableAt op index =>
    match index with
    | 0 | 1 | 2 | 3 => cases op <;> first | decide +kernel | exact absurd hencodable (by decide)
  | branch condition => cases condition <;> decide +kernel
  | jump op => cases op <;> decide +kernel
  | jumpWide op => cases op <;> decide +kernel
  | onField op => cases op <;> decide +kernel
  | onClass op => cases op <;> decide +kernel
  | _ => decide +kernel

theorem ArrayType.ofCode?_code (type : ArrayType) : ArrayType.ofCode? type.code = some type := by
  cases type <;> rfl

/-! ### Bytes at an offset -/

theorem EncodingSite.farBranchBase_of_le {offset : Nat} (hoffset : offset + 3 ≤ 65535) :
    farBranchBase offset = offset + 3 :=
  Nat.min_eq_left hoffset

namespace Instruction

def paddingAt (offset : Nat) : Bytes :=
  List.replicate (3 - offset % 4) 0

/-- The bytes of an instruction at an offset, when its targets are offsets; `wide` is whether a
branch or jump takes its wide form. -/
def bytesAt (offset : Nat) (wide : Bool) (operand : Operand) : Instruction UInt16 → Bytes
  | plain op => [op.opcode]
  | pushByte value => Opcode.pushByte.toByte :: Bytes.ofInt8 value
  | pushShort value => Opcode.pushShort.toByte :: Bytes.ofInt16 value
  | load constant => constant.encodeLoad operand.index
  | onVariable op index => op.encode index
  | increment index amount => encodeIncrement index amount
  | branch condition target =>
    if wide then
      EncodingSite.farBranchHead condition ++
        wideDistance (distance (EncodingSite.farBranchBase offset) target)
    else
      condition.opcode :: shortDistance (distance offset target)
  | jump op target =>
    if wide then
      op.wideOpcode :: wideDistance (distance offset target)
    else
      op.opcode :: shortDistance (distance offset target)
  | tableSwitch otherwise low high targets =>
    Opcode.tableSwitch.toByte :: (paddingAt offset ++ (wideDistance (distance offset otherwise)
      ++ (Bytes.ofInt32 low ++ (Bytes.ofInt32 high
      ++ targets.flatMap fun target => wideDistance (distance offset target)))))
  | lookupSwitch otherwise cases =>
    Opcode.lookupSwitch.toByte :: (paddingAt offset ++ (wideDistance (distance offset otherwise)
      ++ (Bytes.bigEndian 4 cases.length
      ++ cases.flatMap fun (key, target) =>
        Bytes.ofInt32 key ++ wideDistance (distance offset target))))
  | onField op _ => operand.encodeAfter (.onField op)
  | invokeVirtual _ => operand.encodeAfter .invokeVirtual
  | invokeSpecial .. => operand.encodeAfter .invokeSpecial
  | invokeStatic .. => operand.encodeAfter .invokeStatic
  | invokeInterface _ => operand.encodeAfter .invokeInterface ++ [operand.slots, 0]
  | invokeDynamic _ => operand.encodeAfter .invokeDynamic ++ [0, 0]
  | onClass op _ => operand.encodeAfter (.onClass op)
  | newArray type => [Opcode.newArray.toByte, type.code]
  | multiNewArray _ dimensions => operand.encodeAfter .multiNewArray ++ [dimensions]

theorem length_bytesAt_pos (offset : Nat) (wide : Bool) (operand : Operand)
    (instruction : Instruction UInt16) : 0 < (instruction.bytesAt offset wide operand).length := by
  cases instruction with
  | load constant =>
    simp only [bytesAt, Loadable.encodeLoad]
    split
    · simp
    · split <;> simp
  | onVariable op index =>
    simp only [bytesAt, VariableOp.encode]
    split
    · simp
    · split <;> simp
  | increment index amount =>
    simp only [bytesAt, encodeIncrement]
    split <;> simp
  | branch condition target => cases wide <;> simp [bytesAt, EncodingSite.farBranchHead]
  | jump op target => cases wide <;> simp [bytesAt]
  | _ => simp [bytesAt, Operand.encodeAfter]

/-- The operand is what the instruction needs: its constant is at that index of the pool, and a
table has as many targets as it has keys. -/
def OperandIn {τ : Type} (pool : Pool) (operand : Operand) : Instruction τ → Prop
  | load constant => pool.loadableAt operand.index = .ok constant
  | onField _ field => pool.fieldRefAt operand.index = .ok field
  | invokeVirtual method => pool.methodRefAt operand.index = .ok method
  | invokeSpecial method isInterface => pool.anyMethodRefAt operand.index = .ok (method, isInterface)
  | invokeStatic method isInterface => pool.anyMethodRefAt operand.index = .ok (method, isInterface)
  | invokeInterface method => pool.interfaceMethodRefAt operand.index = .ok method
  | invokeDynamic site => pool.invokeDynamicAt operand.index = .ok site
  | onClass _ name => pool.classAt operand.index = .ok name
  | multiNewArray name _ => pool.classAt operand.index = .ok name
  | tableSwitch _ low high targets => (targets.length : Int) = high.toInt - low.toInt + 1
  | _ => True

def ReachesFrom (offset : Nat) (wide : Bool) : Instruction UInt16 → Prop
  | branch _ target => wide = false → fitsShort (distance offset target)
  | jump _ target => wide = false → fitsShort (distance offset target)
  | _ => True

def isBranch {τ : Type} : Instruction τ → Bool
  | branch .. => true
  | _ => false

/-! ### Sizes -/

@[simp] theorem length_wideDistance (distance : Int) : (wideDistance distance).length = 4 := by
  simp [wideDistance]

theorem length_caseBytes (offset : Nat) (cases : List (Int32 × UInt16)) :
    (cases.flatMap fun (key, target) =>
      Bytes.ofInt32 key ++ wideDistance (distance offset target)).length = 8 * cases.length := by
  induction cases with
  | nil => rfl
  | cons pair cases ih =>
    simp only [List.flatMap_cons, List.length_append, List.length_cons, length_wideDistance,
      Bytes.length_ofInt32, ih]
    omega

/-! ### Targets -/

theorem targetOf_distance (offset target : UInt16) :
    (targetOf offset (distance offset.toNat target)).Reads [] target := by
  have hsum : (offset.toNat : Int) + distance offset.toNat target = target.toNat := by
    unfold distance
    omega
  have hlt := target.toNat_lt
  unfold targetOf
  dsimp only
  rw [hsum, if_pos ⟨by omega, by omega⟩]
  simpa using Reader.Reads.pure target

theorem readTarget_reads {offset target : UInt16}
    (hfits : fitsShort (distance offset.toNat target)) :
    (readTarget offset).Reads (shortDistance (distance offset.toNat target)) target := by
  have hvalue : (Int16.ofInt (distance offset.toNat target)).toInt =
      distance offset.toNat target := by
    simp only [fitsShort, Bool.and_eq_true, decide_eq_true_eq] at hfits
    exact Int16.toInt_ofInt_of_le hfits.1 (by omega)
  refine Reader.Reads.last (Reader.Reads.int16 _) ?_
  rw [hvalue]
  exact targetOf_distance offset target

theorem readWideTarget_reads (offset target : UInt16) :
    (readWideTarget offset).Reads (wideDistance (distance offset.toNat target)) target := by
  have hvalue : (Int32.ofInt (distance offset.toNat target)).toInt =
      distance offset.toNat target := by
    have hoffset := offset.toNat_lt
    have htarget := target.toNat_lt
    unfold distance
    exact Int32.toInt_ofInt_of_le (by omega) (by omega)
  refine Reader.Reads.last (Reader.Reads.int32 _) ?_
  rw [hvalue]
  exact targetOf_distance offset target

/-! ### Reading back -/

variable {pool : Pool} {offset : UInt16}

/-- The opcode decides how the rest is read. -/
theorem reads_of_opcode (opcode : Opcode) {operands : Bytes} {instruction : Instruction UInt16}
    (hencodable : opcode.isEncodable)
    (hoperands : (readOperands pool offset opcode).Reads operands instruction) :
    (read pool offset).Reads (opcode.toByte :: operands) instruction := by
  refine Reader.Reads.bind (Reader.Reads.uint8 opcode.toByte) ?_
  rw [Opcode.ofByte?_toByte hencodable]
  exact hoperands

theorem reads_padding (offset : UInt16) :
    (readPadding offset).Reads (paddingAt offset.toNat) () := by
  have hmany : Reader.uint8.ReadsMany ((paddingAt offset.toNat).flatMap fun byte => [byte])
      (paddingAt offset.toNat) :=
    Reader.ReadsMany.flatMap fun byte _ => Reader.Reads.uint8 byte
  have hread := hmany.many
  rw [List.flatMap_singleton', paddingAt, List.length_replicate] at hread
  exact Reader.Reads.last hread (Reader.Reads.pure ())

theorem reads_tableSwitch {otherwise : UInt16} {low high : Int32} {targets : List UInt16}
    (hlength : (targets.length : Int) = high.toInt - low.toInt + 1) (wide : Bool)
    (operand : Operand) :
    (read pool offset).Reads
      (bytesAt offset.toNat wide operand (tableSwitch otherwise low high targets))
      (tableSwitch otherwise low high targets) := by
  refine reads_of_opcode .tableSwitch rfl ?_
  refine Reader.Reads.bind (reads_padding offset) ?_
  refine Reader.Reads.bind (readWideTarget_reads offset otherwise) ?_
  refine Reader.Reads.bind (Reader.Reads.int32 low) ?_
  refine Reader.Reads.bind (Reader.Reads.int32 high) ?_
  have hmany := Reader.ReadsMany.flatMap fun target (_ : target ∈ targets) =>
    readWideTarget_reads offset target
  rw [← hlength, Int.toNat_natCast]
  exact Reader.Reads.last hmany.many (Reader.Reads.pure _)

theorem reads_count {count : Nat} (hcount : count < 2 ^ 31) :
    Reader.int32.Reads (Bytes.bigEndian 4 count) (Int32.ofNat count) := by
  have hnat : (Int32.ofNat count).toUInt32.toNat = count := by
    rw [Int32.toUInt32_ofNat', UInt32.toNat_ofNat_of_lt' (by simp only [UInt32.size]; omega)]
  have hreads := Reader.Reads.int32 (Int32.ofNat count)
  rwa [Bytes.ofInt32, Bytes.ofUInt32, hnat] at hreads

theorem reads_lookupSwitch {otherwise : UInt16} {cases : List (Int32 × UInt16)}
    (hcount : cases.length < 2 ^ 31) (wide : Bool) (operand : Operand) :
    (read pool offset).Reads (bytesAt offset.toNat wide operand (lookupSwitch otherwise cases))
      (lookupSwitch otherwise cases) := by
  refine reads_of_opcode .lookupSwitch rfl ?_
  refine Reader.Reads.bind (reads_padding offset) ?_
  refine Reader.Reads.bind (readWideTarget_reads offset otherwise) ?_
  refine Reader.Reads.bind (reads_count hcount) ?_
  rw [Int32.toInt_ofNat_of_lt (by omega), Int.toNat_natCast]
  refine Reader.Reads.last (Reader.ReadsMany.many (Reader.ReadsMany.flatMap ?_))
    (Reader.Reads.pure _)
  rintro ⟨key, target⟩ -
  refine Reader.Reads.bind (Reader.Reads.int32 key) ?_
  exact Reader.Reads.last (readWideTarget_reads offset target) (Reader.Reads.pure _)

theorem toUInt16_toUInt8_of_lt {index : UInt16} (hsmall : index < 256) :
    index.toUInt8.toUInt16 = index := by
  rw [UInt16.toUInt16_toUInt8, UInt16.mod_eq_of_lt hsmall]

theorem reads_onVariable (op : VariableOp) (index : UInt16) :
    (read pool offset).Reads (op.encode index) (onVariable op index) := by
  unfold VariableOp.encode
  split
  · rename_i hshort
    refine reads_of_opcode (.onVariableAt op ⟨index.toNat, hshort.1⟩) hshort.2 ?_
    simpa [readOperands] using Reader.Reads.pure (onVariable op index)
  · split
    · rename_i hsmall
      refine reads_of_opcode (.onVariable op) rfl ?_
      refine Reader.Reads.returning (Reader.Reads.uint8 _) ?_
      rw [toUInt16_toUInt8_of_lt hsmall]
    · refine reads_of_opcode .wide rfl ?_
      refine Reader.Reads.bind (Reader.Reads.uint8 op.opcode) ?_
      rw [show op.opcode = (Opcode.onVariable op).toByte from rfl, Opcode.ofByte?_toByte rfl]
      exact Reader.Reads.returning (Reader.Reads.uint16 index) rfl

theorem reads_increment (index : UInt16) (amount : Int16) :
    (read pool offset).Reads (encodeIncrement index amount) (increment index amount) := by
  unfold encodeIncrement
  split
  · rename_i hsmall
    obtain ⟨hindex, hlow, hhigh⟩ := hsmall
    have hamount : amount.toInt8.toInt16 = amount := by
      rw [Int16.le_iff_toInt_le] at hlow hhigh
      apply Int16.toInt_inj.1
      rw [Int8.toInt_toInt16, Int16.toInt_toInt8]
      exact Int.bmod_eq_of_le hlow (Int.lt_add_one_of_le hhigh)
    refine reads_of_opcode .increment rfl ?_
    refine Reader.Reads.bind (Reader.Reads.uint8 _) ?_
    refine Reader.Reads.returning (Reader.Reads.int8 _) ?_
    rw [toUInt16_toUInt8_of_lt hindex, hamount]
  · refine reads_of_opcode .wide rfl ?_
    change Reader.Reads _ ([Opcode.increment.toByte] ++
      (Bytes.ofUInt16 index ++ Bytes.ofInt16 amount)) _
    refine Reader.Reads.bind (Reader.Reads.uint8 Opcode.increment.toByte) ?_
    rw [Opcode.ofByte?_toByte rfl]
    refine Reader.Reads.bind (Reader.Reads.uint16 index) ?_
    exact Reader.Reads.returning (Reader.Reads.int16 amount) rfl

theorem reads_load {constant : Loadable} {index : UInt16}
    (hconstant : pool.loadableAt index = .ok constant) :
    (read pool offset).Reads (constant.encodeLoad index) (load constant) := by
  have hload : (liftM (pool.loadableAt index) : Reader Loadable).Reads [] constant :=
    Reader.Reads.lift hconstant
  unfold Loadable.encodeLoad
  split
  · refine reads_of_opcode .loadDouble rfl ?_
    exact Reader.Reads.last (Reader.Reads.uint16 index) (Reader.Reads.returning hload rfl)
  · split
    · rename_i hsmall
      refine reads_of_opcode .load rfl ?_
      refine Reader.Reads.last (Reader.Reads.uint8 index.toUInt8) ?_
      rw [toUInt16_toUInt8_of_lt hsmall]
      exact Reader.Reads.returning hload rfl
    · refine reads_of_opcode .loadWide rfl ?_
      exact Reader.Reads.last (Reader.Reads.uint16 index) (Reader.Reads.returning hload rfl)

theorem reads_constant {α : Type} {lookUp : UInt16 → Except Error α} {index : UInt16} {constant : α}
    {next : α → Reader (Instruction UInt16)} {rest : Bytes} {instruction : Instruction UInt16}
    (hconstant : lookUp index = .ok constant) (hnext : (next constant).Reads rest instruction) :
    (Reader.uint16 >>= fun index => (liftM (lookUp index) : Reader α) >>= next).Reads
      (Bytes.ofUInt16 index ++ rest) instruction := by
  refine Reader.Reads.bind (Reader.Reads.uint16 index) ?_
  exact Reader.Reads.bind (Reader.Reads.lift hconstant) hnext

/-- **Reading back.** All but a wide conditional branch reads as what it is. -/
theorem reads_bytesAt {wide : Bool} {operand : Operand} {instruction : Instruction UInt16}
    (hoperand : instruction.OperandIn pool operand)
    (hreaches : instruction.ReachesFrom offset.toNat wide)
    (hnear : instruction.isBranch → wide = false)
    (hsize : (instruction.bytesAt offset.toNat wide operand).length < 2 ^ 31) :
    (read pool offset).Reads (instruction.bytesAt offset.toNat wide operand) instruction := by
  cases instruction with
  | plain op => exact reads_of_opcode (.plain op) rfl (Reader.Reads.pure _)
  | pushByte value =>
    exact reads_of_opcode .pushByte rfl (Reader.Reads.returning (Reader.Reads.int8 value) rfl)
  | pushShort value =>
    exact reads_of_opcode .pushShort rfl (Reader.Reads.returning (Reader.Reads.int16 value) rfl)
  | load constant => exact reads_load hoperand
  | onVariable op index => exact reads_onVariable op index
  | increment index amount => exact reads_increment index amount
  | branch condition target =>
    obtain rfl : wide = false := hnear rfl
    refine reads_of_opcode (.branch condition) rfl ?_
    exact Reader.Reads.returning (readTarget_reads (hreaches rfl)) rfl
  | jump op target =>
    cases wide with
    | false =>
      refine reads_of_opcode (.jump op) rfl ?_
      exact Reader.Reads.returning (readTarget_reads (hreaches rfl)) rfl
    | true =>
      refine reads_of_opcode (.jumpWide op) rfl ?_
      exact Reader.Reads.returning (readWideTarget_reads offset target) rfl
  | tableSwitch otherwise low high targets => exact reads_tableSwitch hoperand wide operand
  | lookupSwitch otherwise cases =>
    refine reads_lookupSwitch ?_ wide operand
    refine Nat.lt_of_le_of_lt ?_ hsize
    simp only [bytesAt, List.length_cons, List.length_append, length_caseBytes]
    omega
  | onField op field =>
    refine reads_of_opcode (.onField op) rfl ?_
    exact reads_constant hoperand (Reader.Reads.pure _)
  | invokeVirtual method =>
    refine reads_of_opcode .invokeVirtual rfl ?_
    exact reads_constant hoperand (Reader.Reads.pure _)
  | invokeSpecial method isInterface =>
    refine reads_of_opcode .invokeSpecial rfl ?_
    exact reads_constant hoperand (Reader.Reads.pure _)
  | invokeStatic method isInterface =>
    refine reads_of_opcode .invokeStatic rfl ?_
    exact reads_constant hoperand (Reader.Reads.pure _)
  | invokeInterface method =>
    refine reads_of_opcode .invokeInterface rfl ?_
    refine reads_constant hoperand ?_
    refine Reader.Reads.bind (Reader.Reads.uint8 operand.slots) ?_
    exact Reader.Reads.returning (Reader.Reads.uint8 0) rfl
  | invokeDynamic site =>
    refine reads_of_opcode .invokeDynamic rfl ?_
    refine reads_constant hoperand ?_
    exact Reader.Reads.returning (Reader.Reads.uint16 0) rfl
  | onClass op name =>
    refine reads_of_opcode (.onClass op) rfl ?_
    exact reads_constant hoperand (Reader.Reads.pure _)
  | newArray type =>
    refine reads_of_opcode .newArray rfl ?_
    refine Reader.Reads.last (Reader.Reads.uint8 type.code) ?_
    rw [ArrayType.ofCode?_code]
    exact Reader.Reads.pure _
  | multiNewArray name dimensions =>
    refine reads_of_opcode .multiNewArray rfl ?_
    refine reads_constant hoperand ?_
    exact Reader.Reads.returning (Reader.Reads.uint8 dimensions) rfl

/-- A wide conditional branch is the opposite branch over a jump. -/
theorem bytesAt_far {offset : Nat} (hoffset : offset + 8 < 65536) (operand : Operand)
    (condition : Condition) (target : UInt16) :
    bytesAt offset true operand (branch condition target) =
      bytesAt offset false operand (branch condition.negate (UInt16.ofNat (offset + 8))) ++
        bytesAt (offset + 3) true operand (jump .goto target) := by
  have hskip : distance offset (UInt16.ofNat (offset + 8)) = 8 := by
    unfold distance
    rw [UInt16.toNat_ofNat_of_lt' hoffset]
    omega
  have hbase : EncodingSite.farBranchBase offset = offset + 3 :=
    EncodingSite.farBranchBase_of_le (by omega)
  simp only [bytesAt, if_true, Bool.false_eq_true, if_false, hskip, hbase]
  simp [EncodingSite.farBranchHead]

theorem operandIn_map {τ σ : Type} {operand : Operand} {f : τ → σ} {instruction : Instruction τ} :
    (instruction.map f).OperandIn pool operand ↔ instruction.OperandIn pool operand := by
  cases instruction with
  | tableSwitch otherwise low high targets => simp [OperandIn]
  | lookupSwitch otherwise cases => simp [OperandIn]
  | _ => rfl

end Instruction

/-! ### Keys of lookups -/

theorem firstUnordered_map {τ σ : Type} (f : τ → σ) (cases : List (Int32 × τ)) :
    firstUnordered (cases.map fun (key, target) => (key, f target)) = firstUnordered cases := by
  fun_induction firstUnordered cases with
  | case1 key target next other rest hle =>
    rw [List.map_cons, List.map_cons, firstUnordered, if_pos hle]
  | case2 key target next other rest hlt ih =>
    rw [List.map_cons, List.map_cons, firstUnordered, if_neg hlt]
    exact ih
  | case3 cases hshort =>
    match cases, hshort with
    | [], _ => rfl
    | [_], _ => rfl
    | first :: second :: rest, hshort => exact (hshort _ _ _ _ rest rfl).elim

theorem not_pairwise_of_firstUnordered {τ : Type} {cases : List (Int32 × τ)} {key next : Int32}
    (hfirst : firstUnordered cases = some (key, next)) :
    ¬ cases.Pairwise fun first second => first.1 < second.1 := by
  intro hpairwise
  fun_induction firstUnordered cases with
  | case1 first target second other rest hle =>
    have hlt := List.rel_of_pairwise_cons hpairwise List.mem_cons_self
    exact Int32.not_le.2 hlt hle
  | case2 first target second other rest hlt ih => exact ih hfirst hpairwise.of_cons
  | case3 => cases hfirst

/-! ### Operands

The operand that is put for an instruction is the one it needs, in the pool left behind and in every
later one. -/

namespace Instruction

open PoolM

variable {τ : Type}

theorem putOperand_map {σ : Type} (f : τ → σ) (instruction : Instruction τ) :
    (instruction.map f).putOperand = instruction.putOperand := by
  cases instruction with
  | tableSwitch otherwise low high targets => simp [putOperand]
  | lookupSwitch otherwise cases => simp [putOperand, firstUnordered_map]
  | _ => rfl

instance (instruction : Instruction τ) : Lawful instruction.putOperand := by
  cases instruction with
  | tableSwitch otherwise low high targets =>
    simp only [putOperand]
    split <;> infer_instance
  | lookupSwitch otherwise cases =>
    simp only [putOperand]
    split <;> infer_instance
  | _ =>
    unfold putOperand
    infer_instance

private theorem yields_index {put : PoolM UInt16} {entry : Entry} {slots : UInt8}
    {post : Operand → Pool → Prop}
    (hput : Yields put fun index later => later.get index = .ok entry)
    (hpost : ∀ index later, later.get index = .ok entry → post ⟨index, slots⟩ later) :
    Yields (put >>= fun index => pure ⟨index, slots⟩) post := by
  refine Yields.bind hput fun index => Yields.pure fun later hget => ?_
  exact hpost index later hget

theorem yields_putOperand (instruction : Instruction τ) :
    Yields instruction.putOperand fun operand later => instruction.OperandIn later operand := by
  cases instruction with
  | load constant =>
    exact yields_index (Pool.yields_find constant.toEntry) fun _ _ => Pool.loadableAt_of_get
  | onField op field =>
    exact yields_index (Pool.yields_find (.fieldRef field)) fun _ _ hget =>
      Pool.select_of_get hget rfl
  | invokeVirtual method =>
    exact yields_index (Pool.yields_find (.methodRef method)) fun _ _ hget =>
      Pool.select_of_get hget rfl
  | invokeSpecial method isInterface =>
    cases isInterface with
    | false =>
      exact yields_index (Pool.yields_find (.methodRef method)) fun _ _ hget =>
        Pool.select_of_get hget rfl
    | true =>
      exact yields_index (Pool.yields_find (.interfaceMethodRef method)) fun _ _ hget =>
        Pool.select_of_get hget rfl
  | invokeStatic method isInterface =>
    cases isInterface with
    | false =>
      exact yields_index (Pool.yields_find (.methodRef method)) fun _ _ hget =>
        Pool.select_of_get hget rfl
    | true =>
      exact yields_index (Pool.yields_find (.interfaceMethodRef method)) fun _ _ hget =>
        Pool.select_of_get hget rfl
  | invokeInterface method =>
    refine Yields.bind (Yields.lift fun _ _ _ => trivial) fun slots => ?_
    exact yields_index (Pool.yields_find (.interfaceMethodRef method)) fun _ _ hget _ =>
      Pool.select_of_get hget rfl
  | invokeDynamic site =>
    exact yields_index (Pool.yields_find (.invokeDynamic site)) fun _ _ hget =>
      Pool.select_of_get hget rfl
  | onClass op name =>
    exact yields_index (Pool.yields_find (.classRef name)) fun _ _ hget =>
      Pool.select_of_get hget rfl
  | multiNewArray name dimensions =>
    exact yields_index (Pool.yields_find (.classRef name)) fun _ _ hget =>
      Pool.select_of_get hget rfl
  | tableSwitch otherwise low high targets =>
    intro pool operand final hrun later hlater
    simp only [putOperand] at hrun
    split at hrun
    · cases hrun
    · rename_i hcount
      simpa [OperandIn] using hcount
  | lookupSwitch otherwise cases =>
    exact fun _ _ _ _ _ _ => trivial
  | _ => exact Yields.pure fun _ => trivial

end Instruction

end JvmClass
