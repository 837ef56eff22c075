import JvmClass.Proofs.Code.Outline

/-!
# Spellings of instructions

An instruction can be encoded in more than one way: an index can take more bytes than it needs, and
what fills up a switch can be anything. `Instruction.SpelledAt` has all ways, with targets that may be
anywhere. Reading an instruction and skipping it both go by it, so they take the same bytes and see
the same targets.
-/

namespace JvmClass

/-! ### Spellings -/

/-- Bytes at an offset are an encoding of an instruction. A switch that is not `checked` may say that
it has less than no targets, which stands for none. -/
inductive Instruction.SpelledAt (pool : Pool) (offset : Nat) (checked : Bool) :
    Instruction Int → Bytes → Prop
  | plain (op : PlainOp) : SpelledAt pool offset checked (plain op) [op.opcode]
  | pushByte (value : Int8) : SpelledAt pool offset checked (pushByte value)
      (Opcode.pushByte.toByte :: Bytes.ofInt8 value)
  | pushShort (value : Int16) : SpelledAt pool offset checked (pushShort value)
      (Opcode.pushShort.toByte :: Bytes.ofInt16 value)
  | load {constant : Loadable} (index : UInt8)
      (hconstant : pool.loadableAt index.toUInt16 = .ok constant) :
      SpelledAt pool offset checked (load constant) [Opcode.load.toByte, index]
  | loadWide {constant : Loadable} (index : UInt16)
      (hconstant : pool.loadableAt index = .ok constant) :
      SpelledAt pool offset checked (load constant)
        (Opcode.loadWide.toByte :: Bytes.ofUInt16 index)
  | loadDouble {constant : Loadable} (index : UInt16)
      (hconstant : pool.loadableAt index = .ok constant) :
      SpelledAt pool offset checked (load constant)
        (Opcode.loadDouble.toByte :: Bytes.ofUInt16 index)
  | onVariable (op : VariableOp) (index : UInt8) :
      SpelledAt pool offset checked (onVariable op index.toUInt16) [op.opcode, index]
  | onVariableAt (op : VariableOp) (index : Fin 4) (hshort : op.hasShortForm) :
      SpelledAt pool offset checked (onVariable op (UInt16.ofNat index.val))
        [op.shortOpcode index]
  | onVariableWide (op : VariableOp) (index : UInt16) :
      SpelledAt pool offset checked (onVariable op index)
        (Opcode.wide.toByte :: op.opcode :: Bytes.ofUInt16 index)
  | increment (index : UInt8) (amount : Int8) :
      SpelledAt pool offset checked (increment index.toUInt16 amount.toInt16)
        (Opcode.increment.toByte :: index :: Bytes.ofInt8 amount)
  | incrementWide (index : UInt16) (amount : Int16) :
      SpelledAt pool offset checked (increment index amount)
        (Opcode.wide.toByte :: Opcode.increment.toByte ::
          (Bytes.ofUInt16 index ++ Bytes.ofInt16 amount))
  | branch (condition : Condition) (distance : Int16) :
      SpelledAt pool offset checked (branch condition (offset + distance.toInt))
        (condition.opcode :: Bytes.ofInt16 distance)
  | jump (op : JumpOp) (distance : Int16) :
      SpelledAt pool offset checked (jump op (offset + distance.toInt))
        (op.opcode :: Bytes.ofInt16 distance)
  | jumpWide (op : JumpOp) (distance : Int32) :
      SpelledAt pool offset checked (jump op (offset + distance.toInt))
        (op.wideOpcode :: Bytes.ofInt32 distance)
  | tableSwitch (padding : Bytes) (otherwise low high : Int32) (distances : List Int32)
      (hpadding : padding.length = 3 - offset % 4)
      (hcount : distances.length = (high.toInt - low.toInt + 1).toNat)
      (hchecked : checked → low ≤ high) :
      SpelledAt pool offset checked
        (tableSwitch (offset + otherwise.toInt) low high
          (distances.map fun distance => offset + distance.toInt))
        (Opcode.tableSwitch.toByte :: (padding ++ (Bytes.ofInt32 otherwise ++ (Bytes.ofInt32 low ++
          (Bytes.ofInt32 high ++ distances.flatMap Bytes.ofInt32)))))
  | lookupSwitch (padding : Bytes) (otherwise count : Int32) (cases : List (Int32 × Int32))
      (hpadding : padding.length = 3 - offset % 4)
      (hcount : cases.length = count.toInt.toNat) (hchecked : checked → 0 ≤ count) :
      SpelledAt pool offset checked
        (lookupSwitch (offset + otherwise.toInt)
          (cases.map fun (key, distance) => (key, offset + distance.toInt)))
        (Opcode.lookupSwitch.toByte :: (padding ++ (Bytes.ofInt32 otherwise ++ (Bytes.ofInt32 count ++
          cases.flatMap fun (key, distance) => Bytes.ofInt32 key ++ Bytes.ofInt32 distance))))
  | onField {field : MemberRef} (op : FieldOp) (index : UInt16)
      (hfield : pool.fieldRefAt index = .ok field) :
      SpelledAt pool offset checked (onField op field) (op.opcode :: Bytes.ofUInt16 index)
  | invokeVirtual {method : MemberRef} (index : UInt16)
      (hmethod : pool.methodRefAt index = .ok method) :
      SpelledAt pool offset checked (invokeVirtual method)
        (Opcode.invokeVirtual.toByte :: Bytes.ofUInt16 index)
  | invokeSpecial {method : MemberRef} {isInterface : Bool} (index : UInt16)
      (hmethod : pool.anyMethodRefAt index = .ok (method, isInterface)) :
      SpelledAt pool offset checked (invokeSpecial method isInterface)
        (Opcode.invokeSpecial.toByte :: Bytes.ofUInt16 index)
  | invokeStatic {method : MemberRef} {isInterface : Bool} (index : UInt16)
      (hmethod : pool.anyMethodRefAt index = .ok (method, isInterface)) :
      SpelledAt pool offset checked (invokeStatic method isInterface)
        (Opcode.invokeStatic.toByte :: Bytes.ofUInt16 index)
  | invokeInterface {method : MemberRef} (index : UInt16) (slots zero : UInt8)
      (hmethod : pool.interfaceMethodRefAt index = .ok method) :
      SpelledAt pool offset checked (invokeInterface method)
        (Opcode.invokeInterface.toByte :: (Bytes.ofUInt16 index ++ [slots, zero]))
  | invokeDynamic {site : DynamicRef} (index zeros : UInt16)
      (hsite : pool.invokeDynamicAt index = .ok site) :
      SpelledAt pool offset checked (invokeDynamic site)
        (Opcode.invokeDynamic.toByte :: (Bytes.ofUInt16 index ++ Bytes.ofUInt16 zeros))
  | onClass {name : ClassName} (op : ClassOp) (index : UInt16)
      (hname : pool.classAt index = .ok name) :
      SpelledAt pool offset checked (onClass op name) (op.opcode :: Bytes.ofUInt16 index)
  | newArray (type : ArrayType) :
      SpelledAt pool offset checked (newArray type) [Opcode.newArray.toByte, type.code]
  | multiNewArray {name : ClassName} (index : UInt16) (dimensions : UInt8)
      (hname : pool.classAt index = .ok name) :
      SpelledAt pool offset checked (multiNewArray name dimensions)
        (Opcode.multiNewArray.toByte :: (Bytes.ofUInt16 index ++ [dimensions]))

/-! ### What bytes are opcodes -/

theorem Opcode.toByte_of_ofByte? {byte : UInt8} {opcode : Opcode}
    (hopcode : Opcode.ofByte? byte = some opcode) :
    opcode.toByte = byte ∧ opcode.isEncodable := by
  have htable : ∀ n : Fin 256, ∀ other ∈ Opcode.ofByte? (UInt8.ofNat n),
      other.toByte = UInt8.ofNat n ∧ other.isEncodable := by
    decide +kernel
  have hbyte := htable ⟨byte.toNat, byte.toNat_lt⟩ opcode
  rw [UInt8.ofNat_toNat] at hbyte
  exact hbyte hopcode

theorem ArrayType.code_of_ofCode? {code : UInt8} {type : ArrayType}
    (htype : ArrayType.ofCode? code = some type) : type.code = code := by
  unfold ArrayType.ofCode? at htype
  split at htype <;> cases htype <;> rfl

namespace Instruction

def located (instruction : Instruction UInt16) : Instruction Int :=
  instruction.map fun target => (target.toNat : Int)

variable {pool : Pool} {offset : UInt16}

/-! ### What is read -/

theorem spells_targetOf (distance : Int) :
    (targetOf offset distance).Spells fun target bytes =>
      bytes = [] ∧ (target.toNat : Int) = offset.toNat + distance := by
  unfold targetOf
  dsimp only
  split
  · rename_i hrange
    refine .pure ⟨rfl, ?_⟩
    rw [UInt16.toNat_ofNat_of_lt' (by simp only [UInt16.size]; omega)]
    omega
  · exact .fail

theorem spells_readTarget :
    (readTarget offset).Spells fun target bytes => ∃ distance : Int16,
      bytes = Bytes.ofInt16 distance ∧ (target.toNat : Int) = offset.toNat + distance.toInt := by
  refine .bind .int16 fun distance front hfront => (spells_targetOf distance.toInt).mono ?_
  rintro target bytes ⟨rfl, htarget⟩
  exact ⟨distance, by rw [hfront, List.append_nil], htarget⟩

theorem spells_readWideTarget :
    (readWideTarget offset).Spells fun target bytes => ∃ distance : Int32,
      bytes = Bytes.ofInt32 distance ∧ (target.toNat : Int) = offset.toNat + distance.toInt := by
  refine .bind .int32 fun distance front hfront => (spells_targetOf distance.toInt).mono ?_
  rintro target bytes ⟨rfl, htarget⟩
  exact ⟨distance, by rw [hfront, List.append_nil], htarget⟩

theorem spells_readPadding :
    (readPadding offset).Spells fun _ bytes => bytes.length = 3 - offset.toNat % 4 := by
  have hbyte : Reader.uint8.Spells fun byte bytes => ∃ source, bytes = [source] ∧ byte = source :=
    Reader.Spells.uint8.mono fun byte bytes hbytes => ⟨byte, hbytes, rfl⟩
  refine .bind (hbyte.many (f := id) (g := id) _) fun _ front hfront => .pure ?_
  obtain ⟨padding, hlength, rfl, -⟩ := hfront
  rw [List.append_nil, List.flatMap_singleton', hlength]

theorem spells_readTableSwitch :
    (readTableSwitch offset).Spells fun instruction bytes =>
      SpelledAt pool offset.toNat false instruction.located (Opcode.tableSwitch.toByte :: bytes) := by
  refine .bind spells_readPadding fun _ padding hpadding => ?_
  refine .bind spells_readWideTarget fun otherwise _ hotherwise => ?_
  obtain ⟨distance, rfl, hotherwise⟩ := hotherwise
  refine .bind .int32 fun low _ hlow => ?_
  refine .bind .int32 fun high _ hhigh => ?_
  refine .bind (spells_readWideTarget.many _) fun targets _ htargets => .pure ?_
  obtain ⟨distances, hcount, rfl, htargets⟩ := htargets
  rw [hlow, hhigh, List.append_nil, located, map_tableSwitch, hotherwise, htargets]
  exact .tableSwitch padding distance low high distances hpadding hcount (fun h => by cases h)

theorem spells_readLookupSwitch :
    (readLookupSwitch offset).Spells fun instruction bytes =>
      SpelledAt pool offset.toNat false instruction.located (Opcode.lookupSwitch.toByte :: bytes) := by
  refine .bind spells_readPadding fun _ padding hpadding => ?_
  refine .bind spells_readWideTarget fun otherwise _ hotherwise => ?_
  obtain ⟨distance, rfl, hotherwise⟩ := hotherwise
  refine .bind .int32 fun count _ hcount => ?_
  have hcase : (do
      let key ← Reader.int32
      return (key, ← readWideTarget offset) : Reader (Int32 × UInt16)).Spells fun found bytes =>
        ∃ pair : Int32 × Int32, bytes = Bytes.ofInt32 pair.1 ++ Bytes.ofInt32 pair.2 ∧
          (found.1, (found.2.toNat : Int)) = (pair.1, offset.toNat + pair.2.toInt) := by
    refine .bind .int32 fun key _ hkey => ?_
    refine .bind spells_readWideTarget fun target _ htarget => .pure ?_
    obtain ⟨distance, rfl, htarget⟩ := htarget
    exact ⟨(key, distance), by rw [hkey, List.append_nil], by rw [htarget]⟩
  refine .bind (hcase.many _) fun found _ hfound => .pure ?_
  obtain ⟨cases, hlength, rfl, hfound⟩ := hfound
  rw [hcount, List.append_nil, located, map_lookupSwitch, hotherwise, hfound]
  exact .lookupSwitch padding distance count cases hpadding hlength (fun h => by cases h)

theorem spells_readWide :
    readWide.Spells fun instruction bytes =>
      SpelledAt pool offset.toNat false instruction.located (Opcode.wide.toByte :: bytes) := by
  refine .bind .uint8 fun byte front hfront => ?_
  subst hfront
  split
  · rename_i op hopcode
    obtain ⟨rfl, -⟩ := Opcode.toByte_of_ofByte? hopcode
    refine .bind .uint16 fun index back hback => .pure ?_
    rw [hback, List.append_nil]
    exact .onVariableWide op index
  · rename_i hopcode
    obtain ⟨rfl, -⟩ := Opcode.toByte_of_ofByte? hopcode
    refine .bind .uint16 fun index middle hmiddle => ?_
    refine .bind .int16 fun amount back hback => .pure ?_
    rw [hmiddle, hback, List.append_nil]
    exact .incrementWide index amount
  · exact .fail

theorem spells_constant {α β : Type} {lookUp : UInt16 → Except Error α} {next : α → Reader β}
    {spelling : β → Bytes → Prop}
    (hnext : ∀ index constant, lookUp index = .ok constant →
      (next constant).Spells fun result bytes => spelling result (Bytes.ofUInt16 index ++ bytes)) :
    (Reader.uint16 >>= fun index => (liftM (lookUp index) : Reader α) >>= next).Spells spelling := by
  refine .bind .uint16 fun index front hfront => ?_
  subst hfront
  exact .afterLift fun constant hconstant => hnext index constant hconstant

theorem spells_readOperands {opcode : Opcode} (hencodable : opcode.isEncodable) :
    (readOperands pool offset opcode).Spells fun instruction bytes =>
      SpelledAt pool offset.toNat false instruction.located (opcode.toByte :: bytes) := by
  cases opcode with
  | plain op => exact .pure (.plain op)
  | pushByte =>
    refine .bind .int8 fun value _ hvalue => .pure ?_
    rw [hvalue, List.append_nil]
    exact .pushByte value
  | pushShort =>
    refine .bind .int16 fun value _ hvalue => .pure ?_
    rw [hvalue, List.append_nil]
    exact .pushShort value
  | load =>
    refine .bind .uint8 fun index front hfront => ?_
    subst hfront
    exact .afterLift fun constant hconstant => .pure (.load index hconstant)
  | loadWide =>
    refine spells_constant fun index constant hconstant => .pure ?_
    rw [List.append_nil]
    exact .loadWide index hconstant
  | loadDouble =>
    refine spells_constant fun index constant hconstant => .pure ?_
    rw [List.append_nil]
    exact .loadDouble index hconstant
  | onVariable op =>
    refine .bind .uint8 fun index _ hindex => .pure ?_
    rw [hindex, List.append_nil]
    exact .onVariable op index
  | onVariableAt op index => exact .pure (.onVariableAt op index hencodable)
  | increment =>
    refine .bind .uint8 fun index _ hindex => ?_
    refine .bind .int8 fun amount _ hamount => .pure ?_
    rw [hindex, hamount, List.append_nil]
    exact .increment index amount
  | branch condition =>
    refine .bind spells_readTarget fun target _ htarget => .pure ?_
    obtain ⟨distance, rfl, htarget⟩ := htarget
    rw [List.append_nil, located, map_branch, htarget]
    exact .branch condition distance
  | jump op =>
    refine .bind spells_readTarget fun target _ htarget => .pure ?_
    obtain ⟨distance, rfl, htarget⟩ := htarget
    rw [List.append_nil, located, map_jump, htarget]
    exact .jump op distance
  | jumpWide op =>
    refine .bind spells_readWideTarget fun target _ htarget => .pure ?_
    obtain ⟨distance, rfl, htarget⟩ := htarget
    rw [List.append_nil, located, map_jump, htarget]
    exact .jumpWide op distance
  | tableSwitch => exact spells_readTableSwitch
  | lookupSwitch => exact spells_readLookupSwitch
  | onField op =>
    refine spells_constant fun index field hfield => .pure ?_
    rw [List.append_nil]
    exact .onField op index hfield
  | invokeVirtual =>
    refine spells_constant fun index method hmethod => .pure ?_
    rw [List.append_nil]
    exact .invokeVirtual index hmethod
  | invokeSpecial =>
    refine spells_constant fun index method hmethod => .pure ?_
    rw [List.append_nil]
    exact .invokeSpecial index hmethod
  | invokeStatic =>
    refine spells_constant fun index method hmethod => .pure ?_
    rw [List.append_nil]
    exact .invokeStatic index hmethod
  | invokeInterface =>
    refine spells_constant fun index method hmethod => ?_
    refine .bind .uint8 fun slots _ hslots => ?_
    refine .bind .uint8 fun zero _ hzero => .pure ?_
    rw [hslots, hzero, List.append_nil]
    exact .invokeInterface index slots zero hmethod
  | invokeDynamic =>
    refine spells_constant fun index site hsite => ?_
    refine .bind .uint16 fun zeros _ hzeros => .pure ?_
    rw [hzeros, List.append_nil]
    exact .invokeDynamic index zeros hsite
  | onClass op =>
    refine spells_constant fun index name hname => .pure ?_
    rw [List.append_nil]
    exact .onClass op index hname
  | newArray =>
    refine .bind .uint8 fun code front hfront => ?_
    subst hfront
    split
    · rename_i type htype
      obtain rfl := ArrayType.code_of_ofCode? htype
      exact .pure (.newArray type)
    · exact .fail
  | wide => exact spells_readWide
  | multiNewArray =>
    refine spells_constant fun index name hname => ?_
    refine .bind .uint8 fun dimensions _ hdimensions => .pure ?_
    rw [hdimensions, List.append_nil]
    exact .multiNewArray index dimensions hname

/-- **Reading.** What an instruction was read from is a spelling of it. -/
theorem spells_read :
    (read pool offset).Spells fun instruction bytes =>
      SpelledAt pool offset.toNat false instruction.located bytes := by
  refine .bind .uint8 fun byte front hfront => ?_
  subst hfront
  split
  · rename_i opcode hopcode
    obtain ⟨rfl, hencodable⟩ := Opcode.toByte_of_ofByte? hopcode
    exact spells_readOperands hencodable
  · exact .fail

/-! ### What spellings are read as -/

theorem takes_targetOf (distance : Int) :
    (targetOf offset distance).Takes [] fun target =>
      (target.toNat : Int) = offset.toNat + distance := by
  intro position rest target left hread
  obtain ⟨_, hinput, hposition, rfl, htarget⟩ := spells_targetOf distance _ _ _ hread
  obtain ⟨leftPosition, leftRest⟩ := left
  cases hinput
  cases hposition
  exact ⟨rfl, htarget⟩

theorem takes_readTarget (distance : Int16) :
    (readTarget offset).Takes (Bytes.ofInt16 distance) fun target =>
      (target.toNat : Int) = offset.toNat + distance.toInt :=
  .last ((Reader.Reads.int16 distance).takes rfl) fun _ hvalue => hvalue ▸ takes_targetOf _

theorem takes_readWideTarget (distance : Int32) :
    (readWideTarget offset).Takes (Bytes.ofInt32 distance) fun target =>
      (target.toNat : Int) = offset.toNat + distance.toInt :=
  .last ((Reader.Reads.int32 distance).takes rfl) fun _ hvalue => hvalue ▸ takes_targetOf _

theorem reads_anyPadding {padding : Bytes} (hpadding : padding.length = 3 - offset.toNat % 4) :
    (readPadding offset).Reads padding () := by
  have hmany : Reader.uint8.ReadsMany (padding.flatMap fun byte => [byte]) padding :=
    Reader.ReadsMany.flatMap fun byte _ => Reader.Reads.uint8 byte
  have hread := hmany.many
  rw [List.flatMap_singleton', hpadding] at hread
  exact Reader.Reads.last hread (Reader.Reads.pure ())

theorem takes_of_opcode (opcode : Opcode) {operands : Bytes} {post : Instruction UInt16 → Prop}
    (hencodable : opcode.isEncodable)
    (hoperands : (readOperands pool offset opcode).Takes operands post) :
    (read pool offset).Takes (opcode.toByte :: operands) post := by
  refine .after (Reader.Reads.uint8 opcode.toByte) ?_
  rw [Opcode.ofByte?_toByte hencodable]
  exact hoperands

theorem takes_of_reads (opcode : Opcode) {operands : Bytes} {instruction : Instruction UInt16}
    {spelled : Instruction Int} (hencodable : opcode.isEncodable)
    (hspelled : instruction.located = spelled)
    (hoperands : (readOperands pool offset opcode).Reads operands instruction) :
    (read pool offset).Takes (opcode.toByte :: operands) fun found => found.located = spelled :=
  takes_of_opcode opcode hencodable (hoperands.takes hspelled)

theorem takes_readTableSwitch {padding : Bytes} (otherwise : Int32) {low high : Int32}
    {distances : List Int32} (hpadding : padding.length = 3 - offset.toNat % 4)
    (hcount : distances.length = (high.toInt - low.toInt + 1).toNat) :
    (readTableSwitch offset).Takes (padding ++ (Bytes.ofInt32 otherwise ++ (Bytes.ofInt32 low ++
      (Bytes.ofInt32 high ++ distances.flatMap Bytes.ofInt32)))) fun found =>
      found.located = tableSwitch (offset.toNat + otherwise.toInt) low high
        (distances.map fun distance => offset.toNat + distance.toInt) := by
  refine .after (reads_anyPadding hpadding) ?_
  refine .bind (takes_readWideTarget otherwise) fun target htarget => ?_
  refine .after (.int32 low) ?_
  refine .after (.int32 high) ?_
  rw [← hcount]
  refine .last (.many takes_readWideTarget distances) fun targets htargets => .pure ?_
  rw [located, map_tableSwitch, htarget, htargets]

theorem takes_readLookupSwitch {padding : Bytes} (otherwise : Int32) {count : Int32}
    {cases : List (Int32 × Int32)} (hpadding : padding.length = 3 - offset.toNat % 4)
    (hcount : cases.length = count.toInt.toNat) :
    (readLookupSwitch offset).Takes (padding ++ (Bytes.ofInt32 otherwise ++ (Bytes.ofInt32 count ++
      cases.flatMap fun (key, distance) => Bytes.ofInt32 key ++ Bytes.ofInt32 distance)))
      fun found => found.located = lookupSwitch (offset.toNat + otherwise.toInt)
        (cases.map fun (key, distance) => (key, offset.toNat + distance.toInt)) := by
  refine .after (reads_anyPadding hpadding) ?_
  refine .bind (takes_readWideTarget otherwise) fun target htarget => ?_
  refine .after (.int32 count) ?_
  have hcase : ∀ pair : Int32 × Int32, (do
      let key ← Reader.int32
      return (key, ← readWideTarget offset) : Reader (Int32 × UInt16)).Takes
        (Bytes.ofInt32 pair.1 ++ Bytes.ofInt32 pair.2) fun found =>
          (found.1, (found.2.toNat : Int)) = (pair.1, offset.toNat + pair.2.toInt) := by
    intro pair
    refine .after (.int32 pair.1) ?_
    refine .last (takes_readWideTarget pair.2) fun target htarget => .pure ?_
    rw [htarget]
  rw [← hcount]
  refine .last (.many hcase cases) fun found hfound => .pure ?_
  rw [located, map_lookupSwitch, htarget, hfound]

/-- **Reading.** A spelling is read as what it spells, if at all. -/
theorem SpelledAt.takes_read {checked : Bool} {instruction : Instruction Int} {bytes : Bytes}
    (hspelled : instruction.SpelledAt pool offset.toNat checked bytes) :
    (read pool offset).Takes bytes fun found => found.located = instruction := by
  cases hspelled with
  | plain op => exact takes_of_reads (.plain op) rfl rfl (.pure _)
  | pushByte value => exact takes_of_reads .pushByte rfl rfl (.returning (.int8 value) rfl)
  | pushShort value => exact takes_of_reads .pushShort rfl rfl (.returning (.int16 value) rfl)
  | load index hconstant =>
    exact takes_of_reads .load rfl rfl
      (.last (.uint8 index) (.returning (Reader.Reads.lift hconstant) rfl))
  | loadWide index hconstant =>
    exact takes_of_reads .loadWide rfl rfl
      (.last (.uint16 index) (.returning (Reader.Reads.lift hconstant) rfl))
  | loadDouble index hconstant =>
    exact takes_of_reads .loadDouble rfl rfl
      (.last (.uint16 index) (.returning (Reader.Reads.lift hconstant) rfl))
  | onVariable op index => exact takes_of_reads (.onVariable op) rfl rfl (.returning (.uint8 _) rfl)
  | onVariableAt op index hshort =>
    exact takes_of_reads (.onVariableAt op index) hshort rfl (.pure _)
  | onVariableWide op index =>
    have hwide : readWide.Reads ([op.opcode] ++ Bytes.ofUInt16 index) (.onVariable op index) := by
      refine .bind (.uint8 op.opcode) ?_
      rw [show op.opcode = (Opcode.onVariable op).toByte from rfl, Opcode.ofByte?_toByte rfl]
      exact .returning (.uint16 index) rfl
    exact takes_of_reads .wide rfl rfl hwide
  | increment index amount =>
    exact takes_of_reads .increment rfl rfl (.bind (.uint8 index) (.returning (.int8 amount) rfl))
  | incrementWide index amount =>
    have hwide : readWide.Reads ([Opcode.increment.toByte] ++
        (Bytes.ofUInt16 index ++ Bytes.ofInt16 amount)) (.increment index amount) := by
      refine .bind (.uint8 Opcode.increment.toByte) ?_
      rw [Opcode.ofByte?_toByte rfl]
      exact .bind (.uint16 index) (.returning (.int16 amount) rfl)
    exact takes_of_reads .wide rfl rfl hwide
  | branch condition distance =>
    refine takes_of_opcode (.branch condition) rfl ?_
    refine .last (takes_readTarget distance) fun target htarget => .pure ?_
    rw [located, map_branch, htarget]
  | jump op distance =>
    refine takes_of_opcode (.jump op) rfl ?_
    refine .last (takes_readTarget distance) fun target htarget => .pure ?_
    rw [located, map_jump, htarget]
  | jumpWide op distance =>
    refine takes_of_opcode (.jumpWide op) rfl ?_
    refine .last (takes_readWideTarget distance) fun target htarget => .pure ?_
    rw [located, map_jump, htarget]
  | tableSwitch padding otherwise low high distances hpadding hcount hchecked =>
    exact takes_of_opcode .tableSwitch rfl (takes_readTableSwitch otherwise hpadding hcount)
  | lookupSwitch padding otherwise count cases hpadding hcount hchecked =>
    exact takes_of_opcode .lookupSwitch rfl (takes_readLookupSwitch otherwise hpadding hcount)
  | onField op index hfield =>
    exact takes_of_reads (.onField op) rfl rfl
      (.last (.uint16 index) (.returning (Reader.Reads.lift hfield) rfl))
  | invokeVirtual index hmethod =>
    exact takes_of_reads .invokeVirtual rfl rfl
      (.last (.uint16 index) (.returning (Reader.Reads.lift hmethod) rfl))
  | invokeSpecial index hmethod =>
    exact takes_of_reads .invokeSpecial rfl rfl
      (.last (.uint16 index) (.afterLift hmethod (.pure _)))
  | invokeStatic index hmethod =>
    exact takes_of_reads .invokeStatic rfl rfl
      (.last (.uint16 index) (.afterLift hmethod (.pure _)))
  | invokeInterface index slots zero hmethod =>
    exact takes_of_reads .invokeInterface rfl rfl
      (reads_constant hmethod (.bind (.uint8 slots) (.returning (.uint8 zero) rfl)))
  | invokeDynamic index zeros hsite =>
    exact takes_of_reads .invokeDynamic rfl rfl
      (reads_constant hsite (.returning (.uint16 zeros) rfl))
  | onClass op index hname =>
    exact takes_of_reads (.onClass op) rfl rfl
      (.last (.uint16 index) (.returning (Reader.Reads.lift hname) rfl))
  | newArray type =>
    have htype : (readOperands pool offset .newArray).Reads [type.code] (.newArray type) := by
      refine .last (.uint8 type.code) ?_
      rw [ArrayType.ofCode?_code]
      exact .pure _
    exact takes_of_reads .newArray rfl rfl htype
  | multiNewArray index dimensions hname =>
    exact takes_of_reads .multiNewArray rfl rfl
      (reads_constant hname (.returning (.uint8 dimensions) rfl))

end Instruction

/-! ### What spellings are skipped as -/

namespace Outline

open Instruction

variable {length offset : UInt16}

theorem takes_withinCode {target : UInt16} {post : UInt16 → Prop} (hpost : post target) :
    (withinCode length target).Takes [] post := by
  unfold withinCode
  split
  · exact .pure hpost
  · exact .fail

theorem takes_readTarget (distance : Int16) :
    (readTarget length offset).Takes (Bytes.ofInt16 distance) fun target =>
      (target.toNat : Int) = offset.toNat + distance.toInt :=
  .last (Instruction.takes_readTarget distance) fun _ htarget => takes_withinCode htarget

theorem takes_readWideTarget (distance : Int32) :
    (readWideTarget length offset).Takes (Bytes.ofInt32 distance) fun target =>
      (target.toNat : Int) = offset.toNat + distance.toInt :=
  .last (Instruction.takes_readWideTarget distance) fun _ htarget => takes_withinCode htarget

theorem takes_of_shape {opcode : UInt8} (shape : OperandShape) {operands : Bytes}
    {post : List UInt16 → Prop} (hshape : OperandShape.ofOpcode? opcode = some shape)
    (hoperands : (readShape length offset shape).Takes operands post) :
    (readInstruction length offset).Takes (opcode :: operands) post := by
  refine .after (Reader.Reads.uint8 opcode) ?_
  rw [hshape]
  exact hoperands

theorem takes_tableSwitch {padding : Bytes} (otherwise : Int32) {low high : Int32}
    {distances : List Int32} (hpadding : padding.length = 3 - offset.toNat % 4)
    (hcount : distances.length = (high.toInt - low.toInt + 1).toNat) :
    (readShape length offset .tableSwitch).Takes (padding ++ (Bytes.ofInt32 otherwise ++
      (Bytes.ofInt32 low ++ (Bytes.ofInt32 high ++ distances.flatMap Bytes.ofInt32))))
      fun targets => targets.map (fun target => (target.toNat : Int)) =
        (offset.toNat + otherwise.toInt) ::
          distances.map (fun distance => offset.toNat + distance.toInt) ∧ low ≤ high := by
  refine .after (reads_anyPadding hpadding) ?_
  refine .bind (takes_readWideTarget otherwise) fun target htarget => ?_
  refine .after (.int32 low) ?_
  refine .after (.int32 high) ?_
  split
  · exact .fail
  · rename_i hordered
    rw [← hcount]
    refine .last (.many takes_readWideTarget distances) fun targets htargets => .pure ⟨?_, ?_⟩
    · rw [List.map_cons, htarget, htargets]
    · rw [Int32.lt_iff_toInt_lt] at hordered
      rw [Int32.le_iff_toInt_le]
      omega

theorem takes_lookupSwitch {padding : Bytes} (otherwise : Int32) {count : Int32}
    {cases : List (Int32 × Int32)} (hpadding : padding.length = 3 - offset.toNat % 4)
    (hcount : cases.length = count.toInt.toNat) :
    (readShape length offset .lookupSwitch).Takes (padding ++ (Bytes.ofInt32 otherwise ++
      (Bytes.ofInt32 count ++
        cases.flatMap fun (key, distance) => Bytes.ofInt32 key ++ Bytes.ofInt32 distance)))
      fun targets => targets.map (fun target => (target.toNat : Int)) =
        (offset.toNat + otherwise.toInt) ::
          cases.map (fun pair => offset.toNat + pair.2.toInt) ∧ 0 ≤ count := by
  refine .after (reads_anyPadding hpadding) ?_
  refine .bind (takes_readWideTarget otherwise) fun target htarget => ?_
  refine .after (.int32 count) ?_
  split
  · exact .fail
  · rename_i hcountNonneg
    have hcase : ∀ pair : Int32 × Int32, (do
        let _ ← Reader.int32
        readWideTarget length offset : Reader UInt16).Takes
          (Bytes.ofInt32 pair.1 ++ Bytes.ofInt32 pair.2) fun target =>
            (target.toNat : Int) = offset.toNat + pair.2.toInt :=
      fun pair => .after (.int32 pair.1) (takes_readWideTarget pair.2)
    rw [← hcount]
    refine .last (.many hcase cases) fun targets htargets => .pure ⟨?_, ?_⟩
    · rw [List.map_cons, htarget, htargets]
    · rw [Int32.lt_iff_toInt_lt] at hcountNonneg
      rw [Int32.le_iff_toInt_le]
      omega

/-- **Skipping.** Skipping a spelling takes the same bytes and gives the same targets, if at all. A
spelling that can be skipped has counts that are not negative. -/
theorem takes_of_spelledAt {pool : Pool} {checked : Bool} {instruction : Instruction Int}
    {bytes : Bytes} (hspelled : instruction.SpelledAt pool offset.toNat checked bytes) :
    (readInstruction length offset).Takes bytes fun targets =>
      targets.map (fun target => (target.toNat : Int)) = instruction.targets ∧
        instruction.SpelledAt pool offset.toNat true bytes := by
  cases hspelled with
  | plain op => exact (reads_fixed [] (ofOpcode?_plain op)).takes ⟨rfl, .plain op⟩
  | pushByte value => exact (reads_fixed (Bytes.ofInt8 value) rfl).takes ⟨rfl, .pushByte value⟩
  | pushShort value => exact (reads_fixed (Bytes.ofInt16 value) rfl).takes ⟨rfl, .pushShort value⟩
  | load index hconstant => exact (reads_fixed [index] rfl).takes ⟨rfl, .load index hconstant⟩
  | loadWide index hconstant =>
    exact (reads_fixed (Bytes.ofUInt16 index) rfl).takes ⟨rfl, .loadWide index hconstant⟩
  | loadDouble index hconstant =>
    exact (reads_fixed (Bytes.ofUInt16 index) rfl).takes ⟨rfl, .loadDouble index hconstant⟩
  | onVariable op index =>
    exact (reads_fixed [index] (ofOpcode?_variable op)).takes ⟨rfl, .onVariable op index⟩
  | onVariableAt op index hshort =>
    exact (reads_fixed [] (ofOpcode?_variableAt op index hshort)).takes
      ⟨rfl, .onVariableAt op index hshort⟩
  | onVariableWide op index =>
    refine Reader.Reads.takes (reads_wide ?_) ⟨rfl, .onVariableWide op index⟩
    rw [if_pos (takesVariable_opcode op)]
    have hbytes := Reader.Reads.bytes (Bytes.ofUInt16 index)
    rw [Bytes.length_ofUInt16] at hbytes
    exact Reader.Reads.last hbytes (Reader.Reads.pure ())
  | increment index amount =>
    exact (reads_fixed (index :: Bytes.ofInt8 amount) rfl).takes ⟨rfl, .increment index amount⟩
  | incrementWide index amount =>
    refine Reader.Reads.takes (reads_wide ?_) ⟨rfl, .incrementWide index amount⟩
    have hbytes := Reader.Reads.bytes (Bytes.ofUInt16 index ++ Bytes.ofInt16 amount)
    rw [List.length_append, Bytes.length_ofUInt16, Bytes.length_ofInt16] at hbytes
    exact Reader.Reads.last hbytes (Reader.Reads.pure ())
  | branch condition distance =>
    refine takes_of_shape .target (ofOpcode?_branch condition) ?_
    refine .last (takes_readTarget distance) fun target htarget => .pure ⟨?_, .branch condition _⟩
    rw [List.map_singleton, htarget]
    rfl
  | jump op distance =>
    refine takes_of_shape .target (by cases op <;> rfl) ?_
    refine .last (takes_readTarget distance) fun target htarget => .pure ⟨?_, .jump op _⟩
    rw [List.map_singleton, htarget]
    rfl
  | jumpWide op distance =>
    refine takes_of_shape .wideTarget (by cases op <;> rfl) ?_
    refine .last (takes_readWideTarget distance) fun target htarget => .pure ⟨?_, .jumpWide op _⟩
    rw [List.map_singleton, htarget]
    rfl
  | tableSwitch padding otherwise low high distances hpadding hcount hchecked =>
    refine takes_of_shape .tableSwitch rfl
      ((takes_tableSwitch otherwise hpadding hcount).mono fun targets htargets => ?_)
    exact ⟨htargets.1, .tableSwitch padding otherwise low high distances hpadding hcount
      fun _ => htargets.2⟩
  | lookupSwitch padding otherwise count cases hpadding hcount hchecked =>
    refine takes_of_shape .lookupSwitch rfl
      ((takes_lookupSwitch otherwise hpadding hcount).mono fun targets htargets => ⟨?_, ?_⟩)
    · rw [htargets.1, Instruction.targets, List.map_map]
      rfl
    · exact .lookupSwitch padding otherwise count cases hpadding hcount fun _ => htargets.2
  | onField op index hfield =>
    exact (reads_fixed (Bytes.ofUInt16 index) (ofOpcode?_field op)).takes
      ⟨rfl, .onField op index hfield⟩
  | invokeVirtual index hmethod =>
    exact (reads_fixed (Bytes.ofUInt16 index) rfl).takes ⟨rfl, .invokeVirtual index hmethod⟩
  | invokeSpecial index hmethod =>
    exact (reads_fixed (Bytes.ofUInt16 index) rfl).takes ⟨rfl, .invokeSpecial index hmethod⟩
  | invokeStatic index hmethod =>
    exact (reads_fixed (Bytes.ofUInt16 index) rfl).takes ⟨rfl, .invokeStatic index hmethod⟩
  | invokeInterface index slots zero hmethod =>
    exact (reads_fixed (Bytes.ofUInt16 index ++ [slots, zero]) rfl).takes
      ⟨rfl, .invokeInterface index slots zero hmethod⟩
  | invokeDynamic index zeros hsite =>
    exact (reads_fixed (Bytes.ofUInt16 index ++ Bytes.ofUInt16 zeros) rfl).takes
      ⟨rfl, .invokeDynamic index zeros hsite⟩
  | onClass op index hname =>
    exact (reads_fixed (Bytes.ofUInt16 index) (ofOpcode?_class op)).takes
      ⟨rfl, .onClass op index hname⟩
  | newArray type => exact (reads_fixed [type.code] rfl).takes ⟨rfl, .newArray type⟩
  | multiNewArray index dimensions hname =>
    exact (reads_fixed (Bytes.ofUInt16 index ++ [dimensions]) rfl).takes
      ⟨rfl, .multiNewArray index dimensions hname⟩

/-! ### Targets within the code -/

theorem ensures_withinCode (target : UInt16) :
    (withinCode length target).Ensures fun found => found < length := by
  unfold withinCode
  split
  · rename_i htarget
    exact .pure htarget
  · exact .fail

theorem ensures_readWideTarget :
    (readWideTarget length offset).Ensures fun target => target < length :=
  .last ensures_withinCode

theorem ensures_readInstruction (length : UInt16) (offset : UInt16) :
    (readInstruction length offset).Ensures fun targets => ∀ target ∈ targets, target < length := by
  have hone : ∀ {target : UInt16}, target < length → ∀ other ∈ [target], other < length :=
    fun htarget other hother => List.mem_singleton.1 hother ▸ htarget
  refine .last fun opcode => ?_
  split
  · rename_i shape _
    cases shape with
    | fixed size => exact .last fun _ => .pure (by simp)
    | target =>
      have htarget : (readTarget length offset).Ensures fun target => target < length :=
        .last ensures_withinCode
      exact .bind htarget fun target hlt => .pure (hone hlt)
    | wideTarget => exact .bind ensures_readWideTarget fun target hlt => .pure (hone hlt)
    | tableSwitch =>
      refine .last fun _ => .bind ensures_readWideTarget fun otherwise hotherwise => ?_
      refine .last fun low => .last fun high => ?_
      split
      · exact .bind .fail fun _ (hfalse : False) => hfalse.elim
      · refine .bind (ensures_readWideTarget.many _) fun targets htargets => .pure ?_
        exact List.forall_mem_cons.2 ⟨hotherwise, htargets⟩
    | lookupSwitch =>
      refine .last fun _ => .bind ensures_readWideTarget fun otherwise hotherwise => ?_
      refine .last fun count => ?_
      split
      · exact .bind .fail fun _ (hfalse : False) => hfalse.elim
      · have hcase : (do
            let _ ← Reader.int32
            readWideTarget length offset : Reader UInt16).Ensures fun target => target < length :=
          .last fun _ => ensures_readWideTarget
        refine .bind (hcase.many _) fun targets htargets => .pure ?_
        exact List.forall_mem_cons.2 ⟨hotherwise, htargets⟩
    | wide => exact .last fun _ => .pure (by simp)
  · exact .fail

end Outline

end JvmClass
