import JvmClass.Code.Disassembly
import JvmClass.Proofs.Result

/-!
# Malformed bytecode

Nothing that is done in order to disassemble bytecode fails for another reason than that the bytecode
is malformed: `BlamesInput` is closed under everything that reading and labeling are made of. The one
exception is a target without a label, which never comes up (`JvmClass.Proofs.Code.Passes`).
-/

namespace JvmClass

/-! ### Computations that blame their input -/

/-- An error says that the input is malformed, if there is one. -/
class Result.BlamesInput {α : Type} (result : Except Error α) : Prop where
  kind_eq : ∀ error, result = .error error → error.kind = .format

namespace Result.BlamesInput

variable {α β : Type}

instance (value : α) : BlamesInput (.ok value) where
  kind_eq _ herror := by cases herror

theorem error {fault : Fault} (hkind : fault.kind = .format) :
    BlamesInput (.error (.ofFault fault) : Except Error α) where
  kind_eq _ herror := by
    cases herror
    exact hkind

theorem passOn {result : Except Error α} [BlamesInput result] {error : Error}
    (herror : result = .error error) : BlamesInput (.error error : Except Error β) where
  kind_eq other hother := by
    cases hother
    exact kind_eq error herror

theorem bind {result : Except Error α} {next : α → Except Error β} (hresult : BlamesInput result)
    (hnext : ∀ value, result = .ok value → BlamesInput (next value)) :
    BlamesInput (result >>= next) where
  kind_eq error herror := by
    cases hfound : result with
    | error first =>
      rw [hfound] at herror
      cases herror
      exact hresult.kind_eq error hfound
    | ok value =>
      rw [hfound] at herror
      exact (hnext value hfound).kind_eq error herror

instance (result : Except Error α) (next : α → Except Error β) [hresult : BlamesInput result]
    [hnext : ∀ value, BlamesInput (next value)] : BlamesInput (result >>= next) :=
  bind hresult fun value _ => hnext value

instance (activity : Activity) (result : Except Error α) [hresult : BlamesInput result] :
    BlamesInput (Result.during activity result) where
  kind_eq error herror := by
    cases hfound : result with
    | ok value =>
      rw [hfound] at herror
      cases herror
    | error first =>
      rw [hfound] at herror
      cases herror
      exact hresult.kind_eq first hfound

end Result.BlamesInput

/-- Whatever a computation fails with says that its input is malformed. -/
class BlamesInput {σ α : Type} (action : StateT σ (Except Error) α) : Prop where
  result : ∀ state, Result.BlamesInput (action state)

attribute [instance] BlamesInput.result

namespace BlamesInput

section

variable {σ α β : Type}

instance (value : α) : BlamesInput (pure value : StateT σ (Except Error) α) where
  result state := inferInstanceAs (Result.BlamesInput (.ok (value, state)))

theorem bind {action : StateT σ (Except Error) α} {next : α → StateT σ (Except Error) β}
    (haction : BlamesInput action) (hnext : ∀ value, BlamesInput (next value)) :
    BlamesInput (action >>= next) where
  result state :=
    inferInstanceAs (Result.BlamesInput (action state >>= fun found => next found.1 found.2))

instance (action : StateT σ (Except Error) α) (next : α → StateT σ (Except Error) β)
    [haction : BlamesInput action] [hnext : ∀ value, BlamesInput (next value)] :
    BlamesInput (action >>= next) :=
  bind haction hnext

instance (f : α → β) (action : StateT σ (Except Error) α) [BlamesInput action] :
    BlamesInput (f <$> action) := by
  rw [map_eq_pure_bind]
  infer_instance

instance (result : Except Error α) [Result.BlamesInput result] :
    BlamesInput (liftM result : StateT σ (Except Error) α) where
  result state :=
    inferInstanceAs (Result.BlamesInput (result >>= fun value => .ok (value, state)))

instance (f : α → StateT σ (Except Error) β) [∀ value, BlamesInput (f value)] (values : List α) :
    BlamesInput (values.mapM f) := by
  induction values with
  | nil =>
    rw [List.mapM_nil]
    infer_instance
  | cons value values ih =>
    rw [List.mapM_cons]
    infer_instance

instance (f : β → α → StateT σ (Except Error) β) [∀ found value, BlamesInput (f found value)]
    (values : List α) (found : β) : BlamesInput (values.foldlM f found) := by
  induction values generalizing found with
  | nil =>
    rw [List.foldlM_nil]
    infer_instance
  | cons value values ih =>
    rw [List.foldlM_cons]
    infer_instance

end

/-! ### Readers -/

section

variable {α : Type}

theorem fail {fault : Fault} (hkind : fault.kind = .format) :
    BlamesInput (Reader.fail fault : Reader α) where
  result _ := .error hkind

instance (activity : Activity) (reader : Reader α) [BlamesInput reader] :
    BlamesInput (reader.during activity) where
  result input := inferInstanceAs (Result.BlamesInput (Result.during activity (reader input)))

instance (size : Nat) : BlamesInput (Reader.bytes size) where
  result input := by
    unfold Reader.bytes
    dsimp only
    split
    · infer_instance
    · exact .error rfl

instance (signed : Bool) (width : Nat) : BlamesInput (Reader.number signed width) := by
  unfold Reader.number
  infer_instance

instance : BlamesInput Reader.uint8 := inferInstanceAs (BlamesInput (_ <$> _))

instance : BlamesInput Reader.uint16 := inferInstanceAs (BlamesInput (_ <$> _))

instance : BlamesInput Reader.int8 := inferInstanceAs (BlamesInput (_ <$> _))

instance : BlamesInput Reader.int16 := inferInstanceAs (BlamesInput (_ <$> _))

instance : BlamesInput Reader.int32 := inferInstanceAs (BlamesInput (_ <$> _))

instance (count : Nat) (reader : Reader α) [BlamesInput reader] :
    BlamesInput (Reader.many count reader) := by
  have hfrom : ∀ (found : List α) (input : Input),
      Result.BlamesInput (Reader.manyFrom reader count found input) := by
    induction count with
    | zero => exact fun found input => inferInstanceAs (Result.BlamesInput (.ok _))
    | succ count ih =>
      intro found input
      rw [Reader.manyFrom]
      split
      · exact ih ..
      · rename_i error herror
        exact .passOn herror
  exact ⟨hfrom []⟩

end

/-! ### Constants -/

instance (pool : Pool) (index : UInt16) : Result.BlamesInput (pool.get index) := by
  unfold Pool.get
  split
  · infer_instance
  all_goals exact .error rfl

theorem select {α : Type} (wanted : List EntryKind) (select : Entry → Option α) (pool : Pool)
    (index : UInt16) : Result.BlamesInput (pool.select wanted select index) := by
  unfold Pool.select
  apply Result.BlamesInput.bind inferInstance
  intro entry _
  split
  · exact inferInstanceAs (Result.BlamesInput (.ok _))
  · exact .error rfl

section

variable (pool : Pool) (index : UInt16)

instance : Result.BlamesInput (pool.fieldRefAt index) := select ..

instance : Result.BlamesInput (pool.methodRefAt index) := select ..

instance : Result.BlamesInput (pool.interfaceMethodRefAt index) := select ..

instance : Result.BlamesInput (pool.anyMethodRefAt index) := select ..

instance : Result.BlamesInput (pool.invokeDynamicAt index) := select ..

instance : Result.BlamesInput (pool.classAt index) := select ..

instance : Result.BlamesInput (pool.loadableAt index) := by
  have hloadable : ∀ entry, Result.BlamesInput (Loadable.ofEntry entry) := by
    intro entry
    unfold Loadable.ofEntry
    split
    · infer_instance
    · exact .error rfl
  unfold Pool.loadableAt
  infer_instance

end

/-! ### Instructions -/

section

variable (pool : Pool) (offset : UInt16)

instance (distance : Int) : BlamesInput (Instruction.targetOf offset distance) := by
  unfold Instruction.targetOf
  dsimp only
  split
  · infer_instance
  · exact fail rfl

instance : BlamesInput (Instruction.readTarget offset) := by
  unfold Instruction.readTarget
  infer_instance

instance : BlamesInput (Instruction.readWideTarget offset) := by
  unfold Instruction.readWideTarget
  infer_instance

instance : BlamesInput (Instruction.readPadding offset) := by
  unfold Instruction.readPadding
  infer_instance

instance : BlamesInput (Instruction.readTableSwitch offset) := by
  unfold Instruction.readTableSwitch
  infer_instance

instance : BlamesInput (Instruction.readLookupSwitch offset) := by
  unfold Instruction.readLookupSwitch
  infer_instance

instance : BlamesInput Instruction.readWide := by
  unfold Instruction.readWide
  refine bind inferInstance fun byte => ?_
  split
  · infer_instance
  · infer_instance
  · exact fail rfl

instance (opcode : Opcode) : BlamesInput (Instruction.readOperands pool offset opcode) := by
  cases opcode with
  | newArray =>
    unfold Instruction.readOperands
    refine bind inferInstance fun code => ?_
    split
    · infer_instance
    · exact fail rfl
  | _ =>
    unfold Instruction.readOperands
    infer_instance

instance : BlamesInput (Instruction.read pool offset) := by
  unfold Instruction.read
  refine bind inferInstance fun byte => ?_
  split
  · infer_instance
  · exact fail rfl

end

/-! ### Outlines -/

section

variable (length offset : UInt16)

instance (target : UInt16) : BlamesInput (Outline.withinCode length target) := by
  unfold Outline.withinCode
  split
  · infer_instance
  · exact fail rfl

instance : BlamesInput (Outline.readTarget length offset) := by
  unfold Outline.readTarget
  infer_instance

instance : BlamesInput (Outline.readWideTarget length offset) := by
  unfold Outline.readWideTarget
  infer_instance

instance : BlamesInput Outline.skipWide := by
  unfold Outline.skipWide
  refine bind inferInstance fun opcode => ?_
  split
  · infer_instance
  · split
    · infer_instance
    · exact fail rfl

instance (shape : OperandShape) : BlamesInput (Outline.readShape length offset shape) := by
  cases shape with
  | tableSwitch =>
    unfold Outline.readShape
    refine bind inferInstance fun _ => bind inferInstance fun otherwise => ?_
    refine bind inferInstance fun low => bind inferInstance fun high => ?_
    split
    · exact bind (fail rfl) inferInstance
    · infer_instance
  | lookupSwitch =>
    unfold Outline.readShape
    refine bind inferInstance fun _ => bind inferInstance fun otherwise => ?_
    refine bind inferInstance fun count => ?_
    split
    · exact bind (fail rfl) inferInstance
    · infer_instance
  | _ =>
    unfold Outline.readShape
    infer_instance

instance : BlamesInput (Outline.readInstruction length offset) := by
  unfold Outline.readInstruction
  refine bind inferInstance fun opcode => ?_
  split
  · infer_instance
  · exact fail rfl

end

instance {α : Type} (read : UInt16 → Reader α) [∀ offset, BlamesInput (read offset)]
    (code : Bytes) : Result.BlamesInput (sweep read code) := by
  have hfrom : ∀ (bytesLeft : Nat) (found : List (UInt16 × α)) (input : Input),
      Result.BlamesInput (sweepFrom read bytesLeft found input) := by
    intro bytesLeft
    induction bytesLeft with
    | zero => exact fun found input => inferInstanceAs (Result.BlamesInput (.ok _))
    | succ bytesLeft ih =>
      intro found input
      rw [sweepFrom]
      split
      · infer_instance
      · dsimp only
        split
        · exact ih ..
        · rename_i error herror
          exact .passOn herror
  exact hfrom ..

instance (length : UInt16) (code : Bytes) : Result.BlamesInput (Outline.ofCode length code) :=
  inferInstanceAs (Result.BlamesInput (sweep _ _))

/-! ### Tables -/

theorem throw {α : Type} {fault : Fault} (hkind : fault.kind = .format) :
    BlamesInput (MonadExcept.throw (Error.ofFault fault) : Labeling α) where
  result _ := .error hkind

instance {α : Type} (activity : Activity) (action : Labeling α) [BlamesInput action] :
    BlamesInput (Labeling.during activity action) where
  result labels := inferInstanceAs (Result.BlamesInput (Result.during activity (action labels)))

instance (offset : UInt16) : BlamesInput (Labeling.labelAt offset) where
  result labels := by
    unfold Labeling.labelAt
    split
    · infer_instance
    · exact .error rfl

instance (offset : Nat) : BlamesInput (Labeling.endLabelAt offset) where
  result labels := by
    unfold Labeling.endLabelAt
    split
    · infer_instance
    · exact .error rfl

instance (start length : UInt16) : BlamesInput (Labeling.rangeAt start length) := by
  unfold Labeling.rangeAt
  infer_instance

instance (entry : ExceptionEntry) : BlamesInput (Labeling.handler entry) := by
  unfold Labeling.handler
  infer_instance

instance (row : LineNumber) : BlamesInput (Labeling.lineNumber row) := by
  unfold Labeling.lineNumber
  infer_instance

instance (row : LocalVariable) : BlamesInput (Labeling.describedVariable row) := by
  unfold Labeling.describedVariable
  infer_instance

instance (row : LocalVariable) : BlamesInput (Labeling.signedVariable row) := by
  unfold Labeling.signedVariable
  infer_instance

instance (tables : CodeTables) (next : Attribute) : BlamesInput (tables.add next) := by
  unfold CodeTables.add
  split
  · split
    · infer_instance
    · exact throw rfl
  all_goals infer_instance

instance (type : VerificationType UInt16) : BlamesInput (type.mapM Labeling.labelAt) := by
  cases type <;> unfold VerificationType.mapM <;> infer_instance

instance (frame : Frame UInt16) : BlamesInput (frame.mapM Labeling.labelAt) := by
  cases frame <;> unfold Frame.mapM <;> infer_instance

instance (index : Nat) (previous : Option UInt16) (found : List (UInt16 × Frame Label))
    (frames : List StackMapFrame) : BlamesInput (Labeling.framesFrom index previous found frames) := by
  induction frames generalizing index previous found with
  | nil =>
    unfold Labeling.framesFrom
    infer_instance
  | cons frame frames ih =>
    unfold Labeling.framesFrom
    split
    · exact throw rfl
    · infer_instance

instance (code : CodeAttribute) : BlamesInput (Code.labelTables code) := by
  unfold Code.labelTables CodeTables.ofAttributes
  infer_instance

instance (length : UInt16) (starts : Std.HashSet UInt16) (labeled framed : List UInt16) :
    Result.BlamesInput (Code.checkPlaces length starts labeled framed) := by
  unfold Code.checkPlaces
  cases firstMisplaced (starts.insert length) labeled with
  | some offset => exact .error rfl
  | none =>
    cases firstMisplaced starts framed with
    | some offset => exact .error rfl
    | none => exact inferInstanceAs (Result.BlamesInput (.ok ()))

end BlamesInput

end JvmClass
