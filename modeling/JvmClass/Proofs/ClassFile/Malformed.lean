import JvmClass.ClassFile.Reader
import JvmClass.Proofs.Code.Fidelity
import JvmClass.Proofs.Reading

/-!
# Malformed class files

Reading a class file, a constant pool or the contents of an attribute fails only because the input is
malformed, just as disassembling bytecode does: `BlamesInput` holds of every reader, from the ones of
single constants and rows up to the one of a whole class file. There is one check on the way whose
failure would blame something else, the one on the number of annotated parameters. It never fails
there, since that number was read from one byte.
-/

namespace JvmClass

namespace BlamesInput

/-! ### Numbers and lists -/

instance : BlamesInput Reader.uint32 := inferInstanceAs (BlamesInput (_ <$> _))

instance : BlamesInput Reader.uint64 := inferInstanceAs (BlamesInput (_ <$> _))

instance : BlamesInput Reader.int64 := inferInstanceAs (BlamesInput (_ <$> _))

instance : BlamesInput Reader.remainder where
  result _ := inferInstanceAs (Result.BlamesInput (.ok _))

section

variable {α β : Type}

instance (reader : Reader α) [BlamesInput reader] : BlamesInput (Reader.list8 reader) := by
  unfold Reader.list8
  infer_instance

instance (reader : Reader α) [BlamesInput reader] : BlamesInput (Reader.list16 reader) := by
  unfold Reader.list16
  infer_instance

/-- What comes second only has to blame the input for values that the first can make of it. -/
theorem bind_of_ensures {reader : Reader α} {next : α → Reader β} {post : α → Prop}
    [BlamesInput reader] (hreader : reader.Ensures post)
    (hnext : ∀ value, post value → BlamesInput (next value)) : BlamesInput (reader >>= next) where
  result input := by
    refine Result.BlamesInput.bind inferInstance fun found hfound => ?_
    have hvalue : post found.1 := hreader input found.1 found.2 hfound
    exact (hnext found.1 hvalue).result found.2

instance (value : α) : Result.BlamesInput (pure value) :=
  inferInstanceAs (Result.BlamesInput (.ok value))

instance (f : α → β) (result : Except Error α) [Result.BlamesInput result] :
    Result.BlamesInput (f <$> result) := by
  rw [map_eq_pure_bind]
  infer_instance

end

/-! ### Constant pools -/

instance (kind : EntryKind) : BlamesInput (RawEntry.readContents kind) := by
  cases kind with
  | utf8 =>
    unfold RawEntry.readContents
    refine bind inferInstance fun length => bind inferInstance fun contents => ?_
    split
    · infer_instance
    · exact fail rfl
  | _ =>
    unfold RawEntry.readContents
    infer_instance

instance (tag : UInt8) : BlamesInput (RawEntry.read tag) := by
  unfold RawEntry.read
  split
  · infer_instance
  · exact fail rfl

instance (missing : Nat) (slots : Array (Option RawEntry)) (input : Input) :
    Result.BlamesInput (RawPool.readSlots missing slots input) := by
  fun_induction RawPool.readSlots missing slots input with
  | case1 => infer_instance
  | case2 _ _ _ _ htag => exact .passOn htag
  | case3 _ _ _ _ _ _ _ hentry => exact .passOn hentry
  | case4 => exact .error rfl
  | case5 | case6 => assumption

instance : BlamesInput RawPool.read := by
  unfold RawPool.read
  refine bind inferInstance fun count => ?_
  have hslots : BlamesInput (RawPool.readSlots (count.toNat - 1) #[none] : Reader RawPool) :=
    ⟨fun _ => inferInstance⟩
  split
  · exact bind (fail rfl) inferInstance
  · infer_instance

section

variable (pool : RawPool)

instance (index : UInt16) : Result.BlamesInput (pool.get index) := by
  unfold RawPool.get
  split
  · infer_instance
  · exact .error rfl

instance (text : Text) : Result.BlamesInput (ClassName.ofText text) := by
  unfold ClassName.ofText
  split
  · infer_instance
  · exact .error rfl

instance (byte : UInt8) : Result.BlamesInput (ReferenceKind.ofByte byte) := by
  unfold ReferenceKind.ofByte
  split
  · infer_instance
  · exact .error rfl

instance {α : Type} (wanted : EntryKind) (entry : RawEntry) :
    Result.BlamesInput (RawEntry.wrong wanted entry : Except Error α) :=
  .error rfl

instance (entry : RawEntry) : Result.BlamesInput entry.asUtf8 := by
  unfold RawEntry.asUtf8
  split <;> infer_instance

instance (index : UInt16) : Result.BlamesInput (RawEntry.textAt pool index) := by
  unfold RawEntry.textAt
  infer_instance

instance (entry : RawEntry) : Result.BlamesInput (entry.asClassRef pool) := by
  unfold RawEntry.asClassRef
  split <;> infer_instance

instance (entry : RawEntry) : Result.BlamesInput (entry.asNameAndType pool) := by
  unfold RawEntry.asNameAndType
  split <;> infer_instance

instance (index : UInt16) : Result.BlamesInput (RawEntry.nameAndTypeAt pool index) := by
  unfold RawEntry.nameAndTypeAt
  infer_instance

instance (owner member : UInt16) : Result.BlamesInput (RawEntry.memberAt pool owner member) := by
  unfold RawEntry.memberAt
  infer_instance

instance (entry : RawEntry) : Result.BlamesInput (entry.asFieldRef pool) := by
  unfold RawEntry.asFieldRef
  split <;> infer_instance

instance (entry : RawEntry) : Result.BlamesInput (entry.asMethodRef pool) := by
  unfold RawEntry.asMethodRef
  split <;> infer_instance

instance (entry : RawEntry) : Result.BlamesInput (entry.asInterfaceMethodRef pool) := by
  unfold RawEntry.asInterfaceMethodRef
  split <;> infer_instance

instance (entry : RawEntry) : Result.BlamesInput (entry.asAnyMethodRef pool) := by
  unfold RawEntry.asAnyMethodRef
  split <;> infer_instance

instance (kind : ReferenceKind) (index : UInt16) :
    Result.BlamesInput (RawEntry.referenceAt pool kind index) := by
  cases kind <;> (unfold RawEntry.referenceAt; infer_instance)

instance (entry : RawEntry) : Result.BlamesInput (entry.resolve pool) := by
  cases entry <;> (unfold RawEntry.resolve; dsimp only; infer_instance)

instance (slots : List (Option RawEntry)) (resolved : Pool) :
    Result.BlamesInput (Pool.resolveSlots pool slots resolved) := by
  fun_induction Pool.resolveSlots pool slots resolved with
  | case1 => infer_instance
  | case2 | case3 => assumption
  | case4 _ _ _ _ hresolve => exact .passOn hresolve

end

instance : BlamesInput Pool.read := by
  unfold Pool.read
  infer_instance

/-! ### Rows of attributes -/

section

variable (pool : Pool)

section

variable (index : UInt16)

instance : Result.BlamesInput (pool.utf8At index) := select ..

instance : Result.BlamesInput (pool.integerAt index) := select ..

instance : Result.BlamesInput (pool.floatAt index) := select ..

instance : Result.BlamesInput (pool.longAt index) := select ..

instance : Result.BlamesInput (pool.doubleAt index) := select ..

instance : Result.BlamesInput (pool.nameAndTypeAt index) := select ..

instance : Result.BlamesInput (pool.methodHandleAt index) := select ..

instance : Result.BlamesInput (pool.constantValueAt index) := by
  have hvalue : ∀ entry, Result.BlamesInput (ConstantValue.ofEntry entry) := by
    intro entry
    unfold ConstantValue.ofEntry
    split
    · infer_instance
    · exact .error rfl
  unfold Pool.constantValueAt
  infer_instance

instance {α : Type} (lookUp : Pool → UInt16 → Except Error α)
    [Result.BlamesInput (lookUp pool index)] :
    Result.BlamesInput (Pool.optionalAt lookUp pool index) := by
  unfold Pool.optionalAt
  split <;> infer_instance

end

instance : BlamesInput (Reader.utf8 pool) := by
  unfold Reader.utf8
  infer_instance

instance : BlamesInput (Reader.className pool) := by
  unfold Reader.className
  infer_instance

instance : BlamesInput (Reader.optionalUtf8 pool) := by
  unfold Reader.optionalUtf8
  infer_instance

instance : BlamesInput (Reader.optionalClassName pool) := by
  unfold Reader.optionalClassName
  infer_instance

instance : BlamesInput (InnerClass.read pool) := by
  unfold InnerClass.read
  infer_instance

instance : BlamesInput (EnclosingMethod.read pool) := by
  unfold EnclosingMethod.read
  infer_instance

instance : BlamesInput (BootstrapMethod.read pool) := by
  unfold BootstrapMethod.read
  infer_instance

instance : BlamesInput (MethodParameter.read pool) := by
  unfold MethodParameter.read
  infer_instance

instance : BlamesInput LineNumber.read := by
  unfold LineNumber.read
  infer_instance

instance : BlamesInput (LocalVariable.read pool) := by
  unfold LocalVariable.read
  infer_instance

instance : BlamesInput (ExceptionEntry.read pool) := by
  unfold ExceptionEntry.read
  infer_instance

/-! ### Frames -/

instance : BlamesInput (VerificationType.read pool) := by
  unfold VerificationType.read
  refine bind inferInstance fun tag => ?_
  split
  case h_10 => exact fail rfl
  all_goals infer_instance

instance : BlamesInput (StackMapFrame.read pool) := by
  unfold StackMapFrame.read
  refine bind inferInstance fun tag => ?_
  split
  · infer_instance
  split
  · infer_instance
  split
  · exact fail rfl
  refine bind inferInstance fun delta => ?_
  iterate 4
    split
    · infer_instance
  infer_instance

instance (index missing : Nat) (found : List StackMapFrame) (input : Input) :
    Result.BlamesInput (StackMapFrame.readListFrom pool index missing found input) := by
  fun_induction StackMapFrame.readListFrom pool index missing found input with
  | case1 => infer_instance
  | case2 => assumption
  | case3 _ _ _ _ _ hframe => exact .passOn hframe

instance : BlamesInput (StackMapFrame.readList pool) := by
  unfold StackMapFrame.readList
  exact bind inferInstance fun _ => ⟨inferInstance⟩

/-! ### Annotations -/

instance (tag : UInt8) (low high : Int) :
    BlamesInput (ElementConstant.readInRange pool tag low high) := by
  unfold ElementConstant.readInRange
  refine bind inferInstance fun index => bind inferInstance fun value => ?_
  split
  · infer_instance
  · exact fail rfl

instance : BlamesInput (ElementConstant.readBoolean pool) := by
  unfold ElementConstant.readBoolean
  refine bind inferInstance fun index => bind inferInstance fun value => ?_
  split
  · infer_instance
  split
  · infer_instance
  · exact fail rfl

theorem of_elementConstant {tag : UInt8} {reader : Reader ElementConstant}
    (hreader : ElementConstant.read? pool tag = some reader) : BlamesInput reader := by
  unfold ElementConstant.read? at hreader
  split at hreader <;> cases hreader <;> infer_instance

instance (value : Reader ElementValue) [BlamesInput value] :
    BlamesInput (AnnotationUse.readWith pool value) := by
  unfold AnnotationUse.readWith
  infer_instance

instance (depth : Nat) : BlamesInput (ElementValue.readWithin pool depth) := by
  induction depth with
  | zero =>
    have hend : BlamesInput (Reader.fail (.unexpectedEnd 1) : Reader ElementValue) := fail rfl
    unfold ElementValue.readWithin
    infer_instance
  | succ depth ih =>
    unfold ElementValue.readWithin
    refine bind inferInstance fun tag => ?_
    split
    · rename_i reader hreader
      have hconstant := of_elementConstant pool hreader
      infer_instance
    · split
      case h_5 => exact fail rfl
      all_goals infer_instance

instance : BlamesInput (ElementValue.read pool) where
  result input := inferInstanceAs
    (Result.BlamesInput (ElementValue.readWithin pool input.rest.length input))

instance : BlamesInput (AnnotationUse.readList pool) where
  result input := by
    unfold AnnotationUse.readList
    infer_instance

/-- The length of a list was read from one byte, so there are not too many parameters. -/
instance : BlamesInput (ParameterAnnotations.read pool) := by
  unfold ParameterAnnotations.read
  refine bind_of_ensures Reader.Ensures.length_list8 fun parameters hlength => ?_
  have hparameters : Result.BlamesInput (ParameterAnnotations.ofList parameters) := by
    rw [ParameterAnnotations.ofList, dif_pos hlength]
    infer_instance
  infer_instance

/-! ### Attributes -/

instance (attributes : Reader (List Attribute)) [BlamesInput attributes] :
    BlamesInput (CodeAttribute.readWith pool attributes) := by
  unfold CodeAttribute.readWith
  refine bind inferInstance fun maxStack => bind inferInstance fun maxLocals => ?_
  refine bind inferInstance fun length => ?_
  dsimp only
  split
  · exact bind (fail rfl) inferInstance
  · infer_instance

instance (attributes : Reader (List Attribute)) [BlamesInput attributes] (kind : AttributeKind) :
    BlamesInput (AttributeValue.readContents pool attributes kind) := by
  cases kind <;> (unfold AttributeValue.readContents; infer_instance)

instance (attributes : Reader (List Attribute)) [BlamesInput attributes] (scope : Scope)
    (name : Text) (contents : Bytes) :
    Result.BlamesInput (Attribute.parseWith pool attributes scope name contents) := by
  unfold Attribute.parseWith
  split
  · infer_instance
  split
  · rename_i error herror
    exact .passOn herror
  split
  · infer_instance
  · exact .error rfl

instance (attributes : Reader (List Attribute)) [BlamesInput attributes] (scope : Scope) :
    BlamesInput (Attribute.readWith pool attributes scope) := by
  unfold Attribute.readWith
  infer_instance

instance : BlamesInput (Attribute.readInner pool) := by
  unfold Attribute.readInner
  infer_instance

instance (scope : Scope) (name : Text) (contents : Bytes) :
    Result.BlamesInput (Attribute.parse pool scope name contents) := by
  unfold Attribute.parse
  infer_instance

instance (scope : Scope) : BlamesInput (Attribute.readList pool scope) := by
  unfold Attribute.readList
  infer_instance

/-! ### Class files -/

instance : BlamesInput (Field.read pool) := by
  unfold Field.read
  infer_instance

instance (name descriptor : Text) (code : Option Code) (others attributes : List Attribute) :
    Result.BlamesInput (Method.splitCodeFrom pool name descriptor code others attributes) := by
  fun_induction Method.splitCodeFrom pool name descriptor code others attributes with
  | case1 => infer_instance
  | case2 => exact .error rfl
  | case3 | case5 => assumption
  | case4 _ _ _ _ _ _ _ _ hcode => exact .passOn hcode

instance : BlamesInput (Method.read pool) := by
  unfold Method.read
  infer_instance

end

instance : BlamesInput ClassFile.readVersion := by
  unfold ClassFile.readVersion
  refine bind inferInstance fun minor => bind inferInstance fun major => ?_
  dsimp only
  split
  · exact bind (fail rfl) inferInstance
  · infer_instance

instance : BlamesInput ClassFile.read := by
  unfold ClassFile.read
  refine bind inferInstance fun magic => ?_
  split
  · exact bind (fail rfl) inferInstance
  · infer_instance

end BlamesInput

/-! ### What reading fails with -/

/-- Reading something fails with the error: a class file, a constant pool, the contents of an
attribute, or the bytecode of a method. -/
inductive ReadingFails : Error → Prop
  | classFile {input : Input} {error : Error} (hread : ClassFile.read input = .error error) :
      ReadingFails error
  | pool {input : Input} {error : Error} (hread : Pool.read input = .error error) :
      ReadingFails error
  | contents {pool : Pool} {scope : Scope} {name : Text} {contents : Bytes} {error : Error}
      (hread : Attribute.parse pool scope name contents = .error error) : ReadingFails error
  | bytecode {pool : Pool} {bytecode : CodeAttribute} {error : Error}
      (hread : Code.disassemble pool bytecode = .error error) : ReadingFails error

/-- Whatever reading fails with says that the input is malformed. So it never fails because values
contradict each other, because a target has no label, or because too many parameters are annotated. -/
theorem kind_of_readingFails {error : Error} (hfails : ReadingFails error) :
    error.kind = .format ∧ (∀ offset, error.fault ≠ .unlabeledTarget offset) ∧
      ∀ count, error.fault ≠ .tooManyParameters count := by
  have hkind : error.kind = .format := by
    cases hfails with
    | classFile hread => exact Result.BlamesInput.kind_eq error hread
    | pool hread => exact Result.BlamesInput.kind_eq error hread
    | contents hread => exact Result.BlamesInput.kind_eq error hread
    | bytecode hread => exact Result.BlamesInput.kind_eq error hread
  refine ⟨hkind, fun offset hfault => ?_, fun count hfault => ?_⟩
  · rw [Error.kind, hfault] at hkind
    cases hkind
  · rw [Error.kind, hfault] at hkind
    cases hkind

/-- A class file with the wrong magic, a pool without a count, annotations of two parameters that end
after the first, and bytecode that ends within an instruction. -/
theorem kind_of_readingFails_examples :
    ∃ first second third fourth,
      ClassFile.read (.ofBytes [202, 254, 186, 191]) = .error first ∧ first.kind = .format ∧
      Pool.read (.ofBytes [0]) = .error second ∧ second.kind = .format ∧
      Attribute.parse .empty .methodScope (.ofString "RuntimeVisibleParameterAnnotations")
        [2, 0, 0] = .error third ∧ third.kind = .format ∧
      Code.disassemble .empty ⟨1, 1, [167, 0], [], []⟩ = .error fourth ∧ fourth.kind = .format := by
  have hfirst : ∃ error, ClassFile.read (.ofBytes [202, 254, 186, 191]) = .error error :=
    ⟨_, rfl⟩
  have hsecond : ∃ error, Pool.read (.ofBytes [0]) = .error error := ⟨_, rfl⟩
  have hthird : ∃ error, Attribute.parse .empty .methodScope
      (.ofString "RuntimeVisibleParameterAnnotations") [2, 0, 0] = .error error := ⟨_, rfl⟩
  have hfourth : ∃ error, Code.disassemble .empty ⟨1, 1, [167, 0], [], []⟩ = .error error :=
    ⟨_, rfl⟩
  obtain ⟨first, hfirst⟩ := hfirst
  obtain ⟨second, hsecond⟩ := hsecond
  obtain ⟨third, hthird⟩ := hthird
  obtain ⟨fourth, hfourth⟩ := hfourth
  exact ⟨first, second, third, fourth, hfirst, (kind_of_readingFails (.classFile hfirst)).1,
    hsecond, (kind_of_readingFails (.pool hsecond)).1,
    hthird, (kind_of_readingFails (.contents hthird)).1,
    hfourth, (kind_of_readingFails (.bytecode hfourth)).1⟩

end JvmClass
