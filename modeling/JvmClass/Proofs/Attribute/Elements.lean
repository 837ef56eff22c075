import JvmClass.Attribute.Elements
import JvmClass.Proofs.Pool.Writing

/-!
# Annotations are read back

Values of annotations nest, and reading bounds how deep by the bytes that are left. What is written
for a value is at least as long as the value is deep, so every depth from its length on is enough to
read it back.
-/

namespace JvmClass

open PoolM

/-! ### Constants -/

namespace ElementConstant

instance (value : ElementConstant) : Lawful value.put := by
  cases value <;> (unfold put; infer_instance)

private theorem reads_inRange {pool : Pool} {index : UInt16} {value : Int32} {tag : UInt8}
    {low high : Int} (hget : pool.get index = .ok (.integer value)) (hlow : low ≤ value.toInt)
    (hhigh : value.toInt ≤ high) :
    (readInRange pool tag low high).Reads (Bytes.ofUInt16 index) value := by
  refine .last (.uint16 index) (.last (.lift (Pool.select_of_get hget rfl)) ?_)
  rw [if_pos ⟨hlow, hhigh⟩]
  exact .pure _

private theorem reads_boolean {pool : Pool} {index : UInt16} {value : Bool}
    (hget : pool.get index = .ok (.integer (if value then 1 else 0))) :
    (readBoolean pool).Reads (Bytes.ofUInt16 index) value := by
  refine .last (.uint16 index) (.last (.lift (Pool.select_of_get hget rfl)) ?_)
  cases value <;> exact .pure _

private theorem yields_put_of_get {value : ElementConstant} {put : PoolM UInt16} {entry : Entry}
    {reader : Pool → Reader ElementConstant}
    (hput : Yields put fun index later => later.get index = .ok entry)
    (hread : ∀ later, read? later value.tag = some (reader later))
    (hreads : ∀ later index, later.get index = .ok entry →
      (reader later).Reads (Bytes.ofUInt16 index) value) :
    Yields put fun index later => ∃ reader, read? later value.tag = some reader ∧
      reader.Reads (Bytes.ofUInt16 index) value :=
  hput.mono fun index later hget => ⟨reader later, hread later, hreads later index hget⟩

theorem yields_put (value : ElementConstant) :
    Yields value.put fun index later => ∃ reader, read? later value.tag = some reader ∧
      reader.Reads (Bytes.ofUInt16 index) value := by
  cases value with
  | byte value =>
    refine yields_put_of_get (Pool.yields_find (.integer value.toInt32)) (fun _ => rfl) ?_
    intro later index hget
    have hlow := value.le_toInt
    have hhigh := value.toInt_lt
    refine .returning (reads_inRange hget ?_ ?_) (by simp)
    · simpa using hlow
    · rw [Int8.toInt_toInt32]
      omega
  | char value =>
    refine yields_put_of_get (Pool.yields_find (.integer value.toUInt32.toInt32)) (fun _ => rfl) ?_
    intro later index hget
    have hlt := value.toNat_lt
    have hvalue : value.toUInt32.toInt32.toInt = value.toNat := by
      rw [Int32.toInt, UInt32.toBitVec_toInt32, BitVec.toInt_eq_toNat_of_lt]
      · simp
      · simp only [UInt32.toNat_toBitVec, UInt16.toNat_toUInt32]
        omega
    refine .returning (reads_inRange hget ?_ ?_) (by simp)
    · omega
    · omega
  | double bits =>
    refine yields_put_of_get (Pool.yields_find (.double bits)) (fun _ => rfl) ?_
    intro later index hget
    exact .last (.uint16 index) (.returning (.lift (Pool.select_of_get hget rfl)) rfl)
  | float bits =>
    refine yields_put_of_get (Pool.yields_find (.float bits)) (fun _ => rfl) ?_
    intro later index hget
    exact .last (.uint16 index) (.returning (.lift (Pool.select_of_get hget rfl)) rfl)
  | integer value =>
    refine yields_put_of_get (Pool.yields_find (.integer value)) (fun _ => rfl) ?_
    intro later index hget
    exact .last (.uint16 index) (.returning (.lift (Pool.select_of_get hget rfl)) rfl)
  | long value =>
    refine yields_put_of_get (Pool.yields_find (.long value)) (fun _ => rfl) ?_
    intro later index hget
    exact .last (.uint16 index) (.returning (.lift (Pool.select_of_get hget rfl)) rfl)
  | short value =>
    refine yields_put_of_get (Pool.yields_find (.integer value.toInt32)) (fun _ => rfl) ?_
    intro later index hget
    have hlow := value.le_toInt
    have hhigh := value.toInt_lt
    refine .returning (reads_inRange hget ?_ ?_) (by simp)
    · simpa using hlow
    · rw [Int16.toInt_toInt32]
      omega
  | boolean value =>
    refine yields_put_of_get (Pool.yields_find (.integer (if value then 1 else 0)))
      (fun _ => rfl) ?_
    intro later index hget
    exact .returning (reads_boolean hget) rfl
  | string text =>
    refine yields_put_of_get (Pool.yields_find (.utf8 text)) (fun _ => rfl) ?_
    intro later index hget
    exact .last (.uint16 index) (.returning (.lift (Pool.select_of_get hget rfl)) rfl)

end ElementConstant

/-! ### Writing lists of values -/

theorem ElementValue.writeFrom_eq (values : List ElementValue) (written : Array UInt8)
    (pool : Pool) :
    ElementValue.writeFrom values written pool =
      writeAllFrom ElementValue.write values written pool := by
  induction values generalizing written pool with
  | nil => rw [ElementValue.writeFrom, writeAllFrom]
  | cons value values ih =>
    rw [ElementValue.writeFrom, writeAllFrom]
    rcases value.write.run pool with ⟨error | bytes, after⟩
    · rfl
    · exact ih (written ++ bytes) after

theorem Element.writeFrom_eq (elements : List Element) (written : Array UInt8) (pool : Pool) :
    Element.writeFrom elements written pool =
      writeAllFrom Element.write elements written pool := by
  induction elements generalizing written pool with
  | nil => rw [Element.writeFrom, writeAllFrom]
  | cons element elements ih =>
    rw [Element.writeFrom, writeAllFrom]
    rcases element.write.run pool with ⟨error | bytes, after⟩
    · rfl
    · exact ih (written ++ bytes) after

theorem ElementValue.mk_writeFrom (values : List ElementValue) :
    ExceptT.mk (ElementValue.writeFrom values #[]) = writeAll ElementValue.write values :=
  funext (ElementValue.writeFrom_eq values #[])

theorem Element.mk_writeFrom (elements : List Element) :
    ExceptT.mk (Element.writeFrom elements #[]) = writeAll Element.write elements :=
  funext (Element.writeFrom_eq elements #[])

mutual

theorem ElementValue.lawful_write : (value : ElementValue) → Lawful value.write
  | .constant value => by
    unfold ElementValue.write
    infer_instance
  | .enumConstant typeName constantName => by
    unfold ElementValue.write
    infer_instance
  | .classInfo descriptor => by
    unfold ElementValue.write
    infer_instance
  | .nested use => by
    unfold ElementValue.write
    have := use.lawful_write
    infer_instance
  | .array values => by
    unfold ElementValue.write
    rw [ElementValue.mk_writeFrom]
    have := lawful_writeAll fun value (_ : value ∈ values) => value.lawful_write
    infer_instance

theorem AnnotationUse.lawful_write : (use : AnnotationUse) → Lawful use.write
  | ⟨descriptor, elements⟩ => by
    unfold AnnotationUse.write
    rw [Element.mk_writeFrom]
    have := lawful_writeAll fun element (_ : element ∈ elements) => element.lawful_write
    infer_instance

theorem Element.lawful_write : (element : Element) → Lawful element.write
  | ⟨name, value⟩ => by
    unfold Element.write
    have := value.lawful_write
    infer_instance

end

instance (value : ElementValue) : Lawful value.write :=
  value.lawful_write

instance (use : AnnotationUse) : Lawful use.write :=
  use.lawful_write

instance (element : Element) : Lawful element.write :=
  element.lawful_write

/-! ### Nested values -/

/-- What is written is read as the value by a reader that may nest as deep as the bytes are long, in
the pool left behind and in all later ones. -/
def EncodesWithin {α : Type} (write : PoolM Bytes) (read : Pool → Nat → Reader α) (value : α) :
    Prop :=
  Yields write fun bytes later => later.Valid → ∀ depth, bytes.length ≤ depth →
    (read later depth).Reads bytes value

theorem yields_writeAllWithin {α : Type} {write : α → PoolM Bytes} [∀ value, Lawful (write value)]
    {read : Pool → Nat → Reader α} {values : List α}
    (hvalues : ∀ value ∈ values, EncodesWithin (write value) read value) :
    Yields (writeAll write values) fun bytes later => later.Valid → ∀ depth,
      bytes.length ≤ depth → (read later depth).ReadsMany bytes values := by
  induction values with
  | nil => exact .pure fun _ _ _ _ => .nil
  | cons value values ih =>
    rw [writeAll_cons]
    refine .bind (hvalues value List.mem_cons_self) fun bytes => ?_
    refine .bind (ih fun other hmem => hvalues other (List.mem_cons_of_mem _ hmem)) fun others => ?_
    refine .pure fun later hothers hbytes hvalid depth hdepth => ?_
    rw [List.length_append] at hdepth
    exact .cons (hbytes hvalid depth (by omega)) (hothers hvalid depth (by omega))

def Element.readWith (pool : Pool) (value : Reader ElementValue) : Reader Element := do
  let name ← pool.utf8At (← Reader.uint16)
  return Element.mk name (← value)

private theorem reads_nested {pool : Pool} {depth : Nat} {bytes : Bytes} {use : AnnotationUse}
    (huse : (AnnotationUse.readWith pool (ElementValue.readWithin pool depth)).Reads bytes use) :
    (ElementValue.readWithin pool (depth + 1)).Reads (64 :: bytes) (.nested use) := by
  refine .bind (.uint8 64) ?_
  exact .returning huse rfl

private theorem reads_array {pool : Pool} {depth : Nat} {bytes : Bytes} {values : List ElementValue}
    (hlt : values.length < 256 ^ 2)
    (hmany : (ElementValue.readWithin pool depth).ReadsMany bytes values) :
    (ElementValue.readWithin pool (depth + 1)).Reads
      (91 :: (Bytes.bigEndian 2 values.length ++ bytes)) (.array values) := by
  refine .bind (.uint8 91) ?_
  exact .returning (hmany.list16 hlt) rfl

mutual

theorem ElementValue.encodes_write : (value : ElementValue) →
    EncodesWithin value.write ElementValue.readWithin value
  | .constant value => by
    unfold ElementValue.write
    refine .bind value.yields_put fun index => .pure fun later hread _ depth hdepth => ?_
    obtain ⟨depth, rfl⟩ := Nat.exists_eq_succ_of_ne_zero (Nat.ne_zero_of_lt hdepth)
    obtain ⟨reader, hreader, hreads⟩ := hread
    refine .bind (.uint8 value.tag) ?_
    rw [hreader]
    exact .returning hreads rfl
  | .enumConstant typeName constantName => by
    unfold ElementValue.write
    refine .bind (Pool.yields_putUtf8 typeName) fun typeIndex => ?_
    refine .bind (Pool.yields_putUtf8 constantName) fun constantIndex => ?_
    refine .pure fun later hconstant htype _ depth hdepth => ?_
    obtain ⟨depth, rfl⟩ := Nat.exists_eq_succ_of_ne_zero (Nat.ne_zero_of_lt hdepth)
    rw [List.cons_append]
    refine .bind (.uint8 101) (.bind (.uint16 typeIndex) ?_)
    refine .afterLift (Pool.select_of_get htype rfl) ?_
    exact .last (.uint16 constantIndex) (.returning (.lift (Pool.select_of_get hconstant rfl)) rfl)
  | .classInfo descriptor => by
    unfold ElementValue.write
    refine .bind (Pool.yields_putUtf8 descriptor) fun index => ?_
    refine .pure fun later hdescriptor _ depth hdepth => ?_
    obtain ⟨depth, rfl⟩ := Nat.exists_eq_succ_of_ne_zero (Nat.ne_zero_of_lt hdepth)
    refine .bind (.uint8 99) ?_
    exact .last (.uint16 index) (.returning (.lift (Pool.select_of_get hdescriptor rfl)) rfl)
  | .nested use => by
    unfold ElementValue.write
    refine .bind use.encodes_write fun bytes => .pure fun later huse hvalid depth hdepth => ?_
    obtain ⟨depth, rfl⟩ := Nat.exists_eq_succ_of_ne_zero (Nat.ne_zero_of_lt hdepth)
    exact reads_nested (huse hvalid depth (Nat.le_of_succ_le_succ hdepth))
  | .array values => by
    unfold ElementValue.write
    rw [ElementValue.mk_writeFrom]
    refine .bind (.lift fun count hcount _ => ofCount_eq_ok_iff.1 hcount) fun count => ?_
    refine .bind (yields_writeAllWithin fun value (_ : value ∈ values) => value.encodes_write)
      fun contents => ?_
    refine .pure fun later hcontents hcount hvalid depth hdepth => ?_
    obtain ⟨hlt, rfl⟩ := hcount
    obtain ⟨depth, rfl⟩ := Nat.exists_eq_succ_of_ne_zero (Nat.ne_zero_of_lt hdepth)
    refine reads_array hlt (hcontents hvalid depth ?_)
    simp only [List.length_cons, List.length_append] at hdepth
    omega

theorem AnnotationUse.encodes_write : (use : AnnotationUse) →
    EncodesWithin use.write
      (fun pool depth => AnnotationUse.readWith pool (ElementValue.readWithin pool depth)) use
  | ⟨descriptor, elements⟩ => by
    unfold AnnotationUse.write
    rw [Element.mk_writeFrom]
    refine .bind (Pool.yields_putUtf8 descriptor) fun index => ?_
    refine .bind (.lift fun count hcount _ => ofCount_eq_ok_iff.1 hcount) fun count => ?_
    refine .bind (yields_writeAllWithin fun element (_ : element ∈ elements) =>
      element.encodes_write) fun contents => ?_
    refine .pure fun later hcontents hcount hdescriptor hvalid depth hdepth => ?_
    obtain ⟨hlt, rfl⟩ := hcount
    rw [List.append_assoc] at hdepth ⊢
    simp only [List.length_append] at hdepth
    refine .bind (.uint16 index) (.afterLift (Pool.select_of_get hdescriptor rfl) ?_)
    have hmany := hcontents hvalid depth (by omega)
    exact .returning (.during _ (hmany.list16 hlt)) rfl

theorem Element.encodes_write : (element : Element) →
    EncodesWithin element.write
      (fun pool depth => Element.readWith pool (ElementValue.readWithin pool depth)) element
  | ⟨name, value⟩ => by
    unfold Element.write
    refine .bind (Pool.yields_putUtf8 name) fun index => ?_
    refine .bind value.encodes_write fun bytes => ?_
    refine .pure fun later hvalue hname hvalid depth hdepth => ?_
    rw [List.length_append] at hdepth
    refine .bind (.uint16 index) (.afterLift (Pool.select_of_get hname rfl) ?_)
    exact .returning (hvalue hvalid depth (by omega)) rfl

end

/-! ### Annotations as attributes hold them -/

theorem ElementValue.encodes_read (value : ElementValue) :
    Encodes value.write ElementValue.read value := by
  refine value.encodes_write.mono fun bytes later hreads hvalid position rest => ?_
  have hlength : bytes.length ≤ (bytes ++ rest).length := by
    rw [List.length_append]
    exact Nat.le_add_right _ _
  exact hreads hvalid (bytes ++ rest).length hlength position rest

namespace AnnotationUse

instance (uses : List AnnotationUse) : Lawful (writeList uses) := by
  unfold writeList
  infer_instance

theorem encodes_writeList (uses : List AnnotationUse) :
    Encodes (writeList uses) readList uses := by
  refine .bind (.lift fun count hcount _ => ofCount_eq_ok_iff.1 hcount) fun count => ?_
  refine .bind (yields_writeAllWithin fun use _ => use.encodes_write) fun contents => ?_
  refine .pure fun later hcontents hcount hvalid position rest => ?_
  obtain ⟨hlt, rfl⟩ := hcount
  have hmany := hcontents hvalid (Bytes.bigEndian 2 uses.length ++ contents ++ rest).length (by
    simp only [List.length_append]
    omega)
  exact hmany.list16 hlt position rest

end AnnotationUse

namespace ParameterAnnotations

instance (parameters : ParameterAnnotations) : Lawful parameters.write := by
  unfold write
  infer_instance

theorem encodes_write (parameters : ParameterAnnotations) :
    Encodes parameters.write read parameters := by
  have hlist := encodes_list8 fun uses (_ : uses ∈ parameters.parameters) =>
    AnnotationUse.encodes_writeList uses
  refine hlist.mono fun bytes later hreads hvalid => ?_
  refine .last (hreads hvalid) (.lift ?_)
  unfold ofList
  rw [dif_pos parameters.length_le]

end ParameterAnnotations

end JvmClass
