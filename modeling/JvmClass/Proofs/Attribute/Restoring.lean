import JvmClass.Proofs.Attribute.Elements
import JvmClass.Proofs.Attribute.Rows
import JvmClass.Proofs.Pool.Restoring

/-!
# Parts of attributes are written back as they were read

Every row, every value of an annotation and every stack map frame says all that was in the bytes it
was read from. The one exception are frames: a distance that fits into the tag may also follow it,
and a frame does not say which. Such a frame is `StackMapFrame.IsLoose`, and the others are written
back as they were.
-/

namespace JvmClass

open PoolM

variable {pool : Pool} (hpool : pool.FindsAll)

include hpool

/-! ### Rows -/

theorem InnerClass.restores_write : Restores pool (InnerClass.read pool) InnerClass.write := by
  apply Reader.Spells.bind hpool.finds_class.spells
  rintro innerClass _ ⟨inner, rfl, hinner⟩
  apply Reader.Spells.bind hpool.finds_class.optional.spells
  rintro outerClass _ ⟨outer, rfl, houter⟩
  apply Reader.Spells.bind hpool.finds_utf8.optional.spells
  rintro innerName _ ⟨name, rfl, hname⟩
  apply Reader.Spells.bind .uint16
  rintro flags _ rfl
  exact .pure (.bind hinner (.bind houter (.bind hname (.pure (by simp)))))

theorem EnclosingMethod.restores_write :
    Restores pool (EnclosingMethod.read pool) EnclosingMethod.write := by
  apply Reader.Spells.bind hpool.finds_class.spells
  rintro className _ ⟨index, rfl, hclass⟩
  apply hpool.finds_nameAndType.optional.spells_bind
  intro method index hmethod
  exact .pure (.bind hclass (.bind hmethod (.pure (by simp))))

theorem BootstrapMethod.restores_write :
    Restores pool (BootstrapMethod.read pool) BootstrapMethod.write := by
  apply hpool.finds_methodHandle.spells_bind
  intro handle index hhandle
  apply Reader.Spells.bind (restores_writeIndex hpool.finds_loadable).list16
  intro arguments contents hcontents
  exact .pure (.bind hhandle (.bind hcontents (.pure (by simp))))

theorem MethodParameter.restores_write :
    Restores pool (MethodParameter.read pool) MethodParameter.write := by
  apply Reader.Spells.bind hpool.finds_utf8.optional.spells
  rintro name _ ⟨index, rfl, hname⟩
  apply Reader.Spells.bind .uint16
  rintro flags _ rfl
  exact .pure (.bind hname (.pure (by simp)))

omit hpool in
theorem LineNumber.restores_write : Restores pool LineNumber.read LineNumber.write := by
  apply Reader.Spells.bind .uint16
  rintro startOffset _ rfl
  apply Reader.Spells.bind .uint16
  rintro line _ rfl
  exact .pure (.pure (by simp))

theorem LocalVariable.restores_write :
    Restores pool (LocalVariable.read pool) LocalVariable.write := by
  apply Reader.Spells.bind .uint16
  rintro startOffset _ rfl
  apply Reader.Spells.bind .uint16
  rintro length _ rfl
  apply Reader.Spells.bind hpool.finds_utf8.spells
  rintro name _ ⟨nameIndex, rfl, hname⟩
  apply Reader.Spells.bind hpool.finds_utf8.spells
  rintro descriptor _ ⟨descriptorIndex, rfl, hdescriptor⟩
  apply Reader.Spells.bind .uint16
  rintro index _ rfl
  exact .pure (.bind hname (.bind hdescriptor (.pure (by simp))))

theorem ExceptionEntry.restores_write :
    Restores pool (ExceptionEntry.read pool) ExceptionEntry.write := by
  apply Reader.Spells.bind .uint16
  rintro startOffset _ rfl
  apply Reader.Spells.bind .uint16
  rintro endOffset _ rfl
  apply Reader.Spells.bind .uint16
  rintro handlerOffset _ rfl
  apply Reader.Spells.bind hpool.finds_class.optional.spells
  rintro catchType _ ⟨index, rfl, hcatch⟩
  exact .pure (.bind hcatch (.pure (by simp)))

/-! ### Annotations -/

namespace ElementConstant

private theorem spells_inRange (tag : UInt8) (low high : Int) :
    (readInRange pool tag low high).Spells fun value bytes =>
      (low ≤ value.toInt ∧ value.toInt ≤ high) ∧
        ∃ index, bytes = Bytes.ofUInt16 index ∧ Gives pool (Pool.putInteger value) index := by
  apply hpool.finds_integer.spells_bind
  intro value index hput
  split
  · rename_i hrange
    exact .pure ⟨hrange, index, List.append_nil _, hput⟩
  · exact .fail

private theorem spells_boolean :
    (readBoolean pool).Spells fun value bytes => ∃ index, bytes = Bytes.ofUInt16 index ∧
      Gives pool (boolean value).put index := by
  apply hpool.finds_integer.spells_bind
  intro value index hput
  split
  · rename_i hzero
    rw [beq_iff_eq.1 hzero] at hput
    exact .pure ⟨index, List.append_nil _, hput⟩
  · split
    · rename_i hone
      rw [beq_iff_eq.1 hone] at hput
      exact .pure ⟨index, List.append_nil _, hput⟩
    · exact .fail

omit hpool in
private theorem toInt32_toInt8 {value : Int32} (hlow : -128 ≤ value.toInt)
    (hhigh : value.toInt ≤ 127) : value.toInt8.toInt32 = value := by
  rw [← Int32.toInt_inj, Int8.toInt_toInt32, Int32.toInt_toInt8]
  exact Int.bmod_eq_of_le (by omega) (by omega)

omit hpool in
private theorem toInt32_toInt16 {value : Int32} (hlow : -32768 ≤ value.toInt)
    (hhigh : value.toInt ≤ 32767) : value.toInt16.toInt32 = value := by
  rw [← Int32.toInt_inj, Int16.toInt_toInt32, Int32.toInt_toInt16]
  exact Int.bmod_eq_of_le (by omega) (by omega)

omit hpool in
private theorem toInt32_toUInt16 {value : Int32} (hlow : 0 ≤ value.toInt)
    (hhigh : value.toInt ≤ 65535) : value.toUInt32.toUInt16.toUInt32.toInt32 = value := by
  have hsmall : value.toUInt32.toNat < 65536 := by
    have hsigned : value.toInt = value.toBitVec.toInt := rfl
    have hunsigned : value.toUInt32.toNat = value.toBitVec.toNat := rfl
    rw [BitVec.toInt_eq_toNat_cond] at hsigned
    split at hsigned <;> omega
  have hword : value.toUInt32.toUInt16.toUInt32 = value.toUInt32 := by
    rw [← UInt32.toNat_inj, UInt16.toNat_toUInt32, UInt32.toNat_toUInt16]
    exact Nat.mod_eq_of_lt hsmall
  rw [hword, Int32.toInt32_toUInt32]

/-- What a constant behind a tag is read from. -/
private def IsStored (pool : Pool) (tag : UInt8) (value : ElementConstant) (bytes : Bytes) : Prop :=
  value.tag = tag ∧ ∃ index, bytes = Bytes.ofUInt16 index ∧ Gives pool value.put index

private theorem spells_narrow {make : Int32 → ElementConstant} {tag : UInt8} {low high : Int}
    (htag : ∀ value, (make value).tag = tag)
    (hput : ∀ value, low ≤ value.toInt → value.toInt ≤ high →
      (make value).put = Pool.putInteger value) :
    (readInRange pool tag low high >>= fun value => pure (make value)).Spells
      (IsStored pool tag) := by
  apply Reader.Spells.bind (spells_inRange hpool tag low high)
  rintro value _ ⟨⟨hlow, hhigh⟩, index, rfl, hindex⟩
  exact .pure ⟨htag value, index, List.append_nil _, hput value hlow hhigh ▸ hindex⟩

omit hpool in
private theorem spells_held {α : Type} {lookUp : Pool → UInt16 → Except Error α}
    {put : α → PoolM UInt16} (hfinds : pool.Finds lookUp put) {make : α → ElementConstant}
    {tag : UInt8} (htag : ∀ value, (make value).tag = tag)
    (hput : ∀ value, (make value).put = put value) :
    (Reader.uint16 >>= fun index => liftM (lookUp pool index) >>= fun value =>
      pure (make value)).Spells (IsStored pool tag) := by
  apply hfinds.spells_bind
  intro value index hindex
  exact .pure ⟨htag value, index, List.append_nil _, hput value ▸ hindex⟩

private theorem spells_read? {tag : UInt8} {reader : Reader ElementConstant}
    (hreader : read? pool tag = some reader) : reader.Spells (IsStored pool tag) := by
  unfold read? at hreader
  split at hreader <;> cases hreader
  · exact spells_narrow hpool (fun _ => rfl) fun value hlow hhigh =>
      congrArg Pool.putInteger (toInt32_toInt8 hlow hhigh)
  · exact spells_narrow hpool (fun _ => rfl) fun value hlow hhigh =>
      congrArg Pool.putInteger (toInt32_toUInt16 hlow hhigh)
  · exact spells_held hpool.finds_double (fun _ => rfl) fun _ => rfl
  · exact spells_held hpool.finds_float (fun _ => rfl) fun _ => rfl
  · exact spells_held hpool.finds_integer (fun _ => rfl) fun _ => rfl
  · exact spells_held hpool.finds_long (fun _ => rfl) fun _ => rfl
  · exact spells_narrow hpool (fun _ => rfl) fun value hlow hhigh =>
      congrArg Pool.putInteger (toInt32_toInt16 hlow hhigh)
  · apply Reader.Spells.bind (spells_boolean hpool)
    rintro value _ ⟨index, rfl, hindex⟩
    exact .pure ⟨rfl, index, List.append_nil _, hindex⟩
  · exact spells_held hpool.finds_utf8 (fun _ => rfl) fun _ => rfl

end ElementConstant

omit hpool in
theorem AnnotationUse.write_eq (descriptor : Text) (elements : List Element) :
    AnnotationUse.write ⟨descriptor, elements⟩ = do
      let index ← Pool.putUtf8 descriptor
      let contents ← PoolM.writeList 2 Element.write elements
      return Bytes.ofUInt16 index ++ contents := by
  unfold AnnotationUse.write PoolM.writeList
  simp only [Element.mk_writeFrom, bind_assoc, pure_bind, List.append_assoc]

omit hpool in
theorem ElementValue.write_array (values : List ElementValue) :
    ElementValue.write (.array values) = do
      let contents ← PoolM.writeList 2 ElementValue.write values
      return 91 :: contents := by
  unfold PoolM.writeList
  rw [ElementValue.write]
  simp only [ElementValue.mk_writeFrom, bind_assoc, pure_bind, List.cons_append]

theorem AnnotationUse.restores_readWith {value : Reader ElementValue}
    (hvalue : Restores pool value ElementValue.write) :
    Restores pool (AnnotationUse.readWith pool value) AnnotationUse.write := by
  have helement : Restores pool (Element.readWith pool value) Element.write := by
    apply hpool.finds_utf8.spells_bind
    intro name index hname
    apply Reader.Spells.bind hvalue
    intro value bytes hbytes
    refine .pure ?_
    unfold Element.write
    exact .bind hname (.bind hbytes (.pure (by simp)))
  apply hpool.finds_utf8.spells_bind
  intro descriptor index hdescriptor
  apply Reader.Spells.bind (.during _ helement.list16)
  intro elements contents hcontents
  refine .pure ?_
  rw [AnnotationUse.write_eq, List.append_nil]
  exact .bind hdescriptor (.bind hcontents (.pure rfl))

/-- By induction on how deep values may be nested. -/
theorem ElementValue.restores_readWithin (depth : Nat) :
    Restores pool (ElementValue.readWithin pool depth) ElementValue.write := by
  induction depth with
  | zero => exact .during _ .fail
  | succ depth ih =>
    apply Reader.Spells.bind .uint8
    rintro tag _ rfl
    split
    · rename_i reader hreader
      apply Reader.Spells.bind (ElementConstant.spells_read? hpool hreader)
      rintro value _ ⟨rfl, index, rfl, hput⟩
      refine .pure ?_
      rw [ElementValue.write]
      exact .bind hput (.pure (by simp))
    · split
      · apply hpool.finds_utf8.spells_bind
        intro typeName typeIndex htype
        apply hpool.finds_utf8.spells_bind
        intro constantName constantIndex hconstant
        refine .pure ?_
        rw [ElementValue.write]
        exact .bind htype (.bind hconstant (.pure (by simp)))
      · apply hpool.finds_utf8.spells_bind
        intro descriptor index hdescriptor
        refine .pure ?_
        rw [ElementValue.write]
        exact .bind hdescriptor (.pure (by simp))
      · apply Reader.Spells.bind (AnnotationUse.restores_readWith hpool ih)
        intro use bytes hbytes
        refine .pure ?_
        rw [ElementValue.write]
        exact .bind hbytes (.pure (by simp))
      · apply Reader.Spells.bind ih.list16
        intro values bytes hbytes
        refine .pure ?_
        rw [ElementValue.write_array]
        exact .bind hbytes (.pure (by simp))
      · exact .fail

theorem ElementValue.restores_read :
    Restores pool (ElementValue.read pool) ElementValue.write :=
  fun input => ElementValue.restores_readWithin hpool input.rest.length input

theorem AnnotationUse.restores_readList :
    Restores pool (AnnotationUse.readList pool) AnnotationUse.writeList :=
  fun input => (AnnotationUse.restores_readWith hpool
    (ElementValue.restores_readWithin hpool input.rest.length)).list16 input

theorem ParameterAnnotations.restores_read :
    Restores pool (ParameterAnnotations.read pool) ParameterAnnotations.write := by
  apply Reader.Spells.bind (AnnotationUse.restores_readList hpool).list8
  intro lists bytes hbytes
  apply Reader.Spells.lift
  intro parameters hparameters
  rw [ParameterAnnotations.ofList] at hparameters
  split at hparameters
  · cases hparameters
    rw [List.append_nil]
    exact hbytes
  · cases hparameters

/-! ### Stack map frames -/

theorem VerificationType.restores_read :
    Restores pool (VerificationType.read pool) VerificationType.write := by
  apply Reader.Spells.bind .uint8
  rintro tag _ rfl
  split
  case h_8 =>
    apply hpool.finds_class.spells_bind
    intro name index hname
    exact .pure (.bind hname (.pure (by simp)))
  case h_9 =>
    apply Reader.Spells.bind .uint16
    rintro origin _ rfl
    exact .pure (.pure (by simp))
  case h_10 => exact .fail
  all_goals exact .pure (.pure rfl)

namespace StackMapFrame

/-- The long form of a frame which the short form can store as well: the distance follows the tag,
though it fits into it. -/
def IsLoose (tag : UInt8) (frame : StackMapFrame) : Prop :=
  (tag = 247 ∨ tag = 251) ∧ frame.offsetDelta < 64

/-- The bytes start with a tag, the frame passes the check made on writing, and unless the tag is
the one of a longer form than needed the frame is written as these bytes. -/
def IsReadFrom (pool : Pool) (frame : StackMapFrame) (bytes : Bytes) : Prop :=
  ∃ tag others, bytes = tag :: others ∧ frame.frame.check = .ok () ∧
    (¬ IsLoose tag frame → Gives pool frame.write bytes)

section

variable {tag : UInt8} {delta : UInt16} {bytes : Bytes}

omit hpool

private theorem toUInt16_lt (hsmall : tag < 64) : tag.toUInt16 < 64 := by
  rw [UInt16.lt_iff_toNat_lt, UInt8.toNat_toUInt16]
  exact UInt8.lt_iff_toNat_lt.1 hsmall

theorem isReadFrom_same (hsmall : tag < 64) :
    IsReadFrom pool ⟨tag.toUInt16, .same⟩ [tag] := by
  refine ⟨tag, [], rfl, rfl, fun _ => .pure ?_⟩
  rw [if_pos (toUInt16_lt hsmall), UInt8.toUInt8_toUInt16]

theorem isReadFrom_sameWithStack {stack : VerificationType UInt16} (hlarge : ¬ tag < 64)
    (hsmall : tag < 128) (hstack : Gives pool stack.write bytes) :
    IsReadFrom pool ⟨(tag - 64).toUInt16, .sameWithStack stack⟩ (tag :: bytes) := by
  have hdelta : tag - 64 < 64 := by grind
  have htag : 64 + (tag - 64) = tag := by grind
  refine ⟨tag, bytes, rfl, rfl, fun _ => .bind hstack (.pure ?_)⟩
  rw [if_pos (toUInt16_lt hdelta), UInt8.toUInt8_toUInt16, htag, List.singleton_append]

theorem isReadFrom_longSame : IsReadFrom pool ⟨delta, .same⟩ (251 :: Bytes.ofUInt16 delta) := by
  refine ⟨251, _, rfl, rfl, fun hloose => .pure ?_⟩
  rw [if_neg fun hdelta => hloose ⟨.inr rfl, hdelta⟩]

theorem isReadFrom_longSameWithStack {stack : VerificationType UInt16}
    (hstack : Gives pool stack.write bytes) :
    IsReadFrom pool ⟨delta, .sameWithStack stack⟩ (247 :: (Bytes.ofUInt16 delta ++ bytes)) := by
  refine ⟨247, _, rfl, rfl, fun hloose => .bind hstack (.pure ?_)⟩
  rw [if_neg fun hdelta => hloose ⟨.inl rfl, hdelta⟩, List.cons_append]

theorem isReadFrom_chop (hlarge : ¬ tag < 247) (hother : ¬ tag == 247) (hsmall : tag < 251) :
    IsReadFrom pool ⟨delta, .chop (251 - tag)⟩ (tag :: Bytes.ofUInt16 delta) := by
  have hremoved : 1 ≤ 251 - tag ∧ 251 - tag ≤ 3 := by grind
  have htag : 251 - (251 - tag) = tag := by grind
  refine ⟨tag, _, rfl, if_pos hremoved, fun _ => .pure ?_⟩
  rw [htag]

theorem isReadFrom_append {added : List (VerificationType UInt16)} (hlarge : ¬ tag < 251)
    (hother : ¬ tag == 251) (hsmall : tag < 255) (hlength : added.length = (tag - 251).toNat)
    (hadded : Gives pool (writeAll VerificationType.write added) bytes) :
    IsReadFrom pool ⟨delta, .append added⟩ (tag :: (Bytes.ofUInt16 delta ++ bytes)) := by
  have hcount : 1 ≤ tag - 251 ∧ tag - 251 ≤ 3 := by grind
  have htag : 251 + (tag - 251) = tag := by grind
  rw [UInt8.le_iff_toNat_le, UInt8.le_iff_toNat_le, ← hlength] at hcount
  refine ⟨tag, _, rfl, if_pos hcount, fun _ => .bind hadded (.pure ?_)⟩
  rw [hlength, UInt8.ofNat_toNat, htag, List.cons_append]

end

theorem spells_read : (read pool).Spells (IsReadFrom pool) := by
  have htype := VerificationType.restores_read hpool
  apply Reader.Spells.bind .uint8
  rintro tag _ rfl
  -- The two forms with the distance in the tag come first, and no other form is shorter.
  split
  · rename_i hsmall
    exact .pure (isReadFrom_same hsmall)
  split
  · rename_i hlarge hsmall
    apply Reader.Spells.bind htype
    intro stack bytes hstack
    rw [← List.append_nil bytes] at hstack
    exact .pure (isReadFrom_sameWithStack hlarge hsmall hstack)
  split
  · exact .fail
  -- In all other forms the distance follows the tag. Two of them are the long ones.
  apply Reader.Spells.bind .uint16
  rintro delta _ rfl
  split
  · rename_i htag
    obtain rfl := beq_iff_eq.1 htag
    apply Reader.Spells.bind htype
    intro stack bytes hstack
    rw [← List.append_nil bytes] at hstack
    exact .pure (isReadFrom_longSameWithStack hstack)
  split
  · rename_i hlarge hother hsmall
    refine .pure ?_
    rw [List.append_nil]
    exact isReadFrom_chop hlarge hother hsmall
  split
  · rename_i htag
    obtain rfl := beq_iff_eq.1 htag
    refine .pure ?_
    rw [List.append_nil]
    exact isReadFrom_longSame
  split
  · rename_i hlarge hother hsmall
    apply Reader.Spells.bind (Reader.Spells.manyParts htype _)
    rintro added _ ⟨parts, hparts, hlength, rfl⟩
    refine .pure ?_
    rw [List.append_nil]
    exact isReadFrom_append hlarge hother hsmall hlength (gives_writeAll hparts)
  · rename_i hlarge
    have htag : 255 = tag := by grind
    apply Reader.Spells.bind htype.list16
    intro locals localBytes hlocals
    apply Reader.Spells.bind htype.list16
    intro stack stackBytes hstack
    refine .pure ⟨tag, _, rfl, rfl, fun _ => .bind hlocals (.bind hstack (.pure ?_))⟩
    rw [htag]
    simp

end StackMapFrame

end JvmClass
