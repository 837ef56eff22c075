import JvmClass.Attribute.Frames
import JvmClass.Attribute.Tables
import JvmClass.Proofs.Pool.Writing

/-!
# Rows of attributes are read back

The parts of attributes that lie flat: references, the rows of tables and stack map frames. Of each
it is said that writing it is a lawful computation, and that what is written is read as it.
-/

namespace JvmClass

open PoolM

/-! ### References -/

namespace Reader

variable {pool : Pool} {index : UInt16}

theorem reads_utf8 {text : Text} (hget : pool.get index = .ok (.utf8 text)) :
    (Reader.utf8 pool).Reads (Bytes.ofUInt16 index) text :=
  reads_lookUp (Pool.select_of_get hget rfl)

theorem reads_className {name : ClassName} (hget : pool.get index = .ok (.classRef name)) :
    (Reader.className pool).Reads (Bytes.ofUInt16 index) name :=
  reads_lookUp (Pool.select_of_get hget rfl)

end Reader

instance (text : Text) : Lawful (writeUtf8 text) := by
  unfold writeUtf8
  infer_instance

instance (name : ClassName) : Lawful (writeClass name) := by
  unfold writeClass
  infer_instance

theorem encodes_writeUtf8 (text : Text) : Encodes (writeUtf8 text) Reader.utf8 text :=
  encodes_writeIndex ((Pool.yields_putUtf8 text).mono fun _ _ hget => Pool.select_of_get hget rfl)

theorem encodes_writeClass (name : ClassName) : Encodes (writeClass name) Reader.className name :=
  encodes_writeIndex ((Pool.yields_putClass name).mono fun _ _ hget => Pool.select_of_get hget rfl)

/-! ### Rows of tables -/

namespace InnerClass

instance (row : InnerClass) : Lawful row.write := by
  unfold write
  infer_instance

theorem encodes_write (row : InnerClass) : Encodes row.write read row := by
  refine .bind (Pool.yields_putClass row.innerClass) fun innerClass => ?_
  refine .bind (Pool.yields_putOptionalClass row.outerClass) fun outerClass => ?_
  refine .bind (Pool.yields_putOptionalUtf8 row.innerName) fun innerName => ?_
  refine .pure fun later hinnerName houterClass hinnerClass hvalid => ?_
  rw [List.append_assoc, List.append_assoc]
  refine .bind (Reader.reads_className hinnerClass) ?_
  refine .bind (Reader.reads_lookUp (houterClass hvalid)) ?_
  refine .bind (Reader.reads_lookUp (hinnerName hvalid)) ?_
  exact .returning (.uint16 row.flags) rfl

end InnerClass

namespace EnclosingMethod

instance (value : EnclosingMethod) : Lawful value.write := by
  unfold write
  infer_instance

theorem encodes_write (value : EnclosingMethod) : Encodes value.write read value := by
  refine .bind (Pool.yields_putClass value.className) fun className => ?_
  refine .bind (Pool.yields_putOptionalNameAndType value.method) fun method => ?_
  refine .pure fun later hmethod hclassName hvalid => ?_
  refine .bind (Reader.reads_className hclassName) ?_
  refine .last (.uint16 method) ?_
  exact .returning (.lift (hmethod hvalid)) rfl

end EnclosingMethod

namespace BootstrapMethod

instance (method : BootstrapMethod) : Lawful method.write := by
  unfold write
  infer_instance

theorem encodes_write (method : BootstrapMethod) : Encodes method.write read method := by
  refine .bind (Pool.yields_find (.methodHandle method.handle)) fun handle => ?_
  have hargument : ∀ argument ∈ method.arguments,
      Encodes (writeIndex (Pool.putLoadable argument))
        (fun pool => Reader.uint16 >>= fun index => liftM (pool.loadableAt index)) argument :=
    fun argument _ => encodes_writeIndex ((Pool.yields_find argument.toEntry).mono fun _ _ =>
      Pool.loadableAt_of_get)
  refine .bind (encodes_list16 hargument) fun arguments => ?_
  refine .pure fun later harguments hhandle hvalid => ?_
  refine .bind (.uint16 handle) ?_
  refine .afterLift (Pool.select_of_get hhandle rfl) ?_
  exact .returning (harguments hvalid) rfl

end BootstrapMethod

namespace MethodParameter

instance (parameter : MethodParameter) : Lawful parameter.write := by
  unfold write
  infer_instance

theorem encodes_write (parameter : MethodParameter) : Encodes parameter.write read parameter := by
  refine .bind (Pool.yields_putOptionalUtf8 parameter.name) fun name => ?_
  refine .pure fun later hname hvalid => ?_
  refine .bind (Reader.reads_lookUp (hname hvalid)) ?_
  exact .returning (.uint16 parameter.flags) rfl

end MethodParameter

namespace LineNumber

instance (row : LineNumber) : Lawful row.write := by
  unfold write
  infer_instance

theorem encodes_write (row : LineNumber) : Encodes row.write (fun _ => read) row := by
  refine .pure fun later hvalid => ?_
  refine .bind (.uint16 row.startOffset) ?_
  exact .returning (.uint16 row.line) rfl

end LineNumber

namespace LocalVariable

instance (row : LocalVariable) : Lawful row.write := by
  unfold write
  infer_instance

theorem encodes_write (row : LocalVariable) : Encodes row.write read row := by
  refine .bind (Pool.yields_putUtf8 row.name) fun name => ?_
  refine .bind (Pool.yields_putUtf8 row.descriptor) fun descriptor => ?_
  refine .pure fun later hdescriptor hname hvalid => ?_
  rw [List.append_assoc, List.append_assoc, List.append_assoc]
  refine .bind (.uint16 row.startOffset) ?_
  refine .bind (.uint16 row.length) ?_
  refine .bind (Reader.reads_utf8 hname) ?_
  refine .bind (Reader.reads_utf8 hdescriptor) ?_
  exact .returning (.uint16 row.index) rfl

end LocalVariable

namespace ExceptionEntry

instance (entry : ExceptionEntry) : Lawful entry.write := by
  unfold write
  infer_instance

theorem encodes_write (entry : ExceptionEntry) : Encodes entry.write read entry := by
  refine .bind (Pool.yields_putOptionalClass entry.catchType) fun catchType => ?_
  refine .pure fun later hcatchType hvalid => ?_
  rw [List.append_assoc, List.append_assoc]
  refine .bind (.uint16 entry.startOffset) ?_
  refine .bind (.uint16 entry.endOffset) ?_
  refine .bind (.uint16 entry.handlerOffset) ?_
  exact .returning (Reader.reads_lookUp (hcatchType hvalid)) rfl

end ExceptionEntry

/-! ### Stack map frames -/

namespace VerificationType

instance (type : VerificationType UInt16) : Lawful type.write := by
  cases type <;> (unfold write; infer_instance)

theorem encodes_write (type : VerificationType UInt16) : Encodes type.write read type := by
  cases type with
  | object name =>
    refine .bind (Pool.yields_putClass name) fun index => .pure fun later hget _ => ?_
    refine .bind (.uint8 7) ?_
    refine .last (.uint16 index) ?_
    exact .returning (.lift (Pool.select_of_get hget rfl)) rfl
  | uninitialized origin =>
    refine .pure fun later _ => ?_
    refine .bind (.uint8 8) ?_
    exact .returning (.uint16 origin) rfl
  | _ => exact .pure fun later _ => .last (.uint8 _) (.pure _)

end VerificationType

namespace StackMapFrame

instance (frame : StackMapFrame) : Lawful frame.write := by
  obtain ⟨offsetDelta, frame⟩ := frame
  cases frame <;> (unfold write; infer_instance)

variable {pool : Pool} {delta : UInt16}

private theorem toNat_toUInt8_of_lt (hsmall : delta < 64) : delta.toUInt8.toNat = delta.toNat := by
  rw [UInt16.toNat_toUInt8]
  have hlt : delta.toNat < 64 := UInt16.lt_iff_toNat_lt.1 hsmall
  omega

private theorem reads_same (delta : UInt16) :
    (read pool).Reads (if delta < 64 then [delta.toUInt8] else 251 :: Bytes.ofUInt16 delta)
      ⟨delta, .same⟩ := by
  split
  · rename_i hsmall
    have htag : delta.toUInt8 < 64 := by
      rw [UInt8.lt_iff_toNat_lt, toNat_toUInt8_of_lt hsmall]
      exact UInt16.lt_iff_toNat_lt.1 hsmall
    have hback : delta.toUInt8.toUInt16 = delta := by
      rw [← UInt16.toNat_inj, UInt8.toNat_toUInt16, toNat_toUInt8_of_lt hsmall]
    refine .last (.uint8 _) ?_
    rw [if_pos htag, hback]
    exact .pure _
  · exact .bind (.uint8 251) (.last (.uint16 delta) (.pure _))

private theorem reads_sameWithStack (delta : UInt16) {stack : VerificationType UInt16}
    {bytes : Bytes} (hstack : (VerificationType.read pool).Reads bytes stack) :
    (read pool).Reads
      ((if delta < 64 then [64 + delta.toUInt8] else 247 :: Bytes.ofUInt16 delta) ++ bytes)
      ⟨delta, .sameWithStack stack⟩ := by
  split
  · rename_i hsmall
    have hlt : delta.toNat < 64 := UInt16.lt_iff_toNat_lt.1 hsmall
    have hsum : (64 + delta.toUInt8).toNat = 64 + delta.toNat := by
      rw [UInt8.toNat_add, toNat_toUInt8_of_lt hsmall]
      change (64 + delta.toNat) % 256 = _
      omega
    have hlow : ¬64 + delta.toUInt8 < 64 := by
      rw [UInt8.lt_iff_toNat_lt, hsum]
      exact Nat.not_lt.2 (Nat.le_add_right _ _)
    have hhigh : 64 + delta.toUInt8 < 128 := by
      rw [UInt8.lt_iff_toNat_lt, hsum]
      change 64 + delta.toNat < 128
      omega
    have hback : (64 + delta.toUInt8 - 64).toUInt16 = delta := by
      rw [UInt8.add_comm, UInt8.add_sub_cancel, ← UInt16.toNat_inj, UInt8.toNat_toUInt16,
        toNat_toUInt8_of_lt hsmall]
    refine .bind (.uint8 _) ?_
    rw [if_neg hlow, if_pos hhigh, hback]
    exact .returning hstack rfl
  · rw [List.cons_append]
    exact .bind (.uint8 247) (.bind (.uint16 delta) (.returning hstack rfl))

private theorem reads_chop (delta : UInt16) {removed : UInt8}
    (hcheck : 1 ≤ removed ∧ removed ≤ 3) :
    (read pool).Reads ((251 - removed) :: Bytes.ofUInt16 delta) ⟨delta, .chop removed⟩ := by
  have hcases : removed = 1 ∨ removed = 2 ∨ removed = 3 := by
    obtain ⟨hlow, hhigh⟩ := hcheck
    rw [UInt8.le_iff_toNat_le] at hlow hhigh
    change 1 ≤ removed.toNat at hlow
    change removed.toNat ≤ 3 at hhigh
    simp only [← UInt8.toNat_inj]
    change removed.toNat = 1 ∨ removed.toNat = 2 ∨ removed.toNat = 3
    omega
  rcases hcases with rfl | rfl | rfl
  · exact .bind (.uint8 250) (.returning (.uint16 delta) rfl)
  · exact .bind (.uint8 249) (.returning (.uint16 delta) rfl)
  · exact .bind (.uint8 248) (.returning (.uint16 delta) rfl)

private theorem reads_append (delta : UInt16) {added : List (VerificationType UInt16)}
    {bytes : Bytes} (hcheck : 1 ≤ added.length ∧ added.length ≤ 3)
    (hadded : (VerificationType.read pool).ReadsMany bytes added) :
    (read pool).Reads ((251 + UInt8.ofNat added.length) :: Bytes.ofUInt16 delta ++ bytes)
      ⟨delta, .append added⟩ := by
  have hmany := hadded.many
  have hcases : added.length = 1 ∨ added.length = 2 ∨ added.length = 3 := by omega
  rw [List.cons_append]
  rcases hcases with hlength | hlength | hlength <;> rw [hlength] at hmany ⊢
  · exact .bind (.uint8 252) (.bind (.uint16 delta) (.returning hmany rfl))
  · exact .bind (.uint8 253) (.bind (.uint16 delta) (.returning hmany rfl))
  · exact .bind (.uint8 254) (.bind (.uint16 delta) (.returning hmany rfl))

theorem encodes_write {frame : StackMapFrame} (hcheck : frame.frame.check = .ok ()) :
    Encodes frame.write read frame := by
  obtain ⟨delta, frame⟩ := frame
  cases frame with
  | same => exact .pure fun later _ => reads_same delta
  | sameWithStack stack =>
    refine .bind stack.encodes_write fun bytes => .pure fun later hstack hvalid => ?_
    exact reads_sameWithStack delta (hstack hvalid)
  | chop removed =>
    refine .pure fun later _ => reads_chop delta ?_
    simp only [Frame.check] at hcheck
    split at hcheck
    · assumption
    · cases hcheck
  | append added =>
    have hlength : 1 ≤ added.length ∧ added.length ≤ 3 := by
      simp only [Frame.check] at hcheck
      split at hcheck
      · assumption
      · cases hcheck
    refine .bind (yields_writeAll fun type _ => type.encodes_write) fun bytes => ?_
    exact .pure fun later hadded hvalid => reads_append delta hlength (hadded hvalid)
  | full locals stack =>
    refine .bind (encodes_list16 fun type _ => type.encodes_write) fun localBytes => ?_
    refine .bind (encodes_list16 fun type _ => type.encodes_write) fun stackBytes => ?_
    refine .pure fun later hstack hlocals hvalid => ?_
    rw [List.append_assoc, List.cons_append]
    refine .bind (.uint8 255) (.bind (.uint16 delta) ?_)
    exact .bind (hlocals hvalid) (.returning (hstack hvalid) rfl)

private theorem readListFrom_of_readsMany {bytes : Bytes} {frames : List StackMapFrame}
    (hreads : (read pool).ReadsMany bytes frames) (index : Nat) (found : List StackMapFrame)
    (position : Nat) (rest : Bytes) :
    readListFrom pool index frames.length found ⟨position, bytes ++ rest⟩ =
      .ok (found.reverse ++ frames, ⟨position + bytes.length, rest⟩) := by
  induction hreads generalizing index found position with
  | nil => simp [readListFrom]
  | cons hfront hback ih =>
    rw [List.length_cons, readListFrom, List.append_assoc, hfront.during]
    dsimp only
    rw [ih]
    simp [Nat.add_assoc]

theorem checkAll_eq_ok_iff {frames : List StackMapFrame} :
    checkAll frames = .ok () ↔ ∀ frame ∈ frames, frame.frame.check = .ok () := by
  induction frames with
  | nil => simp [checkAll]
  | cons frame frames ih =>
    rw [List.forall_mem_cons, ← ih]
    constructor
    · intro hcheck
      obtain ⟨⟨⟩, hframe, hframes⟩ := Result.exists_of_bind hcheck
      exact ⟨hframe, hframes⟩
    · rintro ⟨hframe, hframes⟩
      exact Result.bind_of_ok hframe hframes

instance (frames : List StackMapFrame) : Lawful (writeList frames) := by
  unfold writeList
  infer_instance

theorem encodes_writeList (frames : List StackMapFrame) :
    Encodes (writeList frames) readList frames := by
  intro pool bytes final hrun
  obtain ⟨⟨⟩, between, hcheck, hwrite⟩ := exists_of_run_bind hrun
  have hframes : checkAll frames = .ok () := congrArg Prod.fst hcheck
  rw [checkAll_eq_ok_iff] at hframes
  intro later hlater hvalid
  obtain ⟨contents, rfl, hlt, hmany⟩ :=
    yields_writeList (fun frame hmem => encodes_write (hframes frame hmem)) between bytes final
      hwrite later hlater hvalid
  refine .bind (.count16 hlt) ?_
  rw [UInt16.toNat_ofNat_of_lt' hlt]
  intro position rest
  exact readListFrom_of_readsMany hmany 0 [] position rest

end StackMapFrame

end JvmClass
