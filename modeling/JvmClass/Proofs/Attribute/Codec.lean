import JvmClass.Attribute.Codec
import JvmClass.Proofs.Attribute.Elements
import JvmClass.Proofs.Attribute.Rows
import JvmClass.Proofs.Pool.Room

/-!
# Attributes are read back

What is written for an attribute is read as that attribute, provided that a value which is not
understood stands under a name that is not understood either. Contents are understood by name, so
the check made on writing, that a value is under the name of its kind, is what makes reading pick
the right kind. The attributes inside code are read back first, and code itself by means of them.
-/

namespace JvmClass

open PoolM

/-! ### Kinds by name -/

theorem AttributeKind.ofName?_text (kind : AttributeKind) : ofName? kind.text = some kind := by
  cases kind <;> decide

theorem Attribute.kindIn?_text {kind : AttributeKind} {scope : Scope}
    (hallowed : kind.allowedIn scope) : kindIn? scope kind.text = some kind := by
  unfold kindIn?
  rw [AttributeKind.ofName?_text, Option.filter_some, if_pos hallowed]

/-! ### Contents -/

/-- The reader makes the value of all of the bytes. -/
def Reader.ReadsAll {α : Type} (reader : Reader α) (bytes : Bytes) (value : α) : Prop :=
  reader (Input.ofBytes bytes) = .ok (value, ⟨bytes.length, []⟩)

theorem Reader.Reads.readsAll {α : Type} {reader : Reader α} {bytes : Bytes} {value : α}
    (hreads : reader.Reads bytes value) : reader.ReadsAll bytes value := by
  have hwhole := hreads 0 []
  rwa [List.append_nil, Nat.zero_add] at hwhole

namespace AttributeValue

/-- What is written is all taken as the value. -/
def EncodesAll (write : PoolM Bytes) (read : Pool → Reader AttributeValue)
    (value : AttributeValue) : Prop :=
  Yields write fun bytes later => later.Valid → (read later).ReadsAll bytes value

private theorem encodesAll_of_encodes {α : Type} {write : PoolM Bytes} {read : Pool → Reader α}
    {value : α} (make : α → AttributeValue) (hencodes : Encodes write read value) :
    EncodesAll write (fun pool => read pool >>= fun value => pure (make value)) (make value) :=
  hencodes.mono fun _ _ hreads hvalid => (Reader.Reads.returning (hreads hvalid) rfl).readsAll

private theorem encodesAll_nil (value : AttributeValue) :
    EncodesAll (pure []) (fun _ => pure value) value :=
  .pure fun _ _ => (Reader.Reads.pure value).readsAll

/-- Contents are read back as the value of their kind, if code is. -/
theorem encodesAll_writeContents {value : AttributeValue} {kind : AttributeKind}
    {inner : Pool → Reader (List Attribute)} (hkind : value.kind? = some kind)
    (hcode : ∀ code, value = .code code →
      Encodes code.write (fun pool => CodeAttribute.readWith pool (inner pool)) code) :
    EncodesAll value.writeContents (fun pool => readContents pool (inner pool) kind) value := by
  cases value with
  | unknown bytes => cases hkind
  | constantValue constant =>
    cases hkind
    refine .map ((Pool.yields_find constant.toEntry).mono fun index later hget _ => ?_)
    refine (Reader.Reads.last (.uint16 index) ?_).readsAll
    exact .returning (.lift (Pool.constantValueAt_of_get hget)) rfl
  | code code =>
    cases hkind
    rw [writeContents]
    exact encodesAll_of_encodes .code (hcode code rfl)
  | stackMapTable frames =>
    cases hkind
    exact encodesAll_of_encodes .stackMapTable (StackMapFrame.encodes_writeList frames)
  | exceptions classes =>
    cases hkind
    exact encodesAll_of_encodes .exceptions (encodes_list16 fun name _ => encodes_writeClass name)
  | innerClasses classes =>
    cases hkind
    exact encodesAll_of_encodes .innerClasses (encodes_list16 fun row _ => row.encodes_write)
  | enclosingMethod method =>
    cases hkind
    exact encodesAll_of_encodes .enclosingMethod method.encodes_write
  | synthetic =>
    cases hkind
    exact encodesAll_nil .synthetic
  | signature text =>
    cases hkind
    exact encodesAll_of_encodes .signature (encodes_writeUtf8 text)
  | sourceFile name =>
    cases hkind
    exact encodesAll_of_encodes .sourceFile (encodes_writeUtf8 name)
  | sourceDebugExtension bytes =>
    -- These contents are whatever is there, so they are not read off the front of anything.
    cases hkind
    refine .pure fun later _ => ?_
    change Except.ok (_, Input.mk (0 + bytes.length) []) = _
    rw [Nat.zero_add]
    rfl
  | lineNumberTable lines =>
    cases hkind
    exact encodesAll_of_encodes .lineNumberTable (encodes_list16 fun row _ => row.encodes_write)
  | localVariableTable rows =>
    cases hkind
    exact encodesAll_of_encodes .localVariableTable (encodes_list16 fun row _ => row.encodes_write)
  | localVariableTypeTable rows =>
    cases hkind
    exact encodesAll_of_encodes .localVariableTypeTable
      (encodes_list16 fun row _ => row.encodes_write)
  | deprecated =>
    cases hkind
    exact encodesAll_nil .deprecated
  | runtimeVisibleAnnotations uses =>
    cases hkind
    exact encodesAll_of_encodes .runtimeVisibleAnnotations (AnnotationUse.encodes_writeList uses)
  | runtimeInvisibleAnnotations uses =>
    cases hkind
    exact encodesAll_of_encodes .runtimeInvisibleAnnotations (AnnotationUse.encodes_writeList uses)
  | runtimeVisibleParameterAnnotations parameters =>
    cases hkind
    exact encodesAll_of_encodes .runtimeVisibleParameterAnnotations parameters.encodes_write
  | runtimeInvisibleParameterAnnotations parameters =>
    cases hkind
    exact encodesAll_of_encodes .runtimeInvisibleParameterAnnotations parameters.encodes_write
  | annotationDefault value =>
    cases hkind
    exact encodesAll_of_encodes .annotationDefault value.encodes_read
  | bootstrapMethods methods =>
    cases hkind
    exact encodesAll_of_encodes .bootstrapMethods (encodes_list16 fun row _ => row.encodes_write)
  | methodParameters parameters =>
    cases hkind
    exact encodesAll_of_encodes .methodParameters (encodes_list8 fun row _ => row.encodes_write)
  | nestHost host =>
    cases hkind
    exact encodesAll_of_encodes .nestHost (encodes_writeClass host)
  | nestMembers members =>
    cases hkind
    exact encodesAll_of_encodes .nestMembers (encodes_list16 fun name _ => encodes_writeClass name)
  | permittedSubclasses subclasses =>
    cases hkind
    exact encodesAll_of_encodes .permittedSubclasses
      (encodes_list16 fun name _ => encodes_writeClass name)

end AttributeValue

/-! ### Lawful writing -/

theorem Attribute.writeFrom_eq (scope : Scope) (attributes : List Attribute)
    (written : Array UInt8) (pool : Pool) :
    Attribute.writeFrom scope attributes written pool =
      writeAllFrom (Attribute.write scope) attributes written pool := by
  induction attributes generalizing written pool with
  | nil => rw [Attribute.writeFrom, writeAllFrom]
  | cons item attributes ih =>
    rw [Attribute.writeFrom, writeAllFrom]
    rcases (item.write scope).run pool with ⟨error | bytes, after⟩
    · rfl
    · exact ih (written ++ bytes) after

theorem Attribute.mk_writeFrom (scope : Scope) (attributes : List Attribute) :
    ExceptT.mk (Attribute.writeFrom scope attributes #[]) =
      writeAll (Attribute.write scope) attributes :=
  funext (Attribute.writeFrom_eq scope attributes #[])

instance (name : Text) (contents : Bytes) : Lawful (Attribute.writeEnvelope name contents) := by
  unfold Attribute.writeEnvelope
  infer_instance

instance (code : CodeAttribute) : Lawful code.writeHead := by
  unfold CodeAttribute.writeHead
  infer_instance

mutual

theorem AttributeValue.lawful_writeContents : (value : AttributeValue) →
    Lawful value.writeContents
  | .code code => by
    unfold AttributeValue.writeContents
    exact code.lawful_write
  | .annotationDefault value => by
    unfold AttributeValue.writeContents
    infer_instance
  | .constantValue _ | .stackMapTable _ | .exceptions _ | .innerClasses _ | .enclosingMethod _
  | .synthetic | .signature _ | .sourceFile _ | .sourceDebugExtension _ | .lineNumberTable _
  | .localVariableTable _ | .localVariableTypeTable _ | .deprecated
  | .runtimeVisibleAnnotations _ | .runtimeInvisibleAnnotations _
  | .runtimeVisibleParameterAnnotations _ | .runtimeInvisibleParameterAnnotations _
  | .bootstrapMethods _ | .methodParameters _ | .nestHost _ | .nestMembers _
  | .permittedSubclasses _ | .unknown _ => by
    unfold AttributeValue.writeContents
    infer_instance

theorem CodeAttribute.lawful_write : (code : CodeAttribute) → Lawful code.write
  | ⟨maxStack, maxLocals, code, exceptionTable, attributes⟩ => by
    unfold CodeAttribute.write
    rw [Attribute.mk_writeFrom]
    have := lawful_writeAll fun inner (_ : inner ∈ attributes) =>
      inner.lawful_write .codeScope
    infer_instance

theorem Attribute.lawful_write (scope : Scope) : (item : Attribute) →
    Lawful (item.write scope)
  | ⟨name, value⟩ => by
    unfold Attribute.write
    have := value.lawful_writeContents
    infer_instance

end

instance (value : AttributeValue) : Lawful value.writeContents :=
  value.lawful_writeContents

instance (scope : Scope) (item : Attribute) : Lawful (item.write scope) :=
  item.lawful_write scope

instance (scope : Scope) (name : Text) (value : AttributeValue) :
    Lawful (Attribute.writeValue scope name value) := by
  unfold Attribute.writeValue
  infer_instance

instance (scope : Scope) (attributes : List Attribute) :
    Lawful (Attribute.writeList scope attributes) := by
  unfold Attribute.writeList
  rw [Attribute.mk_writeFrom]
  infer_instance

/-! ### Attributes -/

namespace Attribute

/-- A value that is not understood is under a name that is not understood in the scope. -/
def Unambiguous (scope : Scope) (item : Attribute) : Prop :=
  ∀ bytes, item.value = .unknown bytes → kindIn? scope item.name = none

theorem kindIn?_of_check {scope : Scope} {name : Text} {value : AttributeValue}
    {kind : AttributeKind} (hkind : value.kind? = some kind)
    (hcheck : check scope name value = .ok ()) :
    kindIn? scope name = some kind ∧ kind.text = name ∧ kind.allowedIn scope := by
  unfold check at hcheck
  rw [hkind] at hcheck
  dsimp only at hcheck
  split at hcheck
  · cases hcheck
  · rename_i hname
    split at hcheck
    · cases hcheck
    · rename_i hallowed
      have htext : kind.text = name := by simpa using hname
      have hscope : kind.allowedIn scope := by simpa using hallowed
      exact ⟨htext ▸ kindIn?_text hscope, htext, hscope⟩

theorem parseWith_of_readsAll {pool : Pool} {inner : Reader (List Attribute)} {scope : Scope}
    {name : Text} {contents : Bytes} {kind : AttributeKind} {value : AttributeValue}
    (hkind : kindIn? scope name = some kind)
    (hreads : (AttributeValue.readContents pool inner kind).ReadsAll contents value) :
    parseWith pool inner scope name contents = .ok value := by
  unfold parseWith
  rw [hkind]
  dsimp only
  rw [hreads]
  rfl

theorem yields_writeContents {scope : Scope} {item : Attribute}
    {inner : Pool → Reader (List Attribute)} (hunambiguous : item.Unambiguous scope)
    (hcode : ∀ code, item.value = .code code → item.name = AttributeKind.code.text →
      AttributeKind.code.allowedIn scope →
        Encodes code.write (fun pool => CodeAttribute.readWith pool (inner pool)) code)
    (hcheck : check scope item.name item.value = .ok ()) :
    Yields item.value.writeContents fun contents later => later.Valid →
      parseWith later (inner later) scope item.name contents = .ok item.value := by
  cases hkind : item.value.kind? with
  | none =>
    obtain ⟨name, value⟩ := item
    cases value with
    | unknown bytes =>
      refine .pure fun later _ => ?_
      unfold parseWith
      rw [hunambiguous bytes rfl]
    | _ => cases hkind
  | some kind =>
    obtain ⟨hlookUp, hname, hallowed⟩ := kindIn?_of_check hkind hcheck
    refine (AttributeValue.encodesAll_writeContents hkind ?_).mono fun contents later hreads hvalid =>
      parseWith_of_readsAll hlookUp (hreads hvalid)
    intro code hvalue
    rw [hvalue] at hkind
    cases hkind
    exact hcode code hvalue hname.symm hallowed

theorem encodes_write {scope : Scope} {item : Attribute}
    {inner : Pool → Reader (List Attribute)} (hunambiguous : item.Unambiguous scope)
    (hcode : ∀ code, item.value = .code code → item.name = AttributeKind.code.text →
      AttributeKind.code.allowedIn scope →
        Encodes code.write (fun pool => CodeAttribute.readWith pool (inner pool)) code) :
    Encodes (item.write scope) (fun pool => readWith pool (inner pool) scope) item := by
  obtain ⟨name, value⟩ := item
  unfold Attribute.write
  have hcontents : Yields (PoolM.during (.writingAttribute name scope) do
        liftM (check scope name value)
        value.writeContents) fun contents later => later.Valid →
      parseWith later (inner later) scope name contents = .ok value := by
    refine .during _ fun pool contents final hrun => ?_
    obtain ⟨⟨⟩, between, hcheck, hwrite⟩ := exists_of_run_bind hrun
    have hok : check scope name value = .ok () := congrArg Prod.fst hcheck
    exact yields_writeContents hunambiguous hcode hok between contents final hwrite
  refine .bind hcontents fun contents => ?_
  refine .bind (Pool.yields_putUtf8 name) fun nameIndex => ?_
  have hlength : ∀ bytes, Result.during (.sizingAttribute name)
        (Bytes.ofCount 4 contents.length) = .ok bytes →
      contents.length < 256 ^ 4 ∧ Bytes.bigEndian 4 contents.length = bytes := by
    intro bytes hbytes
    exact ofCount_eq_ok_iff.1 (Result.during_eq_ok_iff.1 hbytes)
  refine .bind (.lift fun bytes hbytes _ => hlength bytes hbytes) fun length => ?_
  refine .pure fun later hsize hname hparse hvalid => ?_
  obtain ⟨hlt, rfl⟩ := hsize
  rw [List.append_assoc]
  refine .bind (Reader.reads_utf8 hname) (.bind (.count32 hlt) ?_)
  rw [UInt32.toNat_ofNat_of_lt' hlt]
  refine .last (.during _ (.bytes contents)) ?_
  exact .returning (.lift (Result.during_eq_ok_iff.2 (hparse hvalid))) rfl

theorem encodes_list {scope : Scope} {attributes : List Attribute}
    {read : Pool → Reader Attribute}
    (hattributes : ∀ item ∈ attributes, Encodes (item.write scope) read item) :
    Encodes (writeList scope attributes) (fun pool => Reader.list16 (read pool)) attributes := by
  unfold writeList
  rw [mk_writeFrom]
  have hcount : ∀ bytes, writeCount scope attributes = .ok bytes →
      attributes.length < 256 ^ 2 ∧ Bytes.bigEndian 2 attributes.length = bytes := by
    intro bytes hbytes
    obtain ⟨⟨⟩, -, hbytes⟩ := Result.exists_of_bind hbytes
    exact ofCount_eq_ok_iff.1 (Result.during_eq_ok_iff.1 hbytes)
  refine .bind (.lift fun bytes hbytes _ => hcount bytes hbytes) fun count => ?_
  refine .bind (yields_writeAll hattributes) fun contents => ?_
  refine .pure fun later hcontents hcount hvalid => ?_
  obtain ⟨hlt, rfl⟩ := hcount
  exact (hcontents hvalid).list16 hlt

/-- The attributes inside code are read back; there is no code among them. -/
theorem encodes_inner {attributes : List Attribute}
    (hattributes : ∀ item ∈ attributes, item.Unambiguous .codeScope) :
    Encodes (writeList .codeScope attributes) readInner attributes := by
  refine encodes_list fun item hmem => encodes_write (hattributes item hmem) ?_
  intro code _ _ hallowed
  cases hallowed

end Attribute

/-! ### Code -/

namespace CodeAttribute

theorem write_eq (code : CodeAttribute) :
    code.write = do
      let head ← code.writeHead
      let attributes ← Attribute.writeList .codeScope code.attributes
      return head ++ attributes := by
  obtain ⟨maxStack, maxLocals, code, exceptionTable, attributes⟩ := code
  rw [write, Attribute.writeList]
  simp only [bind_assoc, pure_bind, List.append_assoc]
  rfl

theorem checkLength_eq_ok {code : Bytes} {result : Unit} (hcheck : checkLength code = .ok result) :
    code.length ≠ 0 ∧ code.length ≤ maxLength := by
  unfold checkLength at hcheck
  split at hcheck
  · cases hcheck
  · rename_i hnonempty
    split at hcheck
    · cases hcheck
    · rename_i hlength
      refine ⟨?_, Nat.le_of_not_lt hlength⟩
      intro hzero
      rw [List.length_eq_zero_iff.1 hzero] at hnonempty
      exact hnonempty rfl

/-- Bytecode with its tables is read back, if the attributes inside it can be told apart. -/
theorem encodes_write {code : CodeAttribute}
    (hattributes : ∀ item ∈ code.attributes, item.Unambiguous .codeScope) :
    Encodes code.write (fun pool => readWith pool (Attribute.readInner pool)) code := by
  rw [write_eq, writeHead]
  simp only [bind_assoc, pure_bind]
  refine .bind (.lift fun result hresult _ => checkLength_eq_ok hresult) fun _ => ?_
  refine .bind (.lift fun bytes hbytes _ => ofCount_eq_ok_iff.1 hbytes) fun length => ?_
  have hrow : ∀ entry ∈ code.exceptionTable, Encodes entry.write ExceptionEntry.read entry :=
    fun entry _ => entry.encodes_write
  refine .bind (.during _ (encodes_list16 hrow)) fun exceptionTable => ?_
  refine .bind (Attribute.encodes_inner hattributes) fun attributes => ?_
  refine .pure fun later hinner htable hsize hlength hvalid => ?_
  obtain ⟨hlt, rfl⟩ := hsize
  simp only [List.append_assoc]
  refine .bind (.uint16 code.maxStack) (.bind (.uint16 code.maxLocals) (.bind (.count32 hlt) ?_))
  rw [UInt32.toNat_ofNat_of_lt' hlt]
  have hbounds : (code.code.length == 0 || decide (maxLength < code.code.length)) = false := by
    rw [Bool.or_eq_false_iff, beq_eq_false_iff_ne, decide_eq_false_iff_not]
    exact ⟨hlength.1, Nat.not_lt.2 hlength.2⟩
  dsimp only
  rw [hbounds, if_neg Bool.false_ne_true]
  refine .bind (.bytes code.code) (.bind (.during _ (htable hvalid)) ?_)
  exact .returning (hinner hvalid) (by cases code; rfl)

end CodeAttribute

/-! ### Attributes with code among them -/

namespace Attribute

/-- All attributes of something are read back, if they can be told apart and those inside code can
be as well. -/
theorem encodes_writeList {scope : Scope} {attributes : List Attribute}
    (hattributes : ∀ item ∈ attributes, item.Unambiguous scope)
    (hinner : ∀ item ∈ attributes, ∀ code, item.value = .code code →
      item.name = AttributeKind.code.text → AttributeKind.code.allowedIn scope →
        ∀ other ∈ code.attributes, other.Unambiguous .codeScope) :
    Encodes (writeList scope attributes) (fun pool => readList pool scope) attributes := by
  refine encodes_list fun item hmem => encodes_write (hattributes item hmem) ?_
  intro code hcode hname hallowed
  exact CodeAttribute.encodes_write (hinner item hmem code hcode hname hallowed)

theorem encodes_writeList_of_not_allowed {scope : Scope} {attributes : List Attribute}
    (hattributes : ∀ item ∈ attributes, item.Unambiguous scope)
    (hallowed : AttributeKind.code.allowedIn scope = false) :
    Encodes (writeList scope attributes) (fun pool => readList pool scope) attributes := by
  refine encodes_writeList hattributes fun _ _ _ _ _ hcode => ?_
  rw [hallowed] at hcode
  cases hcode

theorem yields_check (scope : Scope) (item : Attribute) :
    Yields (item.write scope) fun _ _ => check scope item.name item.value = .ok () := by
  obtain ⟨name, value⟩ := item
  unfold Attribute.write
  intro pool bytes final hrun _ _
  obtain ⟨contents, between, hcontents, -⟩ := exists_of_run_bind hrun
  obtain ⟨⟨⟩, after, hcheck, -⟩ := exists_of_run_bind (run_of_run_during hcontents)
  exact congrArg Prod.fst hcheck

theorem yields_checkAll (scope : Scope) (attributes : List Attribute) :
    Yields (writeList scope attributes) fun _ _ =>
      ∀ item ∈ attributes, check scope item.name item.value = .ok () := by
  unfold writeList
  rw [mk_writeFrom]
  have hall : Yields (writeAll (Attribute.write scope) attributes) fun _ _ =>
      ∀ item ∈ attributes, check scope item.name item.value = .ok () := by
    induction attributes with
    | nil => exact .pure fun _ _ hmem => (List.not_mem_nil hmem).elim
    | cons item attributes ih =>
      rw [writeAll_cons]
      refine .bind (yields_check scope item) fun bytes => .bind ih fun others => ?_
      exact .pure fun later hothers hitem => List.forall_mem_cons.2 ⟨hitem, hothers⟩
  exact .after fun count => .bind hall fun contents => .pure fun later hattributes => hattributes

end Attribute

/-! ### Values under a name -/

namespace Attribute

/-- A value is parsed from all of what it is written as, in every later pool. -/
theorem yields_writeValue {scope : Scope} {name : Text} {value : AttributeValue}
    (hunambiguous : Unambiguous scope ⟨name, value⟩)
    (hinner : ∀ code, value = .code code → ∀ item ∈ code.attributes, item.Unambiguous .codeScope) :
    Yields (writeValue scope name value) fun contents later => later.Valid →
      parse later scope name contents = .ok value ∧
        ∀ kind, kindIn? scope name = some kind →
          (AttributeValue.readContents later (readInner later) kind).ReadsAll contents value := by
  intro pool contents final hrun later hlater hvalid
  obtain ⟨⟨⟩, between, hcheck, hwrite⟩ := exists_of_run_bind hrun
  have hok : check scope name value = .ok () := congrArg Prod.fst hcheck
  have hcode : ∀ code, value = .code code →
      Encodes code.write (fun pool => CodeAttribute.readWith pool (readInner pool)) code :=
    fun code hvalue => CodeAttribute.encodes_write (hinner code hvalue)
  constructor
  · exact yields_writeContents hunambiguous (fun code hvalue _ _ => hcode code hvalue) hok
      between contents final hwrite later hlater hvalid
  · intro kind hkind
    cases hheld : value.kind? with
    | none =>
      cases value with
      | unknown bytes =>
        rw [hunambiguous bytes rfl] at hkind
        cases hkind
      | _ => cases hheld
    | some held =>
      obtain rfl : held = kind := by
        have hlookUp := (kindIn?_of_check hheld hok).1
        rw [hkind] at hlookUp
        exact (Option.some.inj hlookUp).symm
      exact AttributeValue.encodesAll_writeContents hheld hcode between contents final hwrite
        later hlater hvalid

/-- **Attributes and bytes.** Whatever value is written under a name is parsed from what it is
written as, in the pool left behind and after any more calls, and reading its kind uses up exactly
those bytes. Only a value that is not understood has to be under a name that is not understood, also
among the attributes inside code. -/
theorem parse_of_writeValue {pool final : Pool} {scope : Scope} {name : Text}
    {value : AttributeValue} {bytes : Bytes} (hpool : pool.Built)
    (hunambiguous : Unambiguous scope ⟨name, value⟩)
    (hinner : ∀ code, value = .code code → ∀ item ∈ code.attributes, item.Unambiguous .codeScope)
    (hwrite : (writeValue scope name value).run pool = (.ok bytes, final)) :
    ∀ later, final.Called later →
      parse later scope name bytes = .ok value ∧
        ∀ kind, kindIn? scope name = some kind →
          (AttributeValue.readContents later (readInner later) kind).ReadsAll bytes value := by
  intro later hcalled
  have hfinal : final.Valid := valid_of_run hpool.valid hwrite
  exact yields_writeValue hunambiguous hinner pool bytes final hwrite later hcalled.extends
    (hcalled.valid hfinal)

end Attribute

/-! ### Writing with room -/

namespace Attribute

theorem succeeds_write {scope : Scope} {item : Attribute} {room size : Nat}
    (hcheck : check scope item.name item.value = .ok ())
    (hname : (Text.ModifiedUtf8.encode item.name).length < 65536) (hsize : size < 256 ^ 4)
    (hcontents : Succeeds room item.value.writeContents fun bytes => bytes.length ≤ size) :
    Succeeds (room + 1) (item.write scope) fun bytes => bytes.length ≤ size + 6 := by
  obtain ⟨name, value⟩ := item
  unfold Attribute.write
  refine (Succeeds.during _ (.afterLift hcheck hcontents)).bind fun contents hcontents => ?_
  show Succeeds (1 + 0) _ _
  refine (Succeeds.putUtf8 hname).bind fun index _ => ?_
  refine .afterLift (Result.during_eq_ok_iff.2 (ofCount_eq_ok_iff.2 ⟨by omega, rfl⟩)) (.pure ?_)
  simp only [List.length_append, Bytes.length_ofUInt16, Bytes.length_bigEndian]
  omega

theorem succeeds_writeList {scope : Scope} {attributes : List Attribute} {room size : Nat}
    (hdistinct : checkDistinct scope [] attributes = .ok ()) (hcount : attributes.length < 256 ^ 2)
    (hattributes : ∀ item ∈ attributes,
      Succeeds room (item.write scope) fun bytes => bytes.length ≤ size) :
    Succeeds (attributes.length * room) (writeList scope attributes) fun bytes =>
      bytes.length ≤ 2 + attributes.length * size := by
  have hwriteCount : writeCount scope attributes = .ok (Bytes.bigEndian 2 attributes.length) := by
    unfold writeCount
    rw [hdistinct]
    exact Result.during_eq_ok_iff.2 (ofCount_eq_ok_iff.2 ⟨hcount, rfl⟩)
  unfold writeList
  rw [mk_writeFrom]
  refine .afterLift hwriteCount ?_
  refine (Succeeds.writeAll hattributes).bind fun contents hcontents => .pure ?_
  rw [List.length_append, Bytes.length_bigEndian]
  omega
end Attribute

namespace CodeAttribute

theorem succeeds_write {code : CodeAttribute} {room size more : Nat} (hpos : code.code ≠ [])
    (hlength : code.code.length ≤ maxLength) (hcount : code.exceptionTable.length < 256 ^ 2)
    (hentries : ∀ entry ∈ code.exceptionTable,
      Succeeds room entry.write fun bytes => bytes.length ≤ 8)
    (hattributes : Succeeds more (Attribute.writeList .codeScope code.attributes) fun bytes =>
      bytes.length ≤ size) :
    Succeeds (code.exceptionTable.length * room + more) code.write fun bytes =>
      bytes.length ≤ maxLength + 10 + code.exceptionTable.length * 8 + size := by
  have hcheck : checkLength code.code = .ok () := by
    unfold checkLength
    rw [if_neg (by simpa using hpos), if_neg (Nat.not_lt.2 hlength)]
  have hlt : code.code.length < 256 ^ 4 := Nat.lt_of_le_of_lt hlength (by decide)
  rw [write_eq, writeHead]
  simp only [bind_assoc, pure_bind]
  refine .afterLift hcheck (.afterLift (ofCount_eq_ok_iff.2 ⟨hlt, rfl⟩) ?_)
  refine (Succeeds.during _ (.writeList hcount hentries)).bind fun entries hentries => ?_
  show Succeeds (more + 0) _ _
  refine hattributes.bind fun attributes hattributes => .pure ?_
  simp only [List.length_append, Bytes.length_ofUInt16, Bytes.length_bigEndian]
  omega

end CodeAttribute

/-! ### An attribute that can be written -/

namespace Attribute

/-- Code that returns at once, with an attribute in it that is not understood. -/
def returnWithNote : CodeAttribute :=
  ⟨0, 1, [0xB1], [], [⟨.ofString "Note", .unknown [7]⟩]⟩

theorem succeeds_writeValue_returnWithNote :
    Succeeds 1 (writeValue .methodScope AttributeKind.code.text (.code returnWithNote))
      fun _ => True := by
  have hnote : Succeeds 1 (Attribute.write .codeScope ⟨.ofString "Note", .unknown [7]⟩) fun bytes =>
      bytes.length ≤ 1 + 6 :=
    succeeds_write rfl (by decide) (by decide) (.pure (Nat.le_refl 1))
  have hattributes : Succeeds 1 (writeList .codeScope returnWithNote.attributes) fun bytes =>
      bytes.length ≤ 9 :=
    succeeds_writeList rfl (by simp) (List.forall_mem_singleton.2 hnote)
  have hentries : ∀ entry ∈ returnWithNote.exceptionTable,
      Succeeds 0 entry.write fun bytes => bytes.length ≤ 8 :=
    fun entry hentry => (List.not_mem_nil hentry).elim
  have hcode := CodeAttribute.succeeds_write (by decide) (by decide) (by decide) hentries hattributes
  refine .afterLift rfl fun pool hvalid hroom => ?_
  obtain ⟨bytes, final, hrun, hfinal, -⟩ := hcode pool hvalid hroom
  refine ⟨bytes, final, ?_, hfinal, trivial⟩
  rw [AttributeValue.writeContents]
  exact hrun

theorem parse_returnWithNote :
    ∃ bytes final,
      (writeValue .methodScope AttributeKind.code.text (.code returnWithNote)).run Pool.empty =
        (.ok bytes, final) ∧
      ∀ later, final.Called later →
        parse later .methodScope AttributeKind.code.text bytes = .ok (.code returnWithNote) ∧
          ∀ kind, kindIn? .methodScope AttributeKind.code.text = some kind →
            (AttributeValue.readContents later (readInner later) kind).ReadsAll bytes
              (.code returnWithNote) := by
  obtain ⟨bytes, final, hwrite, -, -⟩ :=
    succeeds_writeValue_returnWithNote Pool.empty Pool.valid_empty (by decide)
  refine ⟨bytes, final, hwrite, parse_of_writeValue .empty ?_ ?_ hwrite⟩
  · intro bytes hvalue
    cases hvalue
  · intro code hcode
    cases hcode
    refine List.forall_mem_singleton.2 fun bytes _ => ?_
    decide

end Attribute

end JvmClass
