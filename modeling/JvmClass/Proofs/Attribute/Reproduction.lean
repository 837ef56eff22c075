import JvmClass.Proofs.Attribute.Codec
import JvmClass.Proofs.Attribute.Restoring

/-!
# Attributes are reproduced byte for byte

An attribute that was parsed is written back as the bytes it was parsed from, by a pool in which no
constant is twice. The bytes say more than the value does in two places only: a stack map frame may
be stored in a longer form than it needs, and code may hold two attributes that have to be distinct.
The first is excluded by what the bytes hold, and is said by readers that keep what the value drops:
the tags of frames, and the contents of the attributes inside code. On the second, writing fails.
-/

namespace JvmClass

open PoolM

/-! ### Reading the same bytes in another way -/

namespace Reader

variable {α β γ δ : Type}

theorem Spells.of_all {reader : Reader α} {spelling : α → Bytes → Prop} {contents : Bytes}
    {value : α} {rest : Input} (hreader : reader.Spells spelling)
    (hread : reader (Input.ofBytes contents) = .ok (value, rest)) (hrest : rest.rest = []) :
    spelling value contents := by
  obtain ⟨bytes, hinput, -, hspelling⟩ := hreader _ value rest hread
  have hcontents : contents = bytes ++ rest.rest := congrArg Input.rest hinput
  rw [hcontents, hrest, List.append_nil]
  exact hspelling

theorem Spells.remainder : Reader.remainder.Spells Eq := by
  intro input value rest hread
  cases hread
  exact ⟨input.rest, by rw [List.append_nil], rfl, rfl⟩

/-- Where the one reader makes a value, the other makes a related one, and leaves the same. -/
def Follows (reader : Reader α) (other : Reader β) (related : α → β → Prop) : Prop :=
  ∀ input value rest, reader input = .ok (value, rest) →
    ∃ image, other input = .ok (image, rest) ∧ related value image

namespace Follows

theorem bind {reader : Reader α} {other : Reader β} {next : α → Reader γ} {after : β → Reader δ}
    {first : α → β → Prop} {second : γ → δ → Prop} (hreader : reader.Follows other first)
    (hnext : ∀ value image, first value image → (next value).Follows (after image) second) :
    (reader >>= next).Follows (other >>= after) second := by
  intro input result rest hread
  obtain ⟨value, between, hvalue, hresult⟩ := exists_of_bind hread
  obtain ⟨image, himage, hfirst⟩ := hreader input value between hvalue
  obtain ⟨last, hlast, hsecond⟩ := hnext value image hfirst between result rest hresult
  refine ⟨last, ?_, hsecond⟩
  change (other input >>= fun found => after found.1 found.2) = _
  rw [himage]
  exact hlast

theorem afterLift {result : Except Error α} {next : α → Reader β} {other : Reader γ}
    {related : β → γ → Prop}
    (hnext : ∀ value, result = .ok value → (next value).Follows other related) :
    (liftM result >>= next).Follows other related := by
  cases result with
  | error error =>
    intro input value rest hread
    cases hread
  | ok value => exact hnext value rfl

theorem pure {value : α} {image : β} {related : α → β → Prop} (hrelated : related value image) :
    (Pure.pure value : Reader α).Follows (Pure.pure image) related := by
  intro input found rest hread
  cases hread
  exact ⟨image, rfl, hrelated⟩

theorem refl (reader : Reader α) : reader.Follows reader Eq :=
  fun _ value _ hread => ⟨value, hread, rfl⟩

theorem many {reader : Reader α} {other : Reader β} {related : α → β → Prop}
    (hreader : reader.Follows other related) (count : Nat) :
    (Reader.many count reader).Follows (Reader.many count other) (List.Forall₂ related) := by
  have hfrom : ∀ (found : List α) (images : List β), List.Forall₂ related found images →
      Follows (manyFrom reader count found) (manyFrom other count images)
        (List.Forall₂ related) := by
    induction count with
    | zero =>
      intro found images hfound input values rest hread
      cases hread
      exact ⟨images.reverse, rfl, List.rel_reverse hfound⟩
    | succ count ih =>
      intro found images hfound
      rw [manyFrom_succ, manyFrom_succ]
      exact hreader.bind fun value image hvalue => ih _ _ (.cons hvalue hfound)
  exact hfrom [] [] .nil

theorem list16 {reader : Reader α} {other : Reader β} {related : α → β → Prop}
    (hreader : reader.Follows other related) :
    (Reader.list16 reader).Follows (Reader.list16 other) (List.Forall₂ related) := by
  apply (refl Reader.uint16).bind
  rintro count _ rfl
  exact hreader.many count.toNat

end Follows

end Reader

/-! ### Stack map tables -/

namespace StackMapFrame

instance (tag : UInt8) (frame : StackMapFrame) : Decidable (IsLoose tag frame) :=
  inferInstanceAs (Decidable (_ ∧ _))

def readTagged (pool : Pool) : Reader (UInt8 × StackMapFrame) := fun input => do
  let (tag, _) ← Reader.uint8 input
  let (frame, rest) ← read pool input
  return ((tag, frame), rest)

def taggedIn (pool : Pool) (contents : Bytes) : List (UInt8 × StackMapFrame) :=
  match Reader.list16 (readTagged pool) (Input.ofBytes contents) with
  | .ok (frames, _) => frames
  | .error _ => []

/-- No frame of the table is in a longer form than it needs. -/
def IsTight (pool : Pool) (contents : Bytes) : Prop :=
  ∀ tagged ∈ taggedIn pool contents, ¬ IsLoose tagged.1 tagged.2

instance (pool : Pool) (contents : Bytes) : Decidable (IsTight pool contents) :=
  inferInstanceAs (Decidable (∀ tagged ∈ _, _))

variable {pool : Pool}

theorem read_follows :
    (read pool).Follows (readTagged pool) fun frame tagged => frame = tagged.2 := by
  intro input frame rest hread
  obtain ⟨tag, between, htag, -⟩ := Reader.exists_of_bind hread
  refine ⟨(tag, frame), ?_, rfl⟩
  unfold readTagged
  rw [htag, hread]
  rfl

/-- The index of a frame shows in errors only. -/
theorem readListFrom_follows (index missing : Nat) (found : List StackMapFrame) :
    Reader.Follows (readListFrom pool index missing found)
      (Reader.manyFrom (read pool) missing found) Eq := by
  induction missing generalizing index found with
  | zero => exact .refl (Reader.manyFrom (read pool) 0 found)
  | succ missing ih =>
    intro input frames rest hread
    rw [readListFrom] at hread
    split at hread
    · rename_i frame between hframe
      rw [Reader.manyFrom, Result.during_eq_ok_iff.1 hframe]
      exact ih (index + 1) (frame :: found) between frames rest hread
    · cases hread

theorem readList_follows :
    (readList pool).Follows (Reader.list16 (readTagged pool))
      (List.Forall₂ fun frame tagged => frame = tagged.2) := by
  intro input frames rest hread
  obtain ⟨count, between, hcount, hframes⟩ := Reader.exists_of_bind hread
  obtain ⟨_, hmany, rfl⟩ := readListFrom_follows 0 count.toNat [] between frames rest hframes
  refine read_follows.list16 input frames rest ?_
  change (Reader.uint16 input >>= fun found => Reader.many found.1.toNat (read pool) found.2) = _
  rw [hcount]
  exact hmany

theorem spells_readTagged (hpool : pool.FindsAll) :
    (readTagged pool).Spells fun tagged bytes => tagged.2.frame.check = .ok () ∧
      (¬ IsLoose tagged.1 tagged.2 → Gives pool tagged.2.write bytes) := by
  intro input tagged rest hread
  obtain ⟨⟨tag, between⟩, htag, hrest⟩ := Result.exists_of_bind hread
  obtain ⟨⟨frame, after⟩, hframe, hpair⟩ := Result.exists_of_bind hrest
  cases hpair
  obtain ⟨_, hinput, hposition, first, others, rfl, hcheck, hwrite⟩ :=
    spells_read hpool input frame rest hframe
  obtain ⟨_, hfirst, -, rfl⟩ := Reader.Spells.uint8 input tag between htag
  have hheads := congrArg (fun input => input.rest.head?) (hinput.symm.trans hfirst)
  obtain rfl : first = tag := Option.some.inj hheads
  exact ⟨_, hinput, hposition, hcheck, hwrite⟩

end StackMapFrame

/-- Values that were read as others, each of which stands for a part of the bytes. -/
private theorem forall₂_trans {α β γ : Type} {first : α → β → Prop} {second : β → γ → Prop}
    {target : α → γ → Prop} {values : List α} {images : List β} {parts : List γ}
    (hvalues : List.Forall₂ first values images) (hparts : List.Forall₂ second images parts)
    (htarget : ∀ value, ∀ image ∈ images, ∀ part, first value image → second image part →
      target value part) : List.Forall₂ target values parts := by
  induction hvalues generalizing parts with
  | nil =>
    cases hparts
    exact .nil
  | cons hvalue _ ih =>
    cases hparts with
    | cons hpart hparts =>
      refine .cons (htarget _ _ List.mem_cons_self _ hvalue hpart) (ih hparts ?_)
      exact fun value image hmem => htarget value image (List.mem_cons_of_mem _ hmem)

namespace StackMapFrame

variable {pool : Pool}

theorem gives_writeList (hpool : pool.FindsAll) {contents : Bytes} {frames : List StackMapFrame}
    {rest : Input} (hread : readList pool (Input.ofBytes contents) = .ok (frames, rest))
    (hrest : rest.rest = []) (htight : IsTight pool contents) :
    Gives pool (writeList frames) contents := by
  obtain ⟨tagged, htagged, hframes⟩ := readList_follows _ _ _ hread
  have hin : taggedIn pool contents = tagged := by
    unfold taggedIn
    rw [htagged]
  obtain ⟨parts, hparts, hlt, rfl⟩ := (spells_readTagged hpool).list16Parts.of_all htagged hrest
  have hwrites : List.Forall₂ (fun frame part => frame.frame.check = .ok () ∧
      Gives pool frame.write part) frames parts := by
    apply forall₂_trans hframes hparts
    rintro _ tagged hmem part rfl ⟨hcheck, hwrite⟩
    rw [← hin] at hmem
    exact ⟨hcheck, hwrite (htight tagged hmem)⟩
  obtain ⟨hcheck, hwrite⟩ := (List.forall₂_and_left frames parts).1 hwrites
  rw [← hframes.length_eq] at hlt ⊢
  exact .bind (.lift (checkAll_eq_ok_iff.2 hcheck)) (PoolM.gives_writeList hlt hwrite)

end StackMapFrame

/-! ### Contents -/

theorem AttributeKind.text_of_ofName? {name : Text} {kind : AttributeKind}
    (hname : ofName? name = some kind) : kind.text = name := by
  obtain ⟨before, after, hsplit, -⟩ := List.lookup_eq_some_iff.1 hname
  have hmem : (name, kind) ∈ byName := by
    rw [hsplit]
    exact List.mem_append_right _ List.mem_cons_self
  obtain ⟨_, -, hpair⟩ := List.mem_map.1 hmem
  cases hpair
  rfl

namespace AttributeValue

variable {pool : Pool} {inner : Reader (List Attribute)}

theorem ensures_kind (kind : AttributeKind) :
    (readContents pool inner kind).Ensures fun value => value.kind? = some kind := by
  cases kind with
  | synthetic | deprecated => exact .pure rfl
  | constantValue => exact .last fun _ => .last fun _ => .pure rfl
  | _ => exact .last fun _ => .pure rfl

private theorem restores_making {α : Type} {reader : Reader α} (make : α → AttributeValue)
    (hreader : Restores pool reader fun value => (make value).writeContents) :
    Restores pool (reader >>= fun value => pure (make value)) writeContents := by
  apply Reader.Spells.bind hreader
  intro value bytes hbytes
  refine .pure ?_
  rw [List.append_nil]
  exact hbytes

/-- All contents but code and stack map tables say no more than their values do. -/
theorem restores_readContents (hpool : pool.FindsAll) {kind : AttributeKind}
    (hcode : kind ≠ .code) (hframes : kind ≠ .stackMapTable) :
    Restores pool (readContents pool inner kind) writeContents := by
  have hclass : Restores pool (Reader.className pool) writeClass :=
    restores_writeIndex hpool.finds_class
  have hutf8 : Restores pool (Reader.utf8 pool) writeUtf8 :=
    restores_writeIndex hpool.finds_utf8
  cases kind with
  | code => exact absurd rfl hcode
  | stackMapTable => exact absurd rfl hframes
  | constantValue =>
    apply hpool.finds_constantValue.spells_bind
    intro value index hput
    rw [← List.append_nil (Bytes.ofUInt16 index)]
    exact .pure (hput.map Bytes.ofUInt16)
  | synthetic | deprecated => exact .pure (.pure rfl)
  | sourceDebugExtension =>
    apply Reader.Spells.bind Reader.Spells.remainder
    rintro value _ rfl
    exact .pure (.pure (List.append_nil _).symm)
  | exceptions => exact restores_making .exceptions hclass.list16
  | innerClasses =>
    exact restores_making .innerClasses (InnerClass.restores_write hpool).list16
  | enclosingMethod =>
    exact restores_making .enclosingMethod (EnclosingMethod.restores_write hpool)
  | signature => exact restores_making .signature hutf8
  | sourceFile => exact restores_making .sourceFile hutf8
  | lineNumberTable => exact restores_making .lineNumberTable LineNumber.restores_write.list16
  | localVariableTable =>
    exact restores_making .localVariableTable (LocalVariable.restores_write hpool).list16
  | localVariableTypeTable =>
    exact restores_making .localVariableTypeTable (LocalVariable.restores_write hpool).list16
  | runtimeVisibleAnnotations =>
    exact restores_making .runtimeVisibleAnnotations (AnnotationUse.restores_readList hpool)
  | runtimeInvisibleAnnotations =>
    exact restores_making .runtimeInvisibleAnnotations (AnnotationUse.restores_readList hpool)
  | runtimeVisibleParameterAnnotations =>
    exact restores_making .runtimeVisibleParameterAnnotations
      (ParameterAnnotations.restores_read hpool)
  | runtimeInvisibleParameterAnnotations =>
    exact restores_making .runtimeInvisibleParameterAnnotations
      (ParameterAnnotations.restores_read hpool)
  | annotationDefault =>
    exact restores_making .annotationDefault (ElementValue.restores_read hpool)
  | bootstrapMethods =>
    exact restores_making .bootstrapMethods (BootstrapMethod.restores_write hpool).list16
  | methodParameters =>
    exact restores_making .methodParameters (MethodParameter.restores_write hpool).list8
  | nestHost => exact restores_making .nestHost hclass
  | nestMembers => exact restores_making .nestMembers hclass.list16
  | permittedSubclasses => exact restores_making .permittedSubclasses hclass.list16

end AttributeValue

namespace Attribute

variable {pool : Pool} {inner : Reader (List Attribute)} {scope : Scope} {name : Text}
  {contents : Bytes} {value : AttributeValue}

theorem cases_of_parseWith (hparse : parseWith pool inner scope name contents = .ok value) :
    (kindIn? scope name = none ∧ value = .unknown contents) ∨
      ∃ kind rest, kindIn? scope name = some kind ∧ rest.rest = [] ∧
        AttributeValue.readContents pool inner kind (Input.ofBytes contents) =
          .ok (value, rest) := by
  unfold parseWith at hparse
  split at hparse
  · rename_i hkind
    cases hparse
    exact .inl ⟨hkind, rfl⟩
  · rename_i kind hkind
    split at hparse
    · cases hparse
    · rename_i found rest hread
      split at hparse
      · rename_i hrest
        cases hparse
        exact .inr ⟨kind, rest, hkind, List.isEmpty_iff.1 hrest, hread⟩
      · cases hparse

theorem check_of_parseWith (hparse : parseWith pool inner scope name contents = .ok value) :
    check scope name value = .ok () := by
  obtain ⟨-, rfl⟩ | ⟨kind, rest, hkind, -, hread⟩ := cases_of_parseWith hparse
  · rfl
  · obtain ⟨hname, hallowed⟩ := Option.filter_eq_some_iff.1 hkind
    have htext := AttributeKind.text_of_ofName? hname
    unfold check
    rw [AttributeValue.ensures_kind kind _ value rest hread]
    simp [htext, hallowed]

theorem gives_writeContents (hpool : pool.FindsAll)
    (hparse : parseWith pool inner scope name contents = .ok value)
    (hframes : kindIn? scope name = some .stackMapTable → StackMapFrame.IsTight pool contents)
    (hcode : ∀ code rest, value = .code code → kindIn? scope name = some .code →
      CodeAttribute.readWith pool inner (Input.ofBytes contents) = .ok (code, rest) →
        rest.rest = [] → Gives pool code.write contents) :
    Gives pool value.writeContents contents := by
  obtain ⟨-, rfl⟩ | ⟨kind, rest, hkind, hrest, hread⟩ := cases_of_parseWith hparse
  · exact .pure rfl
  by_cases hiscode : kind = .code
  · subst hiscode
    obtain ⟨code, between, hcontents, hpure⟩ := Reader.exists_of_bind hread
    cases hpure
    rw [AttributeValue.writeContents]
    exact hcode code rest rfl hkind hcontents hrest
  by_cases hisframes : kind = .stackMapTable
  · subst hisframes
    obtain ⟨frames, between, hcontents, hpure⟩ := Reader.exists_of_bind hread
    cases hpure
    exact StackMapFrame.gives_writeList hpool hcontents hrest (hframes hkind)
  · exact (AttributeValue.restores_readContents hpool hiscode hisframes).of_all hread hrest

end Attribute

/-! ### The attributes inside code -/

namespace Attribute

variable {pool : Pool}

def readStored (pool : Pool) : Reader (Text × Bytes) := do
  let name ← Reader.utf8 pool
  let length ← Reader.uint32
  let contents ← Reader.bytes length.toNat
  return (name, contents)

/-- What an attribute was made of. -/
def IsMadeOf (pool : Pool) (inner : Reader (List Attribute)) (scope : Scope) (item : Attribute)
    (stored : Text × Bytes) : Prop :=
  item.name = stored.1 ∧ parseWith pool inner scope stored.1 stored.2 = .ok item.value

theorem readWith_follows (inner : Reader (List Attribute)) (scope : Scope) :
    (readWith pool inner scope).Follows (readStored pool) (IsMadeOf pool inner scope) := by
  apply (Reader.Follows.refl (Reader.utf8 pool)).bind
  rintro name _ rfl
  apply (Reader.Follows.refl Reader.uint32).bind
  rintro length _ rfl
  have hbytes : (Reader.during (.attributeBytes length.toNat name)
      (Reader.bytes length.toNat)).Follows (Reader.bytes length.toNat) Eq :=
    fun input contents rest hread => ⟨contents, Result.during_eq_ok_iff.1 hread, rfl⟩
  apply hbytes.bind
  rintro contents _ rfl
  apply Reader.Follows.afterLift
  intro value hvalue
  exact .pure ⟨rfl, Result.during_eq_ok_iff.1 hvalue⟩

theorem spells_readStored (hpool : pool.FindsAll) :
    (readStored pool).Spells fun stored bytes => ∀ scope value,
      check scope stored.1 value = .ok () → Gives pool value.writeContents stored.2 →
        Gives pool (Attribute.write scope ⟨stored.1, value⟩) bytes := by
  apply Reader.Spells.bind hpool.finds_utf8.spells
  rintro name _ ⟨index, rfl, hname⟩
  apply Reader.Spells.bind .uint32
  rintro length _ rfl
  apply Reader.Spells.bind (.bytes length.toNat)
  rintro contents _ ⟨rfl, hlength⟩
  refine .pure fun scope value hcheck hcontents => ?_
  have hcount : Bytes.ofCount 4 contents.length = .ok (Bytes.ofUInt32 length) := by
    rw [hlength]
    exact ofCount_eq_ok_iff.2 ⟨length.toNat_lt, rfl⟩
  have henvelope : Gives pool (writeEnvelope name contents)
      (Bytes.ofUInt16 index ++ Bytes.ofUInt32 length ++ contents) :=
    .bind hname (.bind (.lift (Result.during_eq_ok_iff.2 hcount)) (.pure rfl))
  rw [Attribute.write]
  simpa using Gives.bind (.during _ (.bind (.lift hcheck) hcontents)) henvelope

end Attribute

namespace CodeAttribute

variable {pool : Pool}

/-- Code is read up to the attributes inside it, and then they are. -/
theorem readWith_eq (attributes : Reader (List Attribute)) :
    readWith pool attributes = do
      let head ← readWith pool (pure [])
      return { head with attributes := ← attributes } := by
  unfold readWith
  simp only [bind_assoc, pure_bind]
  refine congrArg _ (funext fun maxStack => congrArg _ (funext fun maxLocals => ?_))
  refine congrArg _ (funext fun length => ?_)
  split <;> simp only [bind_assoc, pure_bind]

theorem restores_writeHead (hpool : pool.FindsAll) :
    Restores pool (readWith pool (pure [])) writeHead := by
  apply Reader.Spells.bind .uint16
  rintro maxStack _ rfl
  apply Reader.Spells.bind .uint16
  rintro maxLocals _ rfl
  apply Reader.Spells.bind .uint32
  rintro length _ rfl
  dsimp only
  split
  · have hfail : (Reader.fail (.codeLengthOutOfBounds length.toNat) : Reader PUnit).Spells
        fun _ _ => False := .fail
    exact hfail.bind fun _ _ hfalse => hfalse.elim
  · rename_i hbounds
    apply Reader.Spells.bind (.bytes length.toNat)
    rintro code _ ⟨rfl, hlength⟩
    apply Reader.Spells.bind (.during _ (ExceptionEntry.restores_write hpool).list16)
    intro exceptionTable bytes hbytes
    have hcheck : checkLength code = .ok () := by
      rw [← hlength, Bool.not_eq_true, Bool.or_eq_false_iff] at hbounds
      unfold checkLength
      rw [if_neg, if_neg]
      · simpa using hbounds.2
      · simpa using hbounds.1
    have hcount : Bytes.ofCount 4 code.length = .ok (Bytes.ofUInt32 length) := by
      rw [hlength]
      exact ofCount_eq_ok_iff.2 ⟨length.toNat_lt, rfl⟩
    refine .pure (.bind (.lift hcheck) (.bind (.lift hcount) (.bind (.during _ hbytes) ?_)))
    exact .pure (by simp)

def readStored (pool : Pool) : Reader (List (Text × Bytes)) := do
  let _ ← readWith pool (pure [])
  Reader.list16 (Attribute.readStored pool)

/-- The attributes inside the code that some contents stand for, as they are stored. -/
def storedIn (pool : Pool) (contents : Bytes) : List (Text × Bytes) :=
  match readStored pool (Input.ofBytes contents) with
  | .ok (stored, _) => stored
  | .error _ => []

theorem storedIn_eq {contents : Bytes} {head : CodeAttribute} {between rest : Input}
    {stored : List (Text × Bytes)}
    (hhead : readWith pool (pure []) (Input.ofBytes contents) = .ok (head, between))
    (hstored : Reader.list16 (Attribute.readStored pool) between = .ok (stored, rest)) :
    storedIn pool contents = stored := by
  have hall : readStored pool (Input.ofBytes contents) = .ok (stored, rest) := by
    change (readWith pool (pure []) (Input.ofBytes contents) >>= fun found =>
      Reader.list16 (Attribute.readStored pool) found.2) = _
    rw [hhead]
    exact hstored
  unfold storedIn
  rw [hall]

end CodeAttribute

namespace Attribute

variable {pool : Pool}

theorem gives_writeList {scope : Scope} {attributes : List Attribute} {parts : List Bytes}
    (hdistinct : checkDistinct scope [] attributes = .ok ())
    (hlt : attributes.length < 256 ^ 2)
    (hparts : List.Forall₂ (fun item part => Gives pool (write scope item) part)
      attributes parts) :
    Gives pool (writeList scope attributes)
      (Bytes.bigEndian 2 attributes.length ++ parts.flatten) := by
  have hcount : writeCount scope attributes = .ok (Bytes.bigEndian 2 attributes.length) :=
    Result.bind_of_ok hdistinct (Result.during_eq_ok_iff.2 (ofCount_eq_ok_iff.2 ⟨hlt, rfl⟩))
  unfold writeList
  rw [mk_writeFrom]
  exact .bind (.lift hcount) (.bind (gives_writeAll hparts) (.pure rfl))

theorem kindIn?_codeScope_ne_code (name : Text) : kindIn? .codeScope name ≠ some .code := by
  intro hkind
  obtain ⟨-, hallowed⟩ := Option.filter_eq_some_iff.1 hkind
  exact absurd hallowed (by decide)

theorem gives_write_inner (hpool : pool.FindsAll) {item : Attribute} {stored : Text × Bytes}
    {part : Bytes} (hmade : IsMadeOf pool (pure []) .codeScope item stored)
    (hframes : kindIn? .codeScope stored.1 = some .stackMapTable →
      StackMapFrame.IsTight pool stored.2)
    (hpart : ∀ scope value, check scope stored.1 value = .ok () →
      Gives pool value.writeContents stored.2 →
        Gives pool (write scope ⟨stored.1, value⟩) part) :
    Gives pool (item.write .codeScope) part := by
  obtain ⟨name, value⟩ := item
  obtain ⟨rfl, hparse⟩ := hmade
  apply hpart .codeScope value (check_of_parseWith hparse)
  apply gives_writeContents hpool hparse hframes
  intro code rest _ hkind
  exact absurd hkind (kindIn?_codeScope_ne_code _)

end Attribute

namespace CodeAttribute

variable {pool : Pool}

/-- Code is written back in two parts, of which the second is read once more as stored attributes:
the values of the attributes do not say what is in the tables among them. -/
theorem gives_write (hpool : pool.FindsAll) {contents : Bytes} {code : CodeAttribute}
    {rest : Input}
    (hread : readWith pool (Attribute.readInner pool) (Input.ofBytes contents) = .ok (code, rest))
    (hrest : rest.rest = [])
    (hdistinct : Attribute.checkDistinct .codeScope [] code.attributes = .ok ())
    (htight : ∀ stored ∈ storedIn pool contents,
      Attribute.kindIn? .codeScope stored.1 = some .stackMapTable →
        StackMapFrame.IsTight pool stored.2) :
    Gives pool code.write contents := by
  rw [readWith_eq] at hread
  obtain ⟨head, between, hhead, htail⟩ := Reader.exists_of_bind hread
  obtain ⟨attributes, after, hattributes, hpure⟩ := Reader.exists_of_bind htail
  cases hpure
  obtain ⟨stored, hstored, hmade⟩ :=
    (Attribute.readWith_follows (pure []) .codeScope).list16 between attributes rest hattributes
  have hin := storedIn_eq hhead hstored
  obtain ⟨front, hinput, -, hfront⟩ := restores_writeHead hpool _ head between hhead
  obtain ⟨_, hbetween, -, parts, hparts, hlt, rfl⟩ :=
    (Attribute.spells_readStored hpool).list16Parts between stored rest hstored
  have hwrites : List.Forall₂ (fun item part => Gives pool (Attribute.write .codeScope item) part)
      attributes parts := by
    apply forall₂_trans hmade hparts
    intro item stored hmem part hitem hpart
    rw [← hin] at hmem
    exact Attribute.gives_write_inner hpool hitem (htight stored hmem) hpart
  have hcontents : contents = front ++ between.rest := congrArg Input.rest hinput
  have hback := congrArg Input.rest hbetween
  dsimp only at hback
  rw [hcontents, hback, hrest, List.append_nil, write_eq, ← hmade.length_eq]
  rw [← hmade.length_eq] at hlt
  exact .bind hfront (.bind (Attribute.gives_writeList hdistinct hlt hwrites) (.pure rfl))

end CodeAttribute

/-! ### Main result -/

namespace Attribute

def stackMapTables (pool : Pool) (scope : Scope) (name : Text) (contents : Bytes) : List Bytes :=
  match kindIn? scope name with
  | some .stackMapTable => [contents]
  | some .code =>
    ((CodeAttribute.storedIn pool contents).filter fun stored =>
      kindIn? .codeScope stored.1 == some .stackMapTable).map Prod.snd
  | _ => []

theorem checkDistinct_of_run {pool after : Pool} {scope : Scope} {name : Text} {written : Bytes}
    {code : CodeAttribute}
    (hrun : (writeValue scope name (.code code)).run pool = (.ok written, after)) :
    checkDistinct .codeScope [] code.attributes = .ok () := by
  obtain ⟨_, _, -, hcontents⟩ := exists_of_run_bind hrun
  rw [AttributeValue.writeContents, CodeAttribute.write_eq] at hcontents
  obtain ⟨_, _, -, htail⟩ := exists_of_run_bind hcontents
  obtain ⟨_, _, hlist, -⟩ := exists_of_run_bind htail
  obtain ⟨count, _, hcount, -⟩ := exists_of_run_bind hlist
  obtain ⟨⟨⟩, hdistinct, -⟩ := Result.exists_of_bind (congrArg Prod.fst hcount)
  exact hdistinct

theorem gives_writeValue {pool : Pool} {scope : Scope} {name : Text} {contents : Bytes}
    {value : AttributeValue} (hpool : pool.FindsAll)
    (hparse : parse pool scope name contents = .ok value)
    (htight : ∀ table ∈ stackMapTables pool scope name contents, StackMapFrame.IsTight pool table)
    (hdistinct : ∀ code, value = .code code →
      checkDistinct .codeScope [] code.attributes = .ok ()) :
    Gives pool (writeValue scope name value) contents := by
  apply Gives.bind (.lift (check_of_parseWith hparse))
  apply gives_writeContents hpool hparse
  · intro hkind
    apply htight contents
    simp [stackMapTables, hkind]
  · intro code rest hvalue hkind hread hrest
    apply CodeAttribute.gives_write hpool hread hrest (hdistinct code hvalue)
    intro stored hmem hstored
    apply htight stored.2
    simp only [stackMapTables, hkind]
    exact List.mem_map_of_mem (List.mem_filter.2 ⟨hmem, beq_iff_eq.2 hstored⟩)

/-- Contents that were parsed are written back byte for byte, and with no new constants: whatever is
written is what was parsed, and only attributes inside code that are not distinct keep anything from
being written. -/
theorem run_writeValue_of_parse {pool : Pool} {scope : Scope} {name : Text} {contents : Bytes}
    {value : AttributeValue} (hreachable : pool.Reachable) (honce : pool.HoldsOnce)
    (hparse : parse pool scope name contents = .ok value)
    (htight : ∀ table ∈ stackMapTables pool scope name contents,
      StackMapFrame.IsTight pool table) :
    (∀ written after, (writeValue scope name value).run pool = (.ok written, after) →
      written = contents ∧ after = pool) ∧
    ((∀ code, value = .code code → checkDistinct .codeScope [] code.attributes = .ok ()) →
      (writeValue scope name value).run pool = (.ok contents, pool)) := by
  have hpool : pool.FindsAll := hreachable.built.valid.findsAll honce
  constructor
  · intro written after hrun
    have hdistinct : ∀ code, value = .code code →
        checkDistinct .codeScope [] code.attributes = .ok () := by
      intro code hvalue
      rw [hvalue] at hrun
      exact checkDistinct_of_run hrun
    cases hrun.symm.trans (gives_writeValue hpool hparse htight hdistinct)
    exact ⟨rfl, rfl⟩
  · exact gives_writeValue hpool hparse htight

/-- A pool with the names `Code` and `StackMapTable`, the name `A` and the class of that name. -/
def handlerEntries : Bytes :=
  [0, 5, 1, 0, 4, 67, 111, 100, 101, 1, 0, 13, 83, 116, 97, 99, 107, 77, 97, 112, 84, 97, 98, 108,
    101, 1, 0, 1, 65, 7, 0, 3]

def handlerPool : Pool :=
  match Pool.read (Input.ofBytes handlerEntries) with
  | .ok (pool, _) => pool
  | .error _ => Pool.empty

/-- Code with a handler for the class, and with a frame in each of the two short forms and each of
their long forms. -/
def handlerCode : Bytes :=
  [0, 1, 0, 1, 0, 0, 0, 1, 177, 0, 1, 0, 0, 0, 1, 0, 0, 0, 4, 0, 1, 0, 2, 0, 0, 0, 14, 0, 4, 5, 65,
    7, 0, 4, 247, 0, 64, 1, 251, 1, 0]

theorem run_writeValue_handlerCode : ∃ code,
    handlerPool.Reachable ∧ handlerPool.HoldsOnce ∧
      parse handlerPool .methodScope AttributeKind.code.text handlerCode = .ok (.code code) ∧
      stackMapTables handlerPool .methodScope AttributeKind.code.text handlerCode =
        [handlerCode.drop 27] ∧
      StackMapFrame.IsTight handlerPool (handlerCode.drop 27) ∧
      (writeValue .methodScope AttributeKind.code.text (.code code)).run handlerPool =
        (.ok handlerCode, handlerPool) := by
  have hreachable : handlerPool.Reachable :=
    ⟨handlerPool, .inr ⟨Input.ofBytes handlerEntries, _, rfl⟩, .refl⟩
  have honce : handlerPool.HoldsOnce := by decide
  have htables : stackMapTables handlerPool .methodScope AttributeKind.code.text handlerCode =
      [handlerCode.drop 27] := by decide
  have htight : StackMapFrame.IsTight handlerPool (handlerCode.drop 27) := by decide
  have hall : ∀ table ∈ stackMapTables handlerPool .methodScope AttributeKind.code.text handlerCode,
      StackMapFrame.IsTight handlerPool table := by
    rw [htables]
    simpa using htight
  obtain ⟨code, hparse, hdistinct⟩ : ∃ code,
      parse handlerPool .methodScope AttributeKind.code.text handlerCode = .ok (.code code) ∧
        checkDistinct .codeScope [] code.attributes = .ok () := ⟨_, rfl, rfl⟩
  refine ⟨code, hreachable, honce, hparse, htables, htight, ?_⟩
  apply (run_writeValue_of_parse hreachable honce hparse hall).2
  intro other hother
  cases hother
  exact hdistinct

end Attribute

end JvmClass
