import JvmClass.Bytes.Reader

/-!
# Stored entries

The constant pool as it is stored. Reading takes all entries off the input first, since an entry may
refer to a later one; resolving then follows the indices of each entry through the complete
`RawPool` to the constant it is. An index that leads nowhere, or to an entry of the wrong kind, is a
fault of the entry that holds it.
-/

namespace JvmClass

/-! ### Bytes of an entry -/

namespace RawEntry

/-- Reads what follows the tag of an entry. -/
def readContents : EntryKind → Reader RawEntry
  | .utf8 => do
    let length ← Reader.uint16
    let contents ← Reader.bytes length.toNat
    match Text.ModifiedUtf8.decode contents with
    | .ok text => return utf8 text
    | .error malformed => Reader.fail (.malformedText malformed)
  | .integer => return integer (← Reader.int32)
  | .float => return float (← Reader.uint32)
  | .long => return long (← Reader.int64)
  | .double => return double (← Reader.uint64)
  | .classRef => return classRef (← Reader.uint16)
  | .string => return string (← Reader.uint16)
  | .fieldRef => return fieldRef (← Reader.uint16) (← Reader.uint16)
  | .methodRef => return methodRef (← Reader.uint16) (← Reader.uint16)
  | .interfaceMethodRef => return interfaceMethodRef (← Reader.uint16) (← Reader.uint16)
  | .nameAndType => return nameAndType (← Reader.uint16) (← Reader.uint16)
  | .methodHandle => return methodHandle (← Reader.uint8) (← Reader.uint16)
  | .methodType => return methodType (← Reader.uint16)
  | .dynamic => return dynamic (← Reader.uint16) (← Reader.uint16)
  | .invokeDynamic => return invokeDynamic (← Reader.uint16) (← Reader.uint16)
  | .moduleRef => return moduleRef (← Reader.uint16)
  | .packageRef => return packageRef (← Reader.uint16)

def read (tag : UInt8) : Reader RawEntry :=
  match EntryKind.ofTag? tag with
  | some kind => readContents kind
  | none => Reader.fail (.unknownTag tag)

/-- The modified UTF-8 of a text, if a `Utf8` entry can hold that many bytes. -/
def textBytes (text : Text) : Except Error Bytes :=
  let bytes := Text.ModifiedUtf8.encode text
  if bytes.length < 65536 then .ok bytes else .error (.ofFault (.textTooLong bytes.length))

/-- What follows the tag of an entry. Only a text can be too long for it. -/
def contents : RawEntry → Except Error Bytes
  | utf8 text => do
    let bytes ← textBytes text
    return Bytes.bigEndian 2 bytes.length ++ bytes
  | integer value => .ok (Bytes.ofInt32 value)
  | float bits => .ok (Bytes.ofUInt32 bits)
  | long value => .ok (Bytes.ofInt64 value)
  | double bits => .ok (Bytes.ofUInt64 bits)
  | classRef name => .ok (Bytes.ofUInt16 name)
  | string text => .ok (Bytes.ofUInt16 text)
  | fieldRef owner member => .ok (Bytes.ofUInt16 owner ++ Bytes.ofUInt16 member)
  | methodRef owner member => .ok (Bytes.ofUInt16 owner ++ Bytes.ofUInt16 member)
  | interfaceMethodRef owner member => .ok (Bytes.ofUInt16 owner ++ Bytes.ofUInt16 member)
  | nameAndType name descriptor => .ok (Bytes.ofUInt16 name ++ Bytes.ofUInt16 descriptor)
  | methodHandle kind reference => .ok (kind :: Bytes.ofUInt16 reference)
  | methodType descriptor => .ok (Bytes.ofUInt16 descriptor)
  | dynamic bootstrap member => .ok (Bytes.ofUInt16 bootstrap ++ Bytes.ofUInt16 member)
  | invokeDynamic bootstrap member => .ok (Bytes.ofUInt16 bootstrap ++ Bytes.ofUInt16 member)
  | moduleRef name => .ok (Bytes.ofUInt16 name)
  | packageRef name => .ok (Bytes.ofUInt16 name)

end RawEntry

/-! ### The stored pool -/

/-- The slots of a stored pool by index. There is no entry at index zero, nor in the upper half of a
long or double. -/
structure RawPool where
  slots : Array (Option RawEntry)

namespace RawPool

/-- Reads entries until `missing` more slots are filled. -/
def readSlots : (missing : Nat) → (slots : Array (Option RawEntry)) → Input →
    Except Error (RawPool × Input)
  | 0, slots, input => .ok (⟨slots⟩, input)
  | missing + 1, slots, input =>
    match Reader.uint8 input with
    | .error error => .error error
    | .ok (tag, input) =>
      match Reader.during (.readingEntry slots.size) (RawEntry.read tag) input with
      | .error error => .error error
      | .ok (entry, input) =>
        if entry.kind.isWide then
          match missing with
          | 0 => .error (.ofFault (.missingUpperHalf slots.size))
          | missing + 1 => readSlots missing ((slots.push (some entry)).push none) input
        else
          readSlots missing (slots.push (some entry)) input

def read : Reader RawPool := do
  let count ← Reader.uint16
  if count == 0 then Reader.fail .emptyPool
  readSlots (count.toNat - 1) #[none]

def get (pool : RawPool) (index : UInt16) : Except Error RawEntry :=
  match pool.slots[index.toNat]? with
  | some (some entry) => .ok entry
  | _ => .error (.ofFault (.missingEntry index))

end RawPool

/-! ### Resolving -/

/-- The class name that a text has to be. -/
def ClassName.ofText (text : Text) : Except Error ClassName :=
  match ClassName.ofText? text with
  | some name => .ok name
  | none => .error (.ofFault (.invalidClassName text))

/-- The reference kind that a byte has to stand for. -/
def ReferenceKind.ofByte (byte : UInt8) : Except Error ReferenceKind :=
  match ReferenceKind.ofByte? byte with
  | some kind => .ok kind
  | none => .error (.ofFault (.unknownReferenceKind byte))

namespace RawEntry

variable (pool : RawPool)

/-- An entry that ought to be of another kind. -/
def wrong {α : Type} (wanted : EntryKind) (entry : RawEntry) : Except Error α :=
  .error (.ofFault (.wrongEntry wanted entry))

def asUtf8 : RawEntry → Except Error Text
  | utf8 text => .ok text
  | entry => wrong .utf8 entry

/-- The text that an index refers to. -/
def textAt (index : UInt16) : Except Error Text := do
  let entry ← pool.get index
  Result.during (.poolIndex index) entry.asUtf8

def asClassRef : RawEntry → Except Error ClassName
  | classRef nameIndex => do
    let text ← textAt pool nameIndex
    ClassName.ofText text
  | entry => wrong .classRef entry

def asNameAndType : RawEntry → Except Error NameAndType
  | nameAndType nameIndex descriptorIndex =>
    return ⟨← textAt pool nameIndex, ← textAt pool descriptorIndex⟩
  | entry => wrong .nameAndType entry

def nameAndTypeAt (index : UInt16) : Except Error NameAndType := do
  let entry ← pool.get index
  Result.during (.poolIndex index) (entry.asNameAndType pool)

/-- The member with the given class and name and type. -/
def memberAt (classIndex nameAndTypeIndex : UInt16) : Except Error MemberRef := do
  let entry ← pool.get classIndex
  let owner ← Result.during (.poolIndex classIndex) (entry.asClassRef pool)
  let member ← nameAndTypeAt pool nameAndTypeIndex
  return ⟨owner, member.name, member.descriptor⟩

def asFieldRef : RawEntry → Except Error MemberRef
  | fieldRef owner member => memberAt pool owner member
  | entry => wrong .fieldRef entry

def asMethodRef : RawEntry → Except Error MemberRef
  | methodRef owner member => memberAt pool owner member
  | entry => wrong .methodRef entry

def asInterfaceMethodRef : RawEntry → Except Error MemberRef
  | interfaceMethodRef owner member => memberAt pool owner member
  | entry => wrong .interfaceMethodRef entry

/-- A method of a class, or else one of an interface. -/
def asAnyMethodRef (entry : RawEntry) : Except Error HandleReference :=
  match entry with
  | methodRef owner member => .method <$> memberAt pool owner member
  | _ => .interfaceMethod <$> entry.asInterfaceMethodRef pool

/-- The member that a method handle of the given kind refers to. -/
def referenceAt (kind : ReferenceKind) (index : UInt16) : Except Error HandleReference := do
  let entry ← pool.get index
  match kind with
  | .getField | .getStatic | .putField | .putStatic => .field <$> entry.asFieldRef pool
  | .invokeVirtual | .newInvokeSpecial => .method <$> entry.asMethodRef pool
  | .invokeStatic | .invokeSpecial => entry.asAnyMethodRef pool
  | .invokeInterface => .interfaceMethod <$> entry.asInterfaceMethodRef pool

/-- The constant that an entry stored in the given pool is. -/
def resolve (entry : RawEntry) : Except Error Entry :=
  match entry with
  | utf8 text => .ok (.utf8 text)
  | integer value => .ok (.integer value)
  | float bits => .ok (.float bits)
  | long value => .ok (.long value)
  | double bits => .ok (.double bits)
  | classRef _ => .classRef <$> entry.asClassRef pool
  | string textIndex => .string <$> textAt pool textIndex
  | fieldRef .. => .fieldRef <$> entry.asFieldRef pool
  | methodRef .. => .methodRef <$> entry.asMethodRef pool
  | interfaceMethodRef .. => .interfaceMethodRef <$> entry.asInterfaceMethodRef pool
  | nameAndType .. => .nameAndType <$> entry.asNameAndType pool
  | methodHandle kindByte referenceIndex => do
    let kind ← ReferenceKind.ofByte kindByte
    return .methodHandle ⟨kind, ← referenceAt pool kind referenceIndex⟩
  | methodType descriptorIndex => .methodType <$> textAt pool descriptorIndex
  | dynamic bootstrapIndex memberIndex => do
    let member ← nameAndTypeAt pool memberIndex
    return .dynamic ⟨bootstrapIndex, member.name, member.descriptor⟩
  | invokeDynamic bootstrapIndex memberIndex => do
    let member ← nameAndTypeAt pool memberIndex
    return .invokeDynamic ⟨bootstrapIndex, member.name, member.descriptor⟩
  | moduleRef nameIndex => .moduleRef <$> textAt pool nameIndex
  | packageRef nameIndex => .packageRef <$> textAt pool nameIndex

end RawEntry

end JvmClass
