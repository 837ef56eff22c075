import JvmClass.Pool

/-!
# Adding constants

Writing refers to constants by index, so it adds the ones that are missing to the pool as it goes.
`PoolM` is such a computation: it may add constants and it may fail, and what it had added before it
failed stays. A constant is added after everything it refers to, and only if an equal one is not
there yet, so equal constants always get the same index.
-/

namespace JvmClass

/-- A computation that can add constants to a pool. The pool outlives a failure. -/
abbrev PoolM := ExceptT Error (StateM Pool)

namespace PoolM

variable {α : Type}

def fail (fault : Fault) : PoolM α :=
  throw (Error.ofFault fault)

def during (activity : Activity) (action : PoolM α) : PoolM α :=
  ExceptT.mk fun pool =>
    let (result, pool) := action.run pool
    (Result.during activity result, pool)

end PoolM

/-- A method handle has to do something that its member can be used for. -/
def MethodHandle.check (handle : MethodHandle) : Except Error Unit :=
  if handle.kind.accepts handle.reference then
    .ok ()
  else
    .error (.ofFault (.handleMismatch handle))

namespace Pool

/-- Whether the constant at an index is the given one. -/
def holds (pool : Pool) (index : UInt16) (entry : Entry) : Bool :=
  match pool.slots[index.toNat]? with
  | some (.entry found _) => found == entry
  | _ => false

/-- Adds a constant at the end, if there is room for it. From then on it is remembered there. -/
def append (entry : Entry) (raw : RawEntry) : PoolM UInt16 :=
  ExceptT.mk fun pool =>
    let count := pool.count
    if count + entry.kind.width > maxCount then
      (.error (.ofFault (.poolFull entry.kind count)), pool)
    else
      let index := UInt16.ofNat count
      let ⟨slots, indices⟩ := pool
      let slots := slots.push (.entry entry raw)
      let slots := if entry.kind.isWide then slots.push .upperHalf else slots
      (.ok index, ⟨slots, indices.insert entry index⟩)

/-- The index of a constant. If it is not there yet it is added, stored the way that `register`
says; that is where what it refers to is added first. -/
def intern (entry : Entry) (register : PoolM RawEntry) : PoolM UInt16 :=
  ExceptT.mk fun pool =>
    match pool.indices[entry]? with
    | some index =>
      if pool.holds index entry then
        (.ok index, pool)
      else
        (.error (.ofFault (.misremembered entry.kind index)), pool)
    | none => (PoolM.during .addingDependencies register >>= append entry).run pool

/-! ### Constants by kind -/

def putUtf8 (text : Text) : PoolM UInt16 :=
  intern (.utf8 text) do
    let _ ← RawEntry.textBytes text
    return .utf8 text

def putInteger (value : Int32) : PoolM UInt16 :=
  intern (.integer value) (pure (.integer value))

def putFloat (bits : UInt32) : PoolM UInt16 :=
  intern (.float bits) (pure (.float bits))

def putLong (value : Int64) : PoolM UInt16 :=
  intern (.long value) (pure (.long value))

def putDouble (bits : UInt64) : PoolM UInt16 :=
  intern (.double bits) (pure (.double bits))

def putClass (name : ClassName) : PoolM UInt16 :=
  intern (.classRef name) do
    return .classRef (← putUtf8 name.text)

def putString (text : Text) : PoolM UInt16 :=
  intern (.string text) do
    return .string (← putUtf8 text)

def putNameAndType (value : NameAndType) : PoolM UInt16 :=
  intern (.nameAndType value) do
    return .nameAndType (← putUtf8 value.name) (← putUtf8 value.descriptor)

def putFieldRef (member : MemberRef) : PoolM UInt16 :=
  intern (.fieldRef member) do
    return .fieldRef (← putClass member.className) (← putNameAndType member.nameAndType)

def putMethodRef (member : MemberRef) : PoolM UInt16 :=
  intern (.methodRef member) do
    return .methodRef (← putClass member.className) (← putNameAndType member.nameAndType)

def putInterfaceMethodRef (member : MemberRef) : PoolM UInt16 :=
  intern (.interfaceMethodRef member) do
    return .interfaceMethodRef (← putClass member.className) (← putNameAndType member.nameAndType)

def putAnyMethodRef (member : MemberRef) (isInterface : Bool) : PoolM UInt16 :=
  if isInterface then putInterfaceMethodRef member else putMethodRef member

def putReference : HandleReference → PoolM UInt16
  | .field member => putFieldRef member
  | .method member => putMethodRef member
  | .interfaceMethod member => putInterfaceMethodRef member

def putMethodHandle (handle : MethodHandle) : PoolM UInt16 :=
  intern (.methodHandle handle) do
    handle.check
    return .methodHandle handle.kind.toByte (← putReference handle.reference)

def putMethodType (descriptor : Text) : PoolM UInt16 :=
  intern (.methodType descriptor) do
    return .methodType (← putUtf8 descriptor)

def putDynamic (value : DynamicRef) : PoolM UInt16 :=
  intern (.dynamic value) do
    return .dynamic value.bootstrapIndex (← putNameAndType value.nameAndType)

def putInvokeDynamic (value : DynamicRef) : PoolM UInt16 :=
  intern (.invokeDynamic value) do
    return .invokeDynamic value.bootstrapIndex (← putNameAndType value.nameAndType)

def putModule (name : Text) : PoolM UInt16 :=
  intern (.moduleRef name) do
    return .moduleRef (← putUtf8 name)

def putPackage (name : Text) : PoolM UInt16 :=
  intern (.packageRef name) do
    return .packageRef (← putUtf8 name)

/-- The index of any constant, which is added if it is missing. -/
def find : Entry → PoolM UInt16
  | .utf8 text => putUtf8 text
  | .integer value => putInteger value
  | .float bits => putFloat bits
  | .long value => putLong value
  | .double bits => putDouble bits
  | .classRef name => putClass name
  | .string text => putString text
  | .fieldRef member => putFieldRef member
  | .methodRef member => putMethodRef member
  | .interfaceMethodRef member => putInterfaceMethodRef member
  | .nameAndType value => putNameAndType value
  | .methodHandle handle => putMethodHandle handle
  | .methodType descriptor => putMethodType descriptor
  | .dynamic value => putDynamic value
  | .invokeDynamic value => putInvokeDynamic value
  | .moduleRef name => putModule name
  | .packageRef name => putPackage name

def putLoadable (value : Loadable) : PoolM UInt16 :=
  find value.toEntry

def putConstantValue (value : ConstantValue) : PoolM UInt16 :=
  find value.toEntry

/-- A reference that may be left out, which index zero stands for. -/
def putOptional {α : Type} (put : α → PoolM UInt16) : Option α → PoolM UInt16
  | some value => put value
  | none => pure 0

end Pool

end JvmClass
