import JvmClass.Pool.Raw
import Std.Data.HashMap

/-!
# The constant pool

A table of constants addressed by index. Index zero is never used, and a long or double also takes
the slot after its own. Next to the slots the pool remembers for each constant the first index it is
at, so a constant that is there already is found without a search. The pool only ever grows at its
end: see `JvmClass.Pool.Intern`.
-/

namespace JvmClass

inductive Slot where
  /-- Index zero. -/
  | unused
  /-- A constant, and how it is stored in this pool. -/
  | entry (entry : Entry) (raw : RawEntry)
  /-- The second slot of a long or double. -/
  | upperHalf

structure Pool where
  slots : Array Slot
  /-- The first index of each constant. -/
  indices : Std.HashMap Entry UInt16

/-- What came out of writing something, and the error that ended it if it was not finished. -/
structure Output where
  bytes : Bytes
  failure : Option Error

namespace Pool

/-- One more than the last index. -/
def count (pool : Pool) : Nat :=
  pool.slots.size

def empty : Pool :=
  ⟨#[.unused], ∅⟩

/-- Indices have sixteen bits, and the count has to as well. -/
def maxCount : Nat :=
  65535

/-- All constants with their indices, in the order of the indices. -/
def entries (pool : Pool) : List (UInt16 × Entry) :=
  pool.slots.toList.zipIdx.filterMap fun (slot, index) =>
    match slot with
    | .entry entry _ => some (UInt16.ofNat index, entry)
    | _ => none

/-! ### Looking up -/

def get (pool : Pool) (index : UInt16) : Except Error Entry :=
  match pool.slots[index.toNat]? with
  | some (.entry entry _) => .ok entry
  | some .unused => .error (.ofFault .indexZero)
  | some .upperHalf => .error (.ofFault (.upperHalf index))
  | none => .error (.ofFault (.indexOutOfBounds index pool.count))

/-- The part that `select` takes out of the constant at an index, which has to be of one of the
wanted kinds. -/
def select {α : Type} (wanted : List EntryKind) (select : Entry → Option α) (pool : Pool)
    (index : UInt16) : Except Error α := do
  let entry ← pool.get index
  match select entry with
  | some value => return value
  | none => .error (.ofFault (.unexpectedEntry wanted index entry.kind))

def utf8At : Pool → UInt16 → Except Error Text :=
  select [.utf8] fun | .utf8 text => some text | _ => none

def classAt : Pool → UInt16 → Except Error ClassName :=
  select [.classRef] fun | .classRef name => some name | _ => none

def stringAt : Pool → UInt16 → Except Error Text :=
  select [.string] fun | .string text => some text | _ => none

def integerAt : Pool → UInt16 → Except Error Int32 :=
  select [.integer] fun | .integer value => some value | _ => none

def floatAt : Pool → UInt16 → Except Error UInt32 :=
  select [.float] fun | .float bits => some bits | _ => none

def longAt : Pool → UInt16 → Except Error Int64 :=
  select [.long] fun | .long value => some value | _ => none

def doubleAt : Pool → UInt16 → Except Error UInt64 :=
  select [.double] fun | .double bits => some bits | _ => none

def nameAndTypeAt : Pool → UInt16 → Except Error NameAndType :=
  select [.nameAndType] fun | .nameAndType value => some value | _ => none

def fieldRefAt : Pool → UInt16 → Except Error MemberRef :=
  select [.fieldRef] fun | .fieldRef member => some member | _ => none

def methodRefAt : Pool → UInt16 → Except Error MemberRef :=
  select [.methodRef] fun | .methodRef member => some member | _ => none

def interfaceMethodRefAt : Pool → UInt16 → Except Error MemberRef :=
  select [.interfaceMethodRef] fun | .interfaceMethodRef member => some member | _ => none

/-- A method, and whether it is one of an interface. -/
def anyMethodRefAt : Pool → UInt16 → Except Error (MemberRef × Bool) :=
  select [.methodRef, .interfaceMethodRef] fun
    | .methodRef member => some (member, false)
    | .interfaceMethodRef member => some (member, true)
    | _ => none

def methodHandleAt : Pool → UInt16 → Except Error MethodHandle :=
  select [.methodHandle] fun | .methodHandle handle => some handle | _ => none

def methodTypeAt : Pool → UInt16 → Except Error Text :=
  select [.methodType] fun | .methodType descriptor => some descriptor | _ => none

def dynamicAt : Pool → UInt16 → Except Error DynamicRef :=
  select [.dynamic] fun | .dynamic value => some value | _ => none

def invokeDynamicAt : Pool → UInt16 → Except Error DynamicRef :=
  select [.invokeDynamic] fun | .invokeDynamic value => some value | _ => none

def moduleAt : Pool → UInt16 → Except Error Text :=
  select [.moduleRef] fun | .moduleRef name => some name | _ => none

def packageAt : Pool → UInt16 → Except Error Text :=
  select [.packageRef] fun | .packageRef name => some name | _ => none

end Pool

/-- The constant to load that an entry is. -/
def Loadable.ofEntry (entry : Entry) : Except Error Loadable :=
  match Loadable.ofEntry? entry with
  | some value => .ok value
  | none => .error (.ofFault (.notLoadable entry.kind))

/-- The initial value of a field that an entry is. -/
def ConstantValue.ofEntry (entry : Entry) : Except Error ConstantValue :=
  match ConstantValue.ofEntry? entry with
  | some value => .ok value
  | none => .error (.ofFault (.notConstantValue entry.kind))

namespace Pool

def loadableAt (pool : Pool) (index : UInt16) : Except Error Loadable := do
  let entry ← pool.get index
  Result.during (.poolIndex index) (Loadable.ofEntry entry)

def constantValueAt (pool : Pool) (index : UInt16) : Except Error ConstantValue := do
  let entry ← pool.get index
  Result.during (.poolIndex index) (ConstantValue.ofEntry entry)

/-- A reference that may be left out, which index zero stands for. -/
def optionalAt {α : Type} (lookUp : Pool → UInt16 → Except Error α) (pool : Pool) (index : UInt16) :
    Except Error (Option α) :=
  if index == 0 then .ok none else some <$> lookUp pool index

/-! ### Reading and writing -/

/-- The pool with one more constant at its end; an index remembered for an equal constant stays. -/
def push (pool : Pool) (entry : Entry) (raw : RawEntry) : Pool :=
  let index := UInt16.ofNat pool.count
  ⟨pool.slots.push (.entry entry raw), pool.indices.insertIfNew entry index⟩

def pushUpperHalf (pool : Pool) : Pool :=
  { pool with slots := pool.slots.push .upperHalf }

/-- Adds the constants of stored slots to the ones before them. -/
def resolveSlots (raw : RawPool) : List (Option RawEntry) → Pool → Except Error Pool
  | [], pool => .ok pool
  | none :: rest, pool => resolveSlots raw rest pool.pushUpperHalf
  | some stored :: rest, pool =>
    match Result.during (.resolvingEntry pool.slots.size) (stored.resolve raw) with
    | .ok entry => resolveSlots raw rest (pool.push entry stored)
    | .error error => .error error

def read : Reader Pool := do
  let raw ← RawPool.read
  resolveSlots raw raw.slots.toList.tail Pool.empty

/-- Writes stored entries one after the other. The tag of an entry is out before its contents are
looked at. -/
def writeSlots : List Slot → (written : Array UInt8) → Output
  | [], written => ⟨written.toList, none⟩
  | .entry _ raw :: rest, written =>
    let written := written.push raw.kind.tag
    match raw.contents with
    | .ok contents => writeSlots rest (written ++ contents)
    | .error error => ⟨written.toList, some error⟩
  | .unused :: rest, written => writeSlots rest written
  | .upperHalf :: rest, written => writeSlots rest written

def write (pool : Pool) : Output :=
  match Bytes.ofCount 2 pool.count with
  | .ok count => writeSlots pool.slots.toList count.toArray
  | .error error => ⟨[], some error⟩

end Pool

end JvmClass
