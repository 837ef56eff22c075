import JvmClass.Proofs.Pool.Storing
import Mathlib.Logic.Relation

/-!
# What holds of every pool in use

A pool starts out empty or is read, and from then on it changes by calls that look a constant up and
add what is missing, some of which fail half way. Whatever the calls were, only slot zero is unused,
the upper halves are where they belong, each constant is remembered at the first index that holds
it, and what is stored resolves. So the index that a constant was once found at is found ever after,
and no call ever notices that the remembered indices are wrong.
-/

namespace JvmClass

/-! ### Slots -/

theorem EntryKind.isWide_iff {kind : EntryKind} :
    kind.isWide ↔ kind = .long ∨ kind = .double := by
  cases kind <;> simp [isWide]

namespace Pool

/-- The slots after longs and doubles are upper halves, and no others are. -/
def Halved (slots : List Slot) : Prop :=
  ∀ index, slots[index + 1]? = some .upperHalf ↔
    ∃ entry raw, slots[index]? = some (.entry entry raw) ∧ entry.kind.isWide

theorem Halved.append_slotsOf {slots : List Slot} (hslots : Halved slots) (entry : Entry)
    (raw : RawEntry) : Halved (slots ++ slotsOf entry raw) := by
  intro index
  rcases Nat.lt_trichotomy (index + 1) slots.length with hlt | hend | hgt
  · rw [List.getElem?_append_left hlt, List.getElem?_append_left (Nat.lt_of_succ_lt hlt)]
    exact hslots index
  · -- The last slot so far holds nothing wide, or the slots would already go on.
    rw [List.getElem?_append_right (Nat.le_of_eq hend.symm),
      List.getElem?_append_left (Nat.lt_of_succ_le (Nat.le_of_eq hend)), hend, Nat.sub_self]
    constructor
    · intro hhalf
      cases hhalf
    · intro hwide
      have hhalf := (hslots index).2 hwide
      rw [List.getElem?_eq_none (Nat.le_of_eq hend.symm)] at hhalf
      cases hhalf
  · obtain ⟨place, rfl⟩ : ∃ place, index = slots.length + place :=
      Nat.exists_eq_add_of_le (Nat.le_of_lt_succ hgt)
    rw [List.getElem?_append_right (by omega), List.getElem?_append_right (by omega),
      Nat.add_assoc, Nat.add_sub_cancel_left, Nat.add_sub_cancel_left]
    unfold slotsOf
    rcases place with _ | _ | place <;> split <;> simp [*]

theorem halved_addAll {pool : Pool} (hpool : Halved pool.slots.toList)
    (items : List (Entry × RawEntry)) : Halved (pool.addAll items).slots.toList := by
  induction items generalizing pool with
  | nil => exact hpool
  | cons item items ih =>
    apply ih
    rw [toList_appended]
    exact hpool.append_slotsOf item.1 item.2

theorem Valid.halved {pool : Pool} (hvalid : pool.Valid) : Halved pool.slots.toList := by
  obtain ⟨items, rfl⟩ := hvalid.built
  refine halved_addAll (fun index => ?_) items
  cases index <;> simp [Pool.empty]

theorem Valid.getElem?_eq_unused_iff {pool : Pool} (hvalid : pool.Valid) {index : Nat} :
    pool.slots[index]? = some .unused ↔ index = 0 := by
  obtain ⟨items, rfl, -⟩ := hvalid.exists_items
  rw [← Array.getElem?_toList, toList_empty_addAll]
  cases index with
  | zero => simp
  | succ index =>
    have hused : Slot.unused ∉ items.flatMap fun item => slotsOf item.1 item.2 := by
      intro hmem
      obtain ⟨item, -, hslot⟩ := List.mem_flatMap.1 hmem
      unfold slotsOf at hslot
      split at hslot <;> simp at hslot
    constructor
    · intro hslot
      exact (hused (List.mem_of_getElem? hslot)).elim
    · intro hzero
      cases hzero

/-! ### Remembered indices -/

/-- The index is the smallest one that holds the constant. -/
def FirstAt (pool : Pool) (entry : Entry) (index : UInt16) : Prop :=
  pool.get index = .ok entry ∧ ∀ smaller < index, pool.get smaller ≠ .ok entry

theorem FirstAt.unique {pool : Pool} {entry : Entry} {index other : UInt16}
    (hindex : pool.FirstAt entry index) (hother : pool.FirstAt entry other) : index = other := by
  apply UInt16.le_antisymm
  · exact UInt16.not_lt.1 fun hlt => hindex.2 other hlt hother.1
  · exact UInt16.not_lt.1 fun hlt => hother.2 index hlt hindex.1

theorem exists_firstAt {pool : Pool} {entry : Entry} {index : UInt16}
    (hget : pool.get index = .ok entry) : ∃ first, pool.FirstAt entry first := by
  induction hsize : index.toNat using Nat.strongRecOn generalizing index with
  | ind size ih =>
    by_cases hsmaller : ∃ smaller < index, pool.get smaller = .ok entry
    · obtain ⟨smaller, hlt, hget⟩ := hsmaller
      exact ih smaller.toNat (hsize ▸ UInt16.lt_iff_toNat_lt.1 hlt) hget rfl
    · exact ⟨index, hget, fun smaller hlt hget => hsmaller ⟨smaller, hlt, hget⟩⟩

theorem lt_count_of_get {pool : Pool} {entry : Entry} {index : UInt16}
    (hget : pool.get index = .ok entry) : index.toNat < pool.count := by
  obtain ⟨raw, hslot⟩ := get_eq_ok_iff.1 hget
  exact (Array.getElem?_eq_some_iff.1 hslot).1

/-- With one more constant, an index holds what it held before or comes after all of that. -/
theorem cases_of_get_appended {pool : Pool} {entry found : Entry} {raw : RawEntry} {index : UInt16}
    (hget : (pool.appended entry raw).get index = .ok found) :
    pool.get index = .ok found ∨ (found = entry ∧ pool.count ≤ index.toNat) := by
  obtain ⟨stored, hslot⟩ := get_eq_ok_iff.1 hget
  rcases cases_of_getElem?_appended hslot with hslot | ⟨hle, hfound, -⟩
  · exact .inl (get_eq_ok_iff.2 ⟨stored, hslot⟩)
  · exact .inr ⟨hfound, hle⟩

/-- Each constant that is there, and no other, is remembered with the first index that holds it. -/
def Remembers (pool : Pool) : Prop :=
  ∀ entry index, pool.indices[entry]? = some index ↔ pool.FirstAt entry index

namespace Remembers

variable {pool : Pool} {entry : Entry} {raw : RawEntry}

theorem get_ne (hpool : pool.Remembers) (hnew : entry ∉ pool.indices) (index : UInt16) :
    pool.get index ≠ .ok entry := by
  intro hget
  obtain ⟨first, hfirst⟩ := exists_firstAt hget
  apply hnew
  rw [Std.HashMap.mem_iff_isSome_getElem?, (hpool entry first).2 hfirst]
  rfl

theorem firstAt_appended (hpool : pool.Remembers) (hnew : entry ∉ pool.indices)
    (hroom : pool.count + entry.kind.width ≤ maxCount) :
    (pool.appended entry raw).FirstAt entry (UInt16.ofNat pool.count) := by
  refine ⟨pool.get_appended entry raw hroom, fun smaller hlt hget => ?_⟩
  rcases cases_of_get_appended hget with hget | ⟨-, hle⟩
  · exact hpool.get_ne hnew smaller hget
  · have hcount : (UInt16.ofNat pool.count).toNat ≤ pool.count := Nat.mod_le _ _
    exact Nat.not_lt.2 hle (Nat.lt_of_lt_of_le (UInt16.lt_iff_toNat_lt.1 hlt) hcount)

theorem firstAt_appended_iff (hpool : pool.Remembers) {other : Entry}
    (hold : other = entry → other ∈ pool.indices) (index : UInt16) :
    (pool.appended entry raw).FirstAt other index ↔ pool.FirstAt other index := by
  have hextends := pool.extends_appended entry raw
  constructor
  · rintro ⟨hget, hsmallest⟩
    refine ⟨?_, fun smaller hlt hget => hsmallest smaller hlt (get_of_extends hextends hget)⟩
    rcases cases_of_get_appended hget with hget | ⟨hentry, hle⟩
    · exact hget
    · -- It was there before, at an index below all new ones.
      have hmem := hold hentry
      rw [Std.HashMap.mem_iff_isSome_getElem?, Option.isSome_iff_exists] at hmem
      obtain ⟨first, hfirst⟩ := hmem
      have hfound := ((hpool other first).1 hfirst).1
      have hlt : first < index :=
        UInt16.lt_iff_toNat_lt.2 (Nat.lt_of_lt_of_le (lt_count_of_get hfound) hle)
      exact (hsmallest first hlt (get_of_extends hextends hfound)).elim
  · rintro ⟨hget, hsmallest⟩
    refine ⟨get_of_extends hextends hget, fun smaller hlt hfound => ?_⟩
    rcases cases_of_get_appended hfound with hfound | ⟨-, hle⟩
    · exact hsmallest smaller hlt hfound
    · exact Nat.not_lt.2 hle (Nat.lt_trans (UInt16.lt_iff_toNat_lt.1 hlt) (lt_count_of_get hget))

theorem appended (hpool : pool.Remembers)
    (hroom : pool.count + entry.kind.width ≤ maxCount) : (pool.appended entry raw).Remembers := by
  intro other index
  rw [indices_appended, Std.HashMap.getElem?_insertIfNew]
  split
  · rename_i hnew
    obtain rfl : entry = other := eq_of_beq hnew.1
    have hfirst : (pool.appended entry raw).FirstAt entry (UInt16.ofNat pool.count) :=
      hpool.firstAt_appended hnew.2 hroom
    rw [Option.some_inj]
    exact ⟨fun heq => heq ▸ hfirst, hfirst.unique⟩
  · rename_i hold
    rw [hpool other index, hpool.firstAt_appended_iff]
    rintro rfl
    exact Classical.not_not.1 fun hmem => hold ⟨beq_self_eq_true _, hmem⟩

theorem addAll (hpool : pool.Remembers) {items : List (Entry × RawEntry)}
    (hcount : (pool.addAll items).count ≤ maxCount) : (pool.addAll items).Remembers := by
  induction items generalizing pool with
  | nil => exact hpool
  | cons item items ih =>
    refine ih (hpool.appended ?_) hcount
    rw [← count_appended _ _ item.2]
    exact Nat.le_trans (Extends.size_le ⟨items, rfl⟩) hcount

end Remembers

theorem remembers_empty : Pool.empty.Remembers := by
  intro entry index
  have hnone : Pool.empty.indices[entry]? = none := Std.HashMap.getElem?_empty
  rw [hnone]
  constructor
  · intro hindex
    cases hindex
  · rintro ⟨hget, -⟩
    exact (valid_empty.ne_zero hget (UInt16.toNat_inj.1 (Nat.lt_one_iff.1 (lt_count_of_get hget)))).elim

theorem Valid.remembers {pool : Pool} (hvalid : pool.Valid) : pool.Remembers := by
  obtain ⟨items, rfl⟩ := hvalid.built
  exact remembers_empty.addAll hvalid.count_le

/-- A constant that is there is found at its first index. -/
theorem Valid.run_find {pool : Pool} (hvalid : pool.Valid) {entry : Entry} {index : UInt16}
    (hget : pool.get index = .ok entry) :
    ∃ first, pool.FirstAt entry first ∧ (find entry).run pool = (.ok first, pool) := by
  obtain ⟨first, hfirst⟩ := exists_firstAt hget
  refine ⟨first, hfirst, ?_⟩
  have hindex := (hvalid.remembers entry first).2 hfirst
  have hintern : ∀ register, (intern entry register).run pool = (.ok first, pool) := by
    intro register
    rw [run_intern, hindex]
    exact if_pos (holds_iff.2 hfirst.1)
  cases entry <;> exact hintern _

end Pool

/-! ### Method handles -/

namespace RawEntry

variable {pool : RawPool}

theorem accepts_of_referenceAt {kind : ReferenceKind} {index : UInt16}
    {reference : HandleReference} (hreference : referenceAt pool kind index = .ok reference) :
    kind.accepts reference := by
  obtain ⟨entry, -, hentry⟩ := Result.exists_of_bind hreference
  cases kind with
  | invokeStatic | invokeSpecial =>
    cases entry <;>
    · obtain ⟨member, -, rfl⟩ := Result.map_eq_ok_iff.1 hentry
      rfl
  | _ =>
    obtain ⟨member, -, rfl⟩ := Result.map_eq_ok_iff.1 hentry
    rfl

theorem accepts_of_resolve {entry : RawEntry} {handle : MethodHandle}
    (hresolve : entry.resolve pool = .ok (.methodHandle handle)) :
    handle.kind.accepts handle.reference := by
  have hkind := kind_of_resolve hresolve
  cases entry with
  | methodHandle kindByte index =>
    obtain ⟨kind, -, hrest⟩ := Result.exists_of_bind hresolve
    obtain ⟨reference, hreference, hhandle⟩ := Result.exists_of_bind hrest
    cases hhandle
    exact accepts_of_referenceAt hreference
  | _ => cases hkind

end RawEntry

/-! ### Trust in the remembered indices -/

namespace PoolM

variable {α β : Type}

/-- In a valid pool the computation never finds that a constant is not where it is remembered. -/
class Trusts (action : PoolM α) : Prop where
  fault_ne {pool : Pool} (hvalid : pool.Valid) {error : Error}
    (hrun : (action.run pool).1 = .error error) (kind : EntryKind) (index : UInt16) :
    error.fault ≠ .misremembered kind index

namespace Trusts

instance (value : α) : Trusts (pure value : PoolM α) where
  fault_ne := by
    intro pool _ error hrun
    cases hrun

instance (activity : Activity) (action : PoolM α) [Trusts action] :
    Trusts (during activity action) where
  fault_ne := by
    intro pool hvalid error hrun
    rw [run_during] at hrun
    rcases haction : (action.run pool).1 with inner | value <;> rw [haction] at hrun <;> cases hrun
    have hinner : ∀ kind index, inner.fault ≠ .misremembered kind index := fault_ne hvalid haction
    exact hinner

instance (action : PoolM α) (next : α → PoolM β) [Lawful action] [Trusts action]
    [∀ value, Trusts (next value)] : Trusts (action >>= next) where
  fault_ne := by
    intro pool hvalid error hrun
    rw [run_bind] at hrun
    rcases haction : action.run pool with ⟨inner | value, between⟩ <;> rw [haction] at hrun
    · cases hrun
      have herror : (action.run pool).1 = .error error := congrArg Prod.fst haction
      exact fault_ne hvalid herror
    · exact fault_ne (valid_of_run hvalid haction) hrun

instance (text : Text) : Trusts (liftM (RawEntry.textBytes text) : PoolM Bytes) where
  fault_ne := by
    intro pool _ error hrun kind index
    change RawEntry.textBytes text = .error error at hrun
    unfold RawEntry.textBytes at hrun
    dsimp only at hrun
    split at hrun <;> cases hrun
    intro hfault
    cases hfault

instance (handle : MethodHandle) : Trusts (liftM handle.check : PoolM Unit) where
  fault_ne := by
    intro pool _ error hrun kind index
    change handle.check = .error error at hrun
    unfold MethodHandle.check at hrun
    split at hrun <;> cases hrun
    intro hfault
    cases hfault

instance (entry : Entry) (raw : RawEntry) : Trusts (Pool.append entry raw) where
  fault_ne := by
    intro pool _ error hrun kind index
    rw [Pool.run_append] at hrun
    split at hrun <;> cases hrun
    intro hfault
    cases hfault

/-- A constant that is remembered is where it is remembered to be. -/
instance (entry : Entry) (register : PoolM RawEntry) [Lawful register] [Trusts register] :
    Trusts (Pool.intern entry register) where
  fault_ne := by
    intro pool hvalid error hrun
    rw [Pool.run_intern] at hrun
    split at hrun
    · rename_i index hindex
      rw [if_pos (Pool.holds_iff.2 ((hvalid.remembers entry index).1 hindex).1)] at hrun
      cases hrun
    · exact fault_ne hvalid hrun

end Trusts

end PoolM

namespace Pool

open PoolM

instance (text : Text) : Trusts (putUtf8 text) := by
  unfold putUtf8
  infer_instance

instance (name : ClassName) : Trusts (putClass name) := by
  unfold putClass
  infer_instance

instance (value : NameAndType) : Trusts (putNameAndType value) := by
  unfold putNameAndType
  infer_instance

instance (member : MemberRef) : Trusts (putFieldRef member) := by
  unfold putFieldRef
  infer_instance

instance (member : MemberRef) : Trusts (putMethodRef member) := by
  unfold putMethodRef
  infer_instance

instance (member : MemberRef) : Trusts (putInterfaceMethodRef member) := by
  unfold putInterfaceMethodRef
  infer_instance

instance (reference : HandleReference) : Trusts (putReference reference) := by
  cases reference <;> (unfold putReference; infer_instance)

/-- Looking for a constant never shows a remembered index to be wrong. -/
instance (entry : Entry) : Trusts (find entry) := by
  cases entry with
  | utf8 | classRef | nameAndType | fieldRef | methodRef | interfaceMethodRef =>
    unfold find
    infer_instance
  | integer value => exact inferInstanceAs (Trusts (intern _ (pure _)))
  | float bits => exact inferInstanceAs (Trusts (intern _ (pure _)))
  | long value => exact inferInstanceAs (Trusts (intern _ (pure _)))
  | double bits => exact inferInstanceAs (Trusts (intern _ (pure _)))
  | string text | methodType text | moduleRef text | packageRef text =>
    exact inferInstanceAs (Trusts (intern _ (putUtf8 text >>= fun index => pure _)))
  | dynamic value | invokeDynamic value =>
    exact inferInstanceAs (Trusts (intern _ (putNameAndType value.nameAndType >>= fun index => pure _)))
  | methodHandle handle =>
    unfold find putMethodHandle
    infer_instance

/-! ### Calls -/

/-- The calls that a pool can get: each looks a constant up and adds it if it is missing. -/
inductive Call : PoolM UInt16 → Prop
  | find (entry : Entry) : Call (find entry)
  | putUtf8 (text : Text) : Call (putUtf8 text)
  | putInteger (value : Int32) : Call (putInteger value)
  | putFloat (bits : UInt32) : Call (putFloat bits)
  | putLong (value : Int64) : Call (putLong value)
  | putDouble (bits : UInt64) : Call (putDouble bits)
  | putClass (name : ClassName) : Call (putClass name)
  | putString (text : Text) : Call (putString text)
  | putNameAndType (value : NameAndType) : Call (putNameAndType value)
  | putFieldRef (member : MemberRef) : Call (putFieldRef member)
  | putMethodRef (member : MemberRef) : Call (putMethodRef member)
  | putInterfaceMethodRef (member : MemberRef) : Call (putInterfaceMethodRef member)
  | putAnyMethodRef (member : MemberRef) (isInterface : Bool) :
      Call (putAnyMethodRef member isInterface)
  | putMethodHandle (handle : MethodHandle) : Call (putMethodHandle handle)
  | putMethodType (descriptor : Text) : Call (putMethodType descriptor)
  | putDynamic (value : DynamicRef) : Call (putDynamic value)
  | putInvokeDynamic (value : DynamicRef) : Call (putInvokeDynamic value)
  | putModule (name : Text) : Call (putModule name)
  | putPackage (name : Text) : Call (putPackage name)
  | putLoadable (value : Loadable) : Call (putLoadable value)
  | putConstantValue (value : ConstantValue) : Call (putConstantValue value)
  | putOptional {α : Type} {put : α → PoolM UInt16} (hput : ∀ value, Call (put value))
      (value : Option α) : Call (putOptional put value)

/-- Every call is a search for one constant, unless it is for a reference that is left out. -/
theorem Call.eq_find_or_pure {call : PoolM UInt16} (hcall : Call call) :
    (∃ entry, call = Pool.find entry) ∨ call = pure 0 := by
  induction hcall with
  | find entry => exact .inl ⟨entry, rfl⟩
  | putUtf8 text => exact .inl ⟨.utf8 text, rfl⟩
  | putInteger value => exact .inl ⟨.integer value, rfl⟩
  | putFloat bits => exact .inl ⟨.float bits, rfl⟩
  | putLong value => exact .inl ⟨.long value, rfl⟩
  | putDouble bits => exact .inl ⟨.double bits, rfl⟩
  | putClass name => exact .inl ⟨.classRef name, rfl⟩
  | putString text => exact .inl ⟨.string text, rfl⟩
  | putNameAndType value => exact .inl ⟨.nameAndType value, rfl⟩
  | putFieldRef member => exact .inl ⟨.fieldRef member, rfl⟩
  | putMethodRef member => exact .inl ⟨.methodRef member, rfl⟩
  | putInterfaceMethodRef member => exact .inl ⟨.interfaceMethodRef member, rfl⟩
  | putAnyMethodRef member isInterface =>
    cases isInterface
    · exact .inl ⟨.methodRef member, rfl⟩
    · exact .inl ⟨.interfaceMethodRef member, rfl⟩
  | putMethodHandle handle => exact .inl ⟨.methodHandle handle, rfl⟩
  | putMethodType descriptor => exact .inl ⟨.methodType descriptor, rfl⟩
  | putDynamic value => exact .inl ⟨.dynamic value, rfl⟩
  | putInvokeDynamic value => exact .inl ⟨.invokeDynamic value, rfl⟩
  | putModule name => exact .inl ⟨.moduleRef name, rfl⟩
  | putPackage name => exact .inl ⟨.packageRef name, rfl⟩
  | putLoadable value => exact .inl ⟨value.toEntry, rfl⟩
  | putConstantValue value => exact .inl ⟨value.toEntry, rfl⟩
  | putOptional _ value ih =>
    cases value with
    | none => exact .inr rfl
    | some value => exact ih value

/-- One call leads from the first pool to the second, whether or not the call goes well. -/
def CalledOnce (pool next : Pool) : Prop :=
  ∃ call, Call call ∧ (call.run pool).2 = next

/-- Some calls, one after the other, lead from the first pool to the second. -/
def Called : Pool → Pool → Prop :=
  Relation.ReflTransGen CalledOnce

/-- The pool started out empty or was read, and then got some calls. -/
def Reachable (pool : Pool) : Prop :=
  ∃ start : Pool, (start = Pool.empty ∨ ∃ input rest, Pool.read input = .ok (start, rest)) ∧
    start.Called pool

theorem CalledOnce.cases {pool next : Pool} (hcalled : pool.CalledOnce next) :
    (∃ entry, ((Pool.find entry).run pool).2 = next) ∨ next = pool := by
  obtain ⟨call, hcall, rfl⟩ := hcalled
  rcases hcall.eq_find_or_pure with ⟨entry, rfl⟩ | rfl
  · exact .inl ⟨entry, rfl⟩
  · exact .inr rfl

/-- What a search for a constant preserves, any calls preserve. -/
theorem Called.preserves {P : Pool → Prop}
    (hfind : ∀ current entry, P current → P ((Pool.find entry).run current).2) {pool later : Pool}
    (hcalled : pool.Called later) (hpool : P pool) : P later := by
  induction hcalled with
  | refl => exact hpool
  | tail _ hlast ih =>
    rcases hlast.cases with ⟨entry, rfl⟩ | rfl
    · exact hfind _ entry ih
    · exact ih

theorem Called.extends {pool later : Pool} (hcalled : pool.Called later) : pool.Extends later :=
  hcalled.preserves (fun _ entry hextends => hextends.trans (extends_run (Pool.find entry) _))
    (.refl pool)

theorem Called.valid {pool later : Pool} (hcalled : pool.Called later) (hvalid : pool.Valid) :
    later.Valid :=
  hcalled.preserves (fun _ entry => valid_run (Pool.find entry)) hvalid

theorem Called.built {pool later : Pool} (hcalled : pool.Called later) (hbuilt : pool.Built) :
    later.Built :=
  hcalled.preserves (fun _ entry hcurrent => hcurrent.find entry) hbuilt

theorem Reachable.built {pool : Pool} (hpool : pool.Reachable) : pool.Built := by
  obtain ⟨start, rfl | ⟨input, rest, hread⟩, hcalled⟩ := hpool
  · exact hcalled.built .empty
  · exact hcalled.built (.read hread)

/-! ### The invariant -/

/-- A pool whose parts fit together. -/
structure Consistent (pool : Pool) : Prop where
  /-- Slot zero is there, and the only one that is unused. -/
  unused_iff {index : Nat} : pool.slots[index]? = some .unused ↔ index = 0
  one_le_count : 1 ≤ pool.count
  count_le : pool.count ≤ 65535
  /-- A slot is an upper half exactly if the one before it holds a long or double. -/
  upperHalf_iff {index : Nat} : pool.slots[index + 1]? = some .upperHalf ↔
    ∃ entry raw, pool.slots[index]? = some (.entry entry raw) ∧
      (entry.kind = .long ∨ entry.kind = .double)
  /-- What is remembered are the constants that are there, each with its smallest index. -/
  indices_iff {entry : Entry} {index : UInt16} : pool.indices[entry]? = some index ↔
    pool.get index = .ok entry ∧ ∀ smaller < index, pool.get smaller ≠ .ok entry
  /-- What a constant is stored as resolves to it, in the pool as it is stored. -/
  resolves {index : Nat} {entry : Entry} {raw : RawEntry}
    (hslot : pool.slots[index]? = some (.entry entry raw)) : raw.resolve pool.stored = .ok entry
  accepts {index : Nat} {handle : MethodHandle} {raw : RawEntry}
    (hslot : pool.slots[index]? = some (.entry (.methodHandle handle) raw)) :
    handle.kind.accepts handle.reference

theorem Valid.consistent {pool : Pool} (hvalid : pool.Valid) : pool.Consistent where
  unused_iff := hvalid.getElem?_eq_unused_iff
  one_le_count := hvalid.built.size_le
  count_le := hvalid.count_le
  upperHalf_iff := by
    intro index
    have hhalved := hvalid.halved index
    simpa only [Array.getElem?_toList, EntryKind.isWide_iff] using hhalved
  indices_iff := hvalid.remembers _ _
  resolves := hvalid.resolves
  accepts hslot := RawEntry.accepts_of_resolve (hvalid.resolves hslot)

/-- Every pool in use fits together. So a constant is found where it was found first, whatever calls
came in between, and no call finds a remembered index to be wrong. -/
theorem consistent_of_reachable {pool : Pool} (hpool : pool.Reachable) :
    pool.Consistent ∧
      (∀ entry index final, (find entry).run pool = (.ok index, final) →
        final.get index = .ok entry ∧
          ∀ later, final.Called later → (find entry).run later = (.ok index, later)) ∧
      ∀ entry error final, (find entry).run pool = (.error error, final) →
        ∀ kind index, error.fault ≠ .misremembered kind index := by
  have hvalid := hpool.built.valid
  refine ⟨hvalid.consistent, ?_, ?_⟩
  · intro entry index final hrun
    refine ⟨yields_find entry pool index final hrun final (.refl final), ?_⟩
    intro later hcalled
    exact Lawful.replays hrun hcalled.extends
  · intro entry error final hrun
    exact Trusts.fault_ne hvalid (congrArg Prod.fst hrun)

/-- A pool that was asked for a long, and then for a handle that cannot use its member. -/
def afterRefusal : Pool :=
  let member : MemberRef := ⟨⟨.ofString "A", isClassName_letter⟩, .ofString "f", .ofString "()V"⟩
  ((putMethodHandle ⟨.getField, .method member⟩).run ((putLong 7).run Pool.empty).2).2

theorem consistent_afterRefusal :
    afterRefusal.Reachable ∧ afterRefusal.Consistent ∧
      (∀ entry index final, (find entry).run afterRefusal = (.ok index, final) →
        final.get index = .ok entry ∧
          ∀ later, final.Called later → (find entry).run later = (.ok index, later)) ∧
      ∀ entry error final, (find entry).run afterRefusal = (.error error, final) →
        ∀ kind index, error.fault ≠ .misremembered kind index := by
  have hreachable : afterRefusal.Reachable :=
    ⟨Pool.empty, .inl rfl,
      .tail (.single ⟨_, .putLong 7, rfl⟩) ⟨_, .putMethodHandle _, rfl⟩⟩
  exact ⟨hreachable, consistent_of_reachable hreachable⟩

end Pool

end JvmClass
