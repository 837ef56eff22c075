import JvmClass.Proofs.Pool.Growth
import JvmClass.Proofs.Result

/-!
# Pools that mean what they store

Next to each constant a pool keeps how the constant is stored. In a valid pool the two agree: what
is stored at an index, resolved in the pool as it is stored, is the constant there. More constants
do not change what the ones before them resolve to, so a pool stays valid when a constant that
resolves in it is added.
-/

namespace JvmClass

/-! ### More entries resolve more -/

/-- The entries of the first stored pool are in the second one too, at the same indices. -/
def RawPool.Within (pool larger : RawPool) : Prop :=
  ∀ index, Result.Refines (pool.get index) (larger.get index)

namespace RawEntry

open Result

variable {pool larger : RawPool}

theorem textAt_refines (hwithin : pool.Within larger) (index : UInt16) :
    Refines (textAt pool index) (textAt larger index) :=
  .bind (hwithin index) fun _ => .refl _

theorem asClassRef_refines (hwithin : pool.Within larger) (entry : RawEntry) :
    Refines (entry.asClassRef pool) (entry.asClassRef larger) := by
  cases entry with
  | classRef nameIndex => exact .bind (textAt_refines hwithin nameIndex) fun _ => .refl _
  | _ => exact .refl _

theorem asNameAndType_refines (hwithin : pool.Within larger) (entry : RawEntry) :
    Refines (entry.asNameAndType pool) (entry.asNameAndType larger) := by
  cases entry with
  | nameAndType nameIndex descriptorIndex =>
    exact .bind (textAt_refines hwithin nameIndex) fun _ =>
      .bind (textAt_refines hwithin descriptorIndex) fun _ => .refl _
  | _ => exact .refl _

theorem nameAndTypeAt_refines (hwithin : pool.Within larger) (index : UInt16) :
    Refines (nameAndTypeAt pool index) (nameAndTypeAt larger index) :=
  .bind (hwithin index) fun entry => .during _ (asNameAndType_refines hwithin entry)

theorem memberAt_refines (hwithin : pool.Within larger) (classIndex nameAndTypeIndex : UInt16) :
    Refines (memberAt pool classIndex nameAndTypeIndex)
      (memberAt larger classIndex nameAndTypeIndex) :=
  .bind (hwithin classIndex) fun entry =>
    .bind (.during _ (asClassRef_refines hwithin entry)) fun _ =>
      .bind (nameAndTypeAt_refines hwithin nameAndTypeIndex) fun _ => .refl _

theorem asFieldRef_refines (hwithin : pool.Within larger) (entry : RawEntry) :
    Refines (entry.asFieldRef pool) (entry.asFieldRef larger) := by
  cases entry with
  | fieldRef owner member => exact memberAt_refines hwithin owner member
  | _ => exact .refl _

theorem asMethodRef_refines (hwithin : pool.Within larger) (entry : RawEntry) :
    Refines (entry.asMethodRef pool) (entry.asMethodRef larger) := by
  cases entry with
  | methodRef owner member => exact memberAt_refines hwithin owner member
  | _ => exact .refl _

theorem asInterfaceMethodRef_refines (hwithin : pool.Within larger) (entry : RawEntry) :
    Refines (entry.asInterfaceMethodRef pool) (entry.asInterfaceMethodRef larger) := by
  cases entry with
  | interfaceMethodRef owner member => exact memberAt_refines hwithin owner member
  | _ => exact .refl _

theorem asAnyMethodRef_refines (hwithin : pool.Within larger) (entry : RawEntry) :
    Refines (entry.asAnyMethodRef pool) (entry.asAnyMethodRef larger) := by
  cases entry with
  | methodRef owner member => exact .map _ (memberAt_refines hwithin owner member)
  | _ => exact .map _ (asInterfaceMethodRef_refines hwithin _)

theorem referenceAt_refines (hwithin : pool.Within larger) (kind : ReferenceKind)
    (index : UInt16) : Refines (referenceAt pool kind index) (referenceAt larger kind index) := by
  refine .bind (hwithin index) fun entry => ?_
  cases kind with
  | getField | getStatic | putField | putStatic =>
    exact .map _ (asFieldRef_refines hwithin entry)
  | invokeVirtual | newInvokeSpecial => exact .map _ (asMethodRef_refines hwithin entry)
  | invokeStatic | invokeSpecial => exact asAnyMethodRef_refines hwithin entry
  | invokeInterface => exact .map _ (asInterfaceMethodRef_refines hwithin entry)

/-- An entry that resolves in a stored pool resolves to the same constant when there are more. -/
theorem resolve_refines (hwithin : pool.Within larger) (entry : RawEntry) :
    Refines (entry.resolve pool) (entry.resolve larger) := by
  cases entry with
  | utf8 | integer | float | long | double => exact .refl _
  | classRef => exact .map _ (asClassRef_refines hwithin _)
  | string | methodType | moduleRef | packageRef => exact .map _ (textAt_refines hwithin _)
  | fieldRef => exact .map _ (asFieldRef_refines hwithin _)
  | methodRef => exact .map _ (asMethodRef_refines hwithin _)
  | interfaceMethodRef => exact .map _ (asInterfaceMethodRef_refines hwithin _)
  | nameAndType => exact .map _ (asNameAndType_refines hwithin _)
  | methodHandle =>
    exact .bind (.refl _) fun kind => .bind (referenceAt_refines hwithin kind _) fun _ => .refl _
  | dynamic | invokeDynamic => exact .bind (nameAndTypeAt_refines hwithin _) fun _ => .refl _

/-! ### What an entry resolves to -/

theorem kind_of_resolve {entry : RawEntry} {value : Entry}
    (hresolve : entry.resolve pool = .ok value) : value.kind = entry.kind := by
  cases entry with
  | utf8 | integer | float | long | double =>
    cases hresolve
    rfl
  | methodHandle =>
    obtain ⟨kind, -, hrest⟩ := exists_of_bind hresolve
    obtain ⟨reference, -, hvalue⟩ := exists_of_bind hrest
    cases hvalue
    rfl
  | dynamic | invokeDynamic =>
    obtain ⟨member, -, hvalue⟩ := exists_of_bind hresolve
    cases hvalue
    rfl
  | _ =>
    obtain ⟨part, -, rfl⟩ := map_eq_ok_iff.1 hresolve
    rfl

theorem asUtf8_of_resolve {entry : RawEntry} {text : Text}
    (hresolve : entry.resolve pool = .ok (.utf8 text)) : entry.asUtf8 = .ok text := by
  have hkind := kind_of_resolve hresolve
  cases entry with
  | utf8 =>
    cases hresolve
    rfl
  | _ => cases hkind

theorem asClassRef_of_resolve {entry : RawEntry} {name : ClassName}
    (hresolve : entry.resolve pool = .ok (.classRef name)) :
    entry.asClassRef pool = .ok name := by
  have hkind := kind_of_resolve hresolve
  cases entry with
  | classRef =>
    obtain ⟨found, hfound, hname⟩ := map_eq_ok_iff.1 hresolve
    cases hname
    exact hfound
  | _ => cases hkind

theorem asNameAndType_of_resolve {entry : RawEntry} {value : NameAndType}
    (hresolve : entry.resolve pool = .ok (.nameAndType value)) :
    entry.asNameAndType pool = .ok value := by
  have hkind := kind_of_resolve hresolve
  cases entry with
  | nameAndType =>
    obtain ⟨found, hfound, hvalue⟩ := map_eq_ok_iff.1 hresolve
    cases hvalue
    exact hfound
  | _ => cases hkind

def references : RawEntry → List UInt16
  | utf8 _ | integer _ | float _ | long _ | double _ => []
  | classRef index | string index | methodType index | moduleRef index | packageRef index => [index]
  | fieldRef owner member | methodRef owner member | interfaceMethodRef owner member =>
    [owner, member]
  | nameAndType name descriptor => [name, descriptor]
  | methodHandle _ reference => [reference]
  | dynamic _ member | invokeDynamic _ member => [member]

theorem get_of_textAt {index : UInt16} {text : Text} (htext : textAt pool index = .ok text) :
    ∃ entry, pool.get index = .ok entry := by
  obtain ⟨entry, hget, -⟩ := exists_of_bind htext
  exact ⟨entry, hget⟩

theorem get_of_nameAndTypeAt {index : UInt16} {value : NameAndType}
    (hvalue : nameAndTypeAt pool index = .ok value) : ∃ entry, pool.get index = .ok entry := by
  obtain ⟨entry, hget, -⟩ := exists_of_bind hvalue
  exact ⟨entry, hget⟩

theorem get_of_memberAt {owner nameAndType : UInt16} {member : MemberRef}
    (hmember : memberAt pool owner nameAndType = .ok member) :
    ∀ reference ∈ [owner, nameAndType], ∃ entry, pool.get reference = .ok entry := by
  obtain ⟨entry, hget, hrest⟩ := exists_of_bind hmember
  obtain ⟨name, -, hrest⟩ := exists_of_bind hrest
  obtain ⟨value, hvalue, -⟩ := exists_of_bind hrest
  exact List.forall_mem_cons.2
    ⟨⟨entry, hget⟩, List.forall_mem_singleton.2 (get_of_nameAndTypeAt hvalue)⟩

theorem get_of_resolve {entry : RawEntry} {value : Entry}
    (hresolve : entry.resolve pool = .ok value) :
    ∀ reference ∈ entry.references, ∃ found, pool.get reference = .ok found := by
  cases entry with
  | utf8 | integer | float | long | double => exact fun _ hmem => (List.not_mem_nil hmem).elim
  | classRef =>
    obtain ⟨name, hname, -⟩ := map_eq_ok_iff.1 hresolve
    obtain ⟨text, htext, -⟩ := exists_of_bind hname
    exact List.forall_mem_singleton.2 (get_of_textAt htext)
  | string | methodType | moduleRef | packageRef =>
    obtain ⟨text, htext, -⟩ := map_eq_ok_iff.1 hresolve
    exact List.forall_mem_singleton.2 (get_of_textAt htext)
  | fieldRef | methodRef | interfaceMethodRef =>
    obtain ⟨member, hmember, -⟩ := map_eq_ok_iff.1 hresolve
    exact get_of_memberAt hmember
  | nameAndType =>
    obtain ⟨value, hvalue, -⟩ := map_eq_ok_iff.1 hresolve
    obtain ⟨name, hname, hrest⟩ := exists_of_bind hvalue
    obtain ⟨descriptor, hdescriptor, -⟩ := exists_of_bind hrest
    exact List.forall_mem_cons.2
      ⟨get_of_textAt hname, List.forall_mem_singleton.2 (get_of_textAt hdescriptor)⟩
  | methodHandle =>
    obtain ⟨kind, -, hrest⟩ := exists_of_bind hresolve
    obtain ⟨reference, hreference, -⟩ := exists_of_bind hrest
    obtain ⟨found, hget, -⟩ := exists_of_bind hreference
    exact List.forall_mem_singleton.2 ⟨found, hget⟩
  | dynamic | invokeDynamic =>
    obtain ⟨member, hmember, -⟩ := exists_of_bind hresolve
    exact List.forall_mem_singleton.2 (get_of_nameAndTypeAt hmember)

/-- A handle finds its member in an entry that resolves to it, if that is a member it can use. -/
theorem referenceAt_of_resolve {entry : RawEntry} {index : UInt16} {handle : MethodHandle}
    (hget : pool.get index = .ok entry)
    (hresolve : entry.resolve pool = .ok handle.reference.entry)
    (haccepts : handle.kind.accepts handle.reference) :
    referenceAt pool handle.kind index = .ok handle.reference := by
  obtain ⟨kind, reference⟩ := handle
  refine bind_of_ok hget ?_
  have hkind := kind_of_resolve hresolve
  cases reference with
  | field member =>
    cases entry with
    | fieldRef =>
      obtain ⟨found, hfound, hmember⟩ := map_eq_ok_iff.1 hresolve
      cases hmember
      cases kind with
      | getField | getStatic | putField | putStatic => exact map_eq_ok_iff.2 ⟨_, hfound, rfl⟩
      | _ => cases haccepts
    | _ => cases hkind
  | method member =>
    cases entry with
    | methodRef =>
      obtain ⟨found, hfound, hmember⟩ := map_eq_ok_iff.1 hresolve
      cases hmember
      cases kind with
      | getField | getStatic | putField | putStatic | invokeInterface => cases haccepts
      | _ => exact map_eq_ok_iff.2 ⟨_, hfound, rfl⟩
    | _ => cases hkind
  | interfaceMethod member =>
    cases entry with
    | interfaceMethodRef =>
      obtain ⟨found, hfound, hmember⟩ := map_eq_ok_iff.1 hresolve
      cases hmember
      cases kind with
      | invokeStatic | invokeSpecial | invokeInterface => exact map_eq_ok_iff.2 ⟨_, hfound, rfl⟩
      | _ => cases haccepts
    | _ => cases hkind

end RawEntry

/-! ### Valid pools -/

def Slot.raw? : Slot → Option RawEntry
  | .entry _ raw => some raw
  | _ => none

namespace Pool

def stored (pool : Pool) : RawPool :=
  ⟨pool.slots.map Slot.raw?⟩

theorem stored_get_of_slot {pool : Pool} {index : UInt16} {entry : Entry} {raw : RawEntry}
    (hslot : pool.slots[index.toNat]? = some (.entry entry raw)) :
    pool.stored.get index = .ok raw := by
  simp [RawPool.get, stored, hslot, Slot.raw?]

theorem exists_slot_of_stored {pool : Pool} {index : UInt16} {raw : RawEntry}
    (hget : pool.stored.get index = .ok raw) :
    ∃ entry, pool.slots[index.toNat]? = some (.entry entry raw) := by
  unfold RawPool.get at hget
  split at hget
  · rename_i found hfound
    cases hget
    simp only [stored, Array.getElem?_map, Option.map_eq_some_iff] at hfound
    obtain ⟨slot, hslot, hraw⟩ := hfound
    cases slot with
    | entry entry stored =>
      cases hraw
      exact ⟨entry, hslot⟩
    | unused | upperHalf => cases hraw
  · cases hget

theorem Extends.stored_within {pool later : Pool} (hlater : pool.Extends later) :
    pool.stored.Within later.stored := by
  intro index raw hget
  obtain ⟨entry, hslot⟩ := exists_slot_of_stored hget
  exact stored_get_of_slot (hlater.getElem? hslot)

/-- The pool came about by adding constants to the empty one, there is room for its indices, and
what each constant is stored as resolves to that constant. -/
structure Valid (pool : Pool) : Prop where
  built : Pool.empty.Extends pool
  count_le : pool.count ≤ maxCount
  resolves {index : Nat} {entry : Entry} {raw : RawEntry}
    (hslot : pool.slots[index]? = some (.entry entry raw)) : raw.resolve pool.stored = .ok entry

def Writable (pool : Pool) : Prop :=
  ∀ (index : Nat) (entry : Entry) (raw : RawEntry),
    pool.slots[index]? = some (.entry entry raw) → ∃ contents, raw.contents = .ok contents

theorem eq_of_mem_slotsOf {entry found : Entry} {raw stored : RawEntry}
    (hmem : Slot.entry found stored ∈ slotsOf entry raw) : found = entry ∧ stored = raw := by
  unfold slotsOf at hmem
  split at hmem <;> simpa using hmem

/-- A slot with one more constant was there before, or is the one of that constant and comes after
all others. -/
theorem cases_of_getElem?_appended {pool : Pool} {entry found : Entry} {raw stored : RawEntry}
    {index : Nat}
    (hslot : (pool.appended entry raw).slots[index]? = some (.entry found stored)) :
    pool.slots[index]? = some (.entry found stored) ∨
      (pool.count ≤ index ∧ found = entry ∧ stored = raw) := by
  rw [← Array.getElem?_toList, toList_appended] at hslot
  by_cases hold : index < pool.slots.toList.length
  · rw [List.getElem?_append_left hold, Array.getElem?_toList] at hslot
    exact .inl hslot
  · rw [List.getElem?_append_right (Nat.le_of_not_lt hold)] at hslot
    exact .inr ⟨Nat.le_of_not_lt hold, eq_of_mem_slotsOf (List.mem_of_getElem? hslot)⟩

theorem Writable.appended {pool : Pool} (hwritable : pool.Writable) {entry : Entry} {raw : RawEntry}
    (hraw : ∃ contents, raw.contents = .ok contents) : (pool.appended entry raw).Writable := by
  intro index found stored hslot
  rcases cases_of_getElem?_appended hslot with hslot | ⟨-, -, rfl⟩
  · exact hwritable index found stored hslot
  · exact hraw

theorem writable_empty : Pool.empty.Writable := by
  intro index entry raw hslot
  cases index with
  | zero => cases hslot
  | succ index => cases hslot

theorem valid_empty : Pool.empty.Valid where
  built := .refl _
  count_le := by decide
  resolves := by
    intro index entry raw hslot
    cases index with
    | zero => cases hslot
    | succ index => cases hslot

namespace Valid

variable {pool : Pool}

theorem exists_stored (hvalid : pool.Valid) {index : UInt16} {entry : Entry}
    (hget : pool.get index = .ok entry) :
    ∃ raw, pool.stored.get index = .ok raw ∧ raw.resolve pool.stored = .ok entry := by
  obtain ⟨raw, hslot⟩ := get_eq_ok_iff.1 hget
  exact ⟨raw, stored_get_of_slot hslot, hvalid.resolves hslot⟩

theorem ne_zero (hvalid : pool.Valid) {index : UInt16} {entry : Entry}
    (hget : pool.get index = .ok entry) : index ≠ 0 := by
  rintro rfl
  obtain ⟨raw, hslot⟩ := get_eq_ok_iff.1 hget
  have hunused : pool.slots[0]? = some .unused := hvalid.built.getElem? rfl
  rw [show (0 : UInt16).toNat = 0 from rfl, hunused] at hslot
  cases hslot

/-- A constant that resolves in the pool can be added to it. -/
theorem appended (hvalid : pool.Valid) {entry : Entry} {raw : RawEntry}
    (hroom : pool.count + entry.kind.width ≤ maxCount)
    (hresolve : raw.resolve pool.stored = .ok entry) : (pool.appended entry raw).Valid where
  built := hvalid.built.trans (pool.extends_appended entry raw)
  count_le := by
    rw [count_appended]
    exact hroom
  resolves := by
    intro index found stored hslot
    have hwithin := (pool.extends_appended entry raw).stored_within
    rcases cases_of_getElem?_appended hslot with hslot | ⟨-, rfl, rfl⟩
    · exact RawEntry.resolve_refines hwithin stored found (hvalid.resolves hslot)
    · exact RawEntry.resolve_refines hwithin stored found hresolve

theorem textAt (hvalid : pool.Valid) {index : UInt16} {text : Text}
    (hget : pool.get index = .ok (.utf8 text)) : RawEntry.textAt pool.stored index = .ok text := by
  obtain ⟨raw, hstored, hresolve⟩ := hvalid.exists_stored hget
  exact Result.bind_of_ok hstored (Result.during_eq_ok_iff.2 (RawEntry.asUtf8_of_resolve hresolve))

theorem nameAndTypeAt (hvalid : pool.Valid) {index : UInt16} {value : NameAndType}
    (hget : pool.get index = .ok (.nameAndType value)) :
    RawEntry.nameAndTypeAt pool.stored index = .ok value := by
  obtain ⟨raw, hstored, hresolve⟩ := hvalid.exists_stored hget
  exact Result.bind_of_ok hstored
    (Result.during_eq_ok_iff.2 (RawEntry.asNameAndType_of_resolve hresolve))

theorem memberAt (hvalid : pool.Valid) {owner nameAndType : UInt16} {member : MemberRef}
    (howner : pool.get owner = .ok (.classRef member.className))
    (hnameAndType : pool.get nameAndType = .ok (.nameAndType member.nameAndType)) :
    RawEntry.memberAt pool.stored owner nameAndType = .ok member := by
  obtain ⟨raw, hstored, hresolve⟩ := hvalid.exists_stored howner
  refine Result.bind_of_ok hstored ?_
  refine Result.bind_of_ok (Result.during_eq_ok_iff.2 (RawEntry.asClassRef_of_resolve hresolve)) ?_
  exact Result.bind_of_ok (hvalid.nameAndTypeAt hnameAndType) rfl

end Valid

/-! ### Constants that are added -/

/-- Constants were added to the first pool, each of which resolved in the pool it was added to. -/
inductive Accrues (pool : Pool) : Pool → Prop
  | refl : Accrues pool pool
  | append {between : Pool} {entry : Entry} {raw : RawEntry} (hbefore : Accrues pool between)
      (hroom : between.count + entry.kind.width ≤ maxCount)
      (hresolve : raw.resolve between.stored = .ok entry) :
      Accrues pool (between.appended entry raw)

theorem lt_count_of_stored {pool : Pool} {index : UInt16} {raw : RawEntry}
    (hget : pool.stored.get index = .ok raw) : index.toNat < pool.count := by
  unfold RawPool.get at hget
  split at hget
  · rename_i found hslot
    have hlt := (Array.getElem?_eq_some_iff.1 hslot).1
    rwa [stored, Array.size_map] at hlt
  · cases hget

namespace Accrues

theorem trans {first second third : Pool} (hfirst : first.Accrues second)
    (hsecond : second.Accrues third) : first.Accrues third := by
  induction hsecond with
  | refl => exact hfirst
  | append _ hroom hresolve ih => exact .append ih hroom hresolve

theorem valid {pool later : Pool} (haccrues : pool.Accrues later) (hvalid : pool.Valid) :
    later.Valid := by
  induction haccrues with
  | refl => exact hvalid
  | append _ hroom hresolve ih => exact ih.appended hroom hresolve

theorem reference_lt {pool later : Pool} (haccrues : pool.Accrues later) {index : Nat}
    {entry : Entry} {raw : RawEntry} (hnew : pool.count ≤ index)
    (hslot : later.slots[index]? = some (.entry entry raw)) :
    ∀ reference ∈ raw.references, reference.toNat < index := by
  induction haccrues with
  | refl =>
    rw [Array.getElem?_eq_none hnew] at hslot
    cases hslot
  | append _ _ hresolve ih =>
    rcases cases_of_getElem?_appended hslot with hslot | ⟨hlast, rfl, rfl⟩
    · exact ih hslot
    · intro reference hmem
      obtain ⟨found, hget⟩ := RawEntry.get_of_resolve hresolve reference hmem
      exact Nat.lt_of_lt_of_le (lt_count_of_stored hget) hlast

end Accrues

end Pool

end JvmClass
