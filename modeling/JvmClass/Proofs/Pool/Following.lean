import JvmClass.Proofs.Pool.Invariant
import Mathlib.Algebra.Ring.Nat
import Mathlib.Logic.Relation

/-!
# Following references

What stored entries mean, said without resolving them. Each entry stands at the index behind all
entries before it. `Denotes` relates an index to the constant that is found by following the
references from there, and `WellFormed` says that every reference leads to an entry of a kind that
is fit for it. The two belong together: entries are well-formed exactly if each of them denotes a
constant. The references of well-formed entries never lead back to where they started, as they lead
to simpler and simpler kinds.
-/

namespace JvmClass.RawEntry

open Result RawPool

/-! ### Where entries stand -/

def layout : Nat → List RawEntry → List (Nat × RawEntry)
  | _, [] => []
  | start, raw :: raws => (start, raw) :: layout (start + raw.kind.width) raws

def totalWidth (raws : List RawEntry) : Nat :=
  (raws.map fun raw => raw.kind.width).sum

/-- The entry at an index. There is none at index zero, nor behind a long or double in the slot that
it takes as well. -/
def HoldsAt (raws : List RawEntry) (index : UInt16) (raw : RawEntry) : Prop :=
  (index.toNat, raw) ∈ layout 1 raws

theorem width_pos (kind : EntryKind) : 0 < kind.width := by
  unfold EntryKind.width
  split <;> decide

theorem length_slots (raw : RawEntry) : raw.slots.length = raw.kind.width := by
  unfold slots EntryKind.width
  split <;> rfl

theorem length_flatMap_slots (raws : List RawEntry) :
    (raws.flatMap slots).length = totalWidth raws := by
  rw [List.length_flatMap, totalWidth]
  congr 1
  exact List.map_congr_left fun raw _ => length_slots raw

theorem bounds_of_mem_layout {start index : Nat} {raws : List RawEntry} {raw : RawEntry}
    (hmem : (index, raw) ∈ layout start raws) :
    start ≤ index ∧ index < start + totalWidth raws := by
  induction raws generalizing start with
  | nil => cases hmem
  | cons first raws ih =>
    have hpos := width_pos first.kind
    have hwidth : totalWidth (first :: raws) = first.kind.width + totalWidth raws :=
      List.sum_cons
    rcases List.mem_cons.1 hmem with hfirst | hrest
    · cases hfirst
      omega
    · have hbounds := ih hrest
      omega

theorem getElem?_flatMap_slots_iff {raws : List RawEntry} {start offset : Nat} {raw : RawEntry} :
    (raws.flatMap slots)[offset]? = some (some raw) ↔
      (start + offset, raw) ∈ layout start raws := by
  induction raws generalizing start offset with
  | nil => simp [layout]
  | cons first raws ih =>
    have hlater : ∀ shift < first.kind.width, (start + shift, raw) ∉
        layout (start + first.kind.width) raws := by
      intro shift hshift hmem
      have hbounds := bounds_of_mem_layout hmem
      omega
    have hnext : ∀ {shift}, start + (shift + 1) ≠ start := by
      intro shift
      omega
    rw [List.flatMap_cons, layout, List.mem_cons, Prod.mk.injEq]
    by_cases hwide : first.kind.isWide = true
    · have hwidth : first.kind.width = 2 := if_pos hwide
      rw [slots_of_isWide hwide, hwidth]
      rw [hwidth] at hlater
      match offset with
      | 0 =>
        rw [or_iff_left (hlater 0 (by decide))]
        simp [eq_comm]
      | 1 => simp [hlater 1 (by decide)]
      | offset + 2 =>
        rw [or_iff_right fun hfirst => hnext hfirst.1, Nat.add_comm offset, ← Nat.add_assoc, ← ih]
        simp [Nat.add_comm 2]
    · have hwidth : first.kind.width = 1 := if_neg hwide
      rw [slots_of_not_isWide hwide, hwidth]
      rw [hwidth] at hlater
      match offset with
      | 0 =>
        rw [or_iff_left (hlater 0 (by decide))]
        simp [eq_comm]
      | offset + 1 =>
        rw [or_iff_right fun hfirst => hnext hfirst.1, Nat.add_comm offset, ← Nat.add_assoc, ← ih]
        simp [Nat.add_comm 1]

theorem get_ofEntries_iff {raws : List RawEntry} {index : UInt16} {raw : RawEntry} :
    (ofEntries raws).get index = .ok raw ↔ HoldsAt raws index raw := by
  have hget : (ofEntries raws).get index = .ok raw ↔
      (none :: raws.flatMap slots)[index.toNat]? = some (some raw) := by
    unfold RawPool.get ofEntries
    rw [List.getElem?_toArray]
    split <;> simp_all
  rw [hget, HoldsAt]
  cases hindex : index.toNat with
  | zero =>
    refine iff_of_false (by simp) fun hmem => ?_
    exact absurd (bounds_of_mem_layout hmem).1 (by decide)
  | succ offset => rw [List.getElem?_cons_succ, getElem?_flatMap_slots_iff, Nat.add_comm 1]

theorem HoldsAt.unique {raws : List RawEntry} {index : UInt16} {raw other : RawEntry}
    (hraw : HoldsAt raws index raw) (hother : HoldsAt raws index other) : raw = other :=
  Except.ok.inj ((get_ofEntries_iff.2 hraw).symm.trans (get_ofEntries_iff.2 hother))

/-! ### What entries refer to -/

/-- The kinds of entries that a method handle of a reference kind, which is given as a byte, can
refer to. -/
def handleKinds : UInt8 → List EntryKind
  | 1 | 2 | 3 | 4 => [.fieldRef]
  | 5 | 8 => [.methodRef]
  | 6 | 7 => [.methodRef, .interfaceMethodRef]
  | 9 => [.interfaceMethodRef]
  | _ => []

/-- The indices in an entry, each with the kinds of entries that may be there. -/
def needs : RawEntry → List (UInt16 × List EntryKind)
  | utf8 _ | integer _ | float _ | long _ | double _ => []
  | classRef index | string index | methodType index | moduleRef index | packageRef index =>
    [(index, [.utf8])]
  | nameAndType name descriptor => [(name, [.utf8]), (descriptor, [.utf8])]
  | fieldRef owner member | methodRef owner member | interfaceMethodRef owner member =>
    [(owner, [.classRef]), (member, [.nameAndType])]
  | methodHandle kind reference => [(reference, handleKinds kind)]
  | dynamic _ member | invokeDynamic _ member => [(member, [.nameAndType])]

def Fits (raws : List RawEntry) (index : UInt16) (kinds : List EntryKind) : Prop :=
  ∃ found, HoldsAt raws index found ∧ found.kind ∈ kinds

/-- Every index in an entry leads to an entry that may be there, and the name of every class is a
class name. -/
structure WellFormed (raws : List RawEntry) : Prop where
  fits {index : UInt16} {raw : RawEntry} (hholds : HoldsAt raws index raw) :
    ∀ need ∈ raw.needs, Fits raws need.1 need.2
  isClassName {index name : UInt16} {text : Text} (hholds : HoldsAt raws index (classRef name))
    (hname : HoldsAt raws name (utf8 text)) : text.isClassName

/-- The constant at an index, which is found by following the references from there. -/
inductive Denotes (raws : List RawEntry) : UInt16 → Entry → Prop
  | utf8 {index : UInt16} {text : Text} (hholds : HoldsAt raws index (utf8 text)) :
      Denotes raws index (.utf8 text)
  | integer {index : UInt16} {value : Int32} (hholds : HoldsAt raws index (integer value)) :
      Denotes raws index (.integer value)
  | float {index : UInt16} {bits : UInt32} (hholds : HoldsAt raws index (float bits)) :
      Denotes raws index (.float bits)
  | long {index : UInt16} {value : Int64} (hholds : HoldsAt raws index (long value)) :
      Denotes raws index (.long value)
  | double {index : UInt16} {bits : UInt64} (hholds : HoldsAt raws index (double bits)) :
      Denotes raws index (.double bits)
  | classRef {index nameIndex : UInt16} {name : ClassName}
      (hholds : HoldsAt raws index (classRef nameIndex))
      (hname : Denotes raws nameIndex (.utf8 name.text)) : Denotes raws index (.classRef name)
  | string {index textIndex : UInt16} {text : Text}
      (hholds : HoldsAt raws index (string textIndex))
      (htext : Denotes raws textIndex (.utf8 text)) : Denotes raws index (.string text)
  | fieldRef {index owner nameAndType : UInt16} {member : MemberRef}
      (hholds : HoldsAt raws index (fieldRef owner nameAndType))
      (howner : Denotes raws owner (.classRef member.className))
      (hmember : Denotes raws nameAndType (.nameAndType member.nameAndType)) :
      Denotes raws index (.fieldRef member)
  | methodRef {index owner nameAndType : UInt16} {member : MemberRef}
      (hholds : HoldsAt raws index (methodRef owner nameAndType))
      (howner : Denotes raws owner (.classRef member.className))
      (hmember : Denotes raws nameAndType (.nameAndType member.nameAndType)) :
      Denotes raws index (.methodRef member)
  | interfaceMethodRef {index owner nameAndType : UInt16} {member : MemberRef}
      (hholds : HoldsAt raws index (interfaceMethodRef owner nameAndType))
      (howner : Denotes raws owner (.classRef member.className))
      (hmember : Denotes raws nameAndType (.nameAndType member.nameAndType)) :
      Denotes raws index (.interfaceMethodRef member)
  | nameAndType {index name descriptor : UInt16} {value : NameAndType}
      (hholds : HoldsAt raws index (nameAndType name descriptor))
      (hname : Denotes raws name (.utf8 value.name))
      (hdescriptor : Denotes raws descriptor (.utf8 value.descriptor)) :
      Denotes raws index (.nameAndType value)
  | methodHandle {index referenceIndex : UInt16} {handle : MethodHandle}
      (hholds : HoldsAt raws index (methodHandle handle.kind.toByte referenceIndex))
      (hreference : Denotes raws referenceIndex handle.reference.entry)
      (haccepts : handle.kind.accepts handle.reference) : Denotes raws index (.methodHandle handle)
  | methodType {index descriptorIndex : UInt16} {descriptor : Text}
      (hholds : HoldsAt raws index (methodType descriptorIndex))
      (hdescriptor : Denotes raws descriptorIndex (.utf8 descriptor)) :
      Denotes raws index (.methodType descriptor)
  | dynamic {index nameAndType : UInt16} {value : DynamicRef}
      (hholds : HoldsAt raws index (dynamic value.bootstrapIndex nameAndType))
      (hmember : Denotes raws nameAndType (.nameAndType value.nameAndType)) :
      Denotes raws index (.dynamic value)
  | invokeDynamic {index nameAndType : UInt16} {value : DynamicRef}
      (hholds : HoldsAt raws index (invokeDynamic value.bootstrapIndex nameAndType))
      (hmember : Denotes raws nameAndType (.nameAndType value.nameAndType)) :
      Denotes raws index (.invokeDynamic value)
  | moduleRef {index nameIndex : UInt16} {name : Text}
      (hholds : HoldsAt raws index (moduleRef nameIndex))
      (hname : Denotes raws nameIndex (.utf8 name)) : Denotes raws index (.moduleRef name)
  | packageRef {index nameIndex : UInt16} {name : Text}
      (hholds : HoldsAt raws index (packageRef nameIndex))
      (hname : Denotes raws nameIndex (.utf8 name)) : Denotes raws index (.packageRef name)

variable {raws : List RawEntry}

theorem Denotes.exists_holdsAt {index : UInt16} {entry : Entry}
    (hdenotes : Denotes raws index entry) :
    ∃ raw, HoldsAt raws index raw ∧ raw.kind = entry.kind := by
  cases hdenotes <;> exact ⟨_, ‹HoldsAt raws index _›, rfl⟩

/-! ### Resolving -/

theorem textAt_iff {index : UInt16} {text : Text} :
    textAt (ofEntries raws) index = .ok text ↔ Denotes raws index (.utf8 text) := by
  constructor
  · intro htext
    obtain ⟨entry, hget, hentry⟩ := exists_of_bind htext
    rw [during_eq_ok_iff] at hentry
    cases entry with
    | utf8 found =>
      cases hentry
      exact .utf8 (get_ofEntries_iff.1 hget)
    | _ => cases hentry
  · rintro ⟨hholds⟩
    exact bind_of_ok (get_ofEntries_iff.2 hholds) (during_eq_ok_iff.2 rfl)

theorem ofText_eq_ok_iff {text : Text} {name : ClassName} :
    ClassName.ofText text = .ok name ↔ name.text = text := by
  unfold ClassName.ofText ClassName.ofText?
  constructor
  · intro hname
    split at hname
    · rename_i found hfound
      split at hfound
      · cases hfound
        cases hname
        rfl
      · cases hfound
    · cases hname
  · rintro rfl
    rw [dif_pos name.isClassName]

theorem asClassRef_iff {index : UInt16} {raw : RawEntry} {name : ClassName}
    (hholds : HoldsAt raws index raw) :
    raw.asClassRef (ofEntries raws) = .ok name ↔ Denotes raws index (.classRef name) := by
  constructor
  · intro hname
    cases raw with
    | classRef nameIndex =>
      obtain ⟨text, htext, hofText⟩ := exists_of_bind hname
      rw [ofText_eq_ok_iff] at hofText
      subst hofText
      exact .classRef hholds (textAt_iff.1 htext)
    | _ => cases hname
  · intro hdenotes
    cases hdenotes with
    | classRef hfound hname =>
      cases hholds.unique hfound
      exact bind_of_ok (textAt_iff.2 hname) (ofText_eq_ok_iff.2 rfl)

theorem nameAndTypeAt_iff {index : UInt16} {value : NameAndType} :
    nameAndTypeAt (ofEntries raws) index = .ok value ↔ Denotes raws index (.nameAndType value) := by
  constructor
  · intro hvalue
    obtain ⟨raw, hget, hraw⟩ := exists_of_bind hvalue
    rw [during_eq_ok_iff] at hraw
    cases raw with
    | nameAndType nameIndex descriptorIndex =>
      obtain ⟨name, hname, hrest⟩ := exists_of_bind hraw
      obtain ⟨descriptor, hdescriptor, hvalue⟩ := exists_of_bind hrest
      cases hvalue
      exact .nameAndType (get_ofEntries_iff.1 hget) (textAt_iff.1 hname)
        (textAt_iff.1 hdescriptor)
    | _ => cases hraw
  · intro hdenotes
    cases hdenotes with
    | nameAndType hholds hname hdescriptor =>
      refine bind_of_ok (get_ofEntries_iff.2 hholds) (during_eq_ok_iff.2 ?_)
      exact bind_of_ok (textAt_iff.2 hname) (bind_of_ok (textAt_iff.2 hdescriptor) rfl)

theorem memberAt_iff {owner nameAndType : UInt16} {member : MemberRef} :
    memberAt (ofEntries raws) owner nameAndType = .ok member ↔
      Denotes raws owner (.classRef member.className) ∧
        Denotes raws nameAndType (.nameAndType member.nameAndType) := by
  constructor
  · intro hmember
    obtain ⟨raw, hget, hrest⟩ := exists_of_bind hmember
    obtain ⟨name, hname, hrest⟩ := exists_of_bind hrest
    obtain ⟨value, hvalue, hmember⟩ := exists_of_bind hrest
    rw [during_eq_ok_iff] at hname
    cases hmember
    exact ⟨(asClassRef_iff (get_ofEntries_iff.1 hget)).1 hname, nameAndTypeAt_iff.1 hvalue⟩
  · rintro ⟨howner, hvalue⟩
    obtain ⟨raw, hholds, -⟩ := howner.exists_holdsAt
    refine bind_of_ok (get_ofEntries_iff.2 hholds) ?_
    refine bind_of_ok (during_eq_ok_iff.2 ((asClassRef_iff hholds).2 howner)) ?_
    exact bind_of_ok (nameAndTypeAt_iff.2 hvalue) rfl

/-- What an entry other than a method handle resolves to is found by following its references. -/
private theorem denotes_of_resolve {index : UInt16} {raw : RawEntry} {entry : Entry}
    (hholds : HoldsAt raws index raw) (hne : raw.kind ≠ .methodHandle)
    (hresolve : raw.resolve (ofEntries raws) = .ok entry) : Denotes raws index entry := by
  cases raw with
  | methodHandle => exact absurd rfl hne
  | utf8 | integer | float | long | double =>
    cases hresolve
    constructor
    exact hholds
  | classRef =>
    obtain ⟨name, hname, rfl⟩ := map_eq_ok_iff.1 hresolve
    exact (asClassRef_iff hholds).1 hname
  | nameAndType =>
    obtain ⟨value, hvalue, rfl⟩ := map_eq_ok_iff.1 hresolve
    exact nameAndTypeAt_iff.1
      (bind_of_ok (get_ofEntries_iff.2 hholds) (during_eq_ok_iff.2 hvalue))
  | string | methodType | moduleRef | packageRef =>
    obtain ⟨text, htext, rfl⟩ := map_eq_ok_iff.1 hresolve
    have hdenotes := textAt_iff.1 htext
    constructor <;> assumption
  | fieldRef | methodRef | interfaceMethodRef =>
    obtain ⟨member, hmember, rfl⟩ := map_eq_ok_iff.1 hresolve
    obtain ⟨howner, hvalue⟩ := memberAt_iff.1 hmember
    constructor <;> assumption
  | dynamic | invokeDynamic =>
    obtain ⟨value, hvalue, hentry⟩ := exists_of_bind hresolve
    cases hentry
    have hdenotes := nameAndTypeAt_iff.1 hvalue
    constructor <;> assumption

private theorem resolve_of_denotes {index : UInt16} {raw : RawEntry} {entry : Entry}
    (hholds : HoldsAt raws index raw) (hne : raw.kind ≠ .methodHandle)
    (hdenotes : Denotes raws index entry) : raw.resolve (ofEntries raws) = .ok entry := by
  cases hdenotes with
  | utf8 hfound | integer hfound | float hfound | long hfound | double hfound =>
    cases hholds.unique hfound
    rfl
  | classRef hfound hname =>
    cases hholds.unique hfound
    exact map_eq_ok_iff.2 ⟨_, (asClassRef_iff hholds).2 (.classRef hfound hname), rfl⟩
  | string hfound htext | methodType hfound htext | moduleRef hfound htext
  | packageRef hfound htext =>
    cases hholds.unique hfound
    exact map_eq_ok_iff.2 ⟨_, textAt_iff.2 htext, rfl⟩
  | fieldRef hfound howner hmember | methodRef hfound howner hmember
  | interfaceMethodRef hfound howner hmember =>
    cases hholds.unique hfound
    exact map_eq_ok_iff.2 ⟨_, memberAt_iff.2 ⟨howner, hmember⟩, rfl⟩
  | nameAndType hfound hname hdescriptor =>
    cases hholds.unique hfound
    refine map_eq_ok_iff.2 ⟨_, ?_, rfl⟩
    exact bind_of_ok (textAt_iff.2 hname) (bind_of_ok (textAt_iff.2 hdescriptor) rfl)
  | dynamic hfound hmember | invokeDynamic hfound hmember =>
    cases hholds.unique hfound
    exact bind_of_ok (nameAndTypeAt_iff.2 hmember) rfl
  | methodHandle hfound =>
    cases hholds.unique hfound
    exact absurd rfl hne

/-- A handle that finds its member finds it at the index that it refers to. -/
theorem exists_of_referenceAt {stored : RawPool} {kind : ReferenceKind} {index : UInt16}
    {reference : HandleReference} (hreference : referenceAt stored kind index = .ok reference) :
    ∃ raw, stored.get index = .ok raw ∧ raw.resolve stored = .ok reference.entry := by
  obtain ⟨raw, hget, hraw⟩ := exists_of_bind hreference
  refine ⟨raw, hget, ?_⟩
  cases kind with
  | getField | getStatic | putField | putStatic =>
    obtain ⟨member, hmember, rfl⟩ := map_eq_ok_iff.1 hraw
    cases raw with
    | fieldRef => exact map_eq_ok_iff.2 ⟨_, hmember, rfl⟩
    | _ => cases hmember
  | invokeVirtual | newInvokeSpecial =>
    obtain ⟨member, hmember, rfl⟩ := map_eq_ok_iff.1 hraw
    cases raw with
    | methodRef => exact map_eq_ok_iff.2 ⟨_, hmember, rfl⟩
    | _ => cases hmember
  | invokeStatic | invokeSpecial =>
    cases raw with
    | methodRef | interfaceMethodRef =>
      obtain ⟨member, hmember, rfl⟩ := map_eq_ok_iff.1 hraw
      exact map_eq_ok_iff.2 ⟨_, hmember, rfl⟩
    | _ => cases hraw
  | invokeInterface =>
    obtain ⟨member, hmember, rfl⟩ := map_eq_ok_iff.1 hraw
    cases raw with
    | interfaceMethodRef => exact map_eq_ok_iff.2 ⟨_, hmember, rfl⟩
    | _ => cases hmember

theorem kind_reference_ne (reference : HandleReference) :
    reference.entry.kind ≠ .methodHandle := by
  cases reference <;>
  · intro hkind
    cases hkind

theorem ofByte_eq_ok_iff {byte : UInt8} {kind : ReferenceKind} :
    ReferenceKind.ofByte byte = .ok kind ↔ kind.toByte = byte := by
  constructor
  · intro hkind
    unfold ReferenceKind.ofByte ReferenceKind.ofByte? at hkind
    split at hkind
    · rename_i found hfound
      cases hkind
      split at hfound <;> cases hfound <;> rfl
    · cases hkind
  · rintro rfl
    exact Pool.ofByte_toByte kind

theorem referenceAt_iff {kind : ReferenceKind} {index : UInt16} {reference : HandleReference} :
    referenceAt (ofEntries raws) kind index = .ok reference ↔
      Denotes raws index reference.entry ∧ kind.accepts reference := by
  constructor
  · intro hreference
    obtain ⟨raw, hget, hresolve⟩ := exists_of_referenceAt hreference
    refine ⟨?_, accepts_of_referenceAt hreference⟩
    apply denotes_of_resolve (get_ofEntries_iff.1 hget) _ hresolve
    rw [← kind_of_resolve hresolve]
    exact kind_reference_ne reference
  · rintro ⟨hdenotes, haccepts⟩
    obtain ⟨raw, hholds, hkind⟩ := hdenotes.exists_holdsAt
    have hne : raw.kind ≠ .methodHandle := hkind ▸ kind_reference_ne reference
    have hresolve := resolve_of_denotes hholds hne hdenotes
    exact @referenceAt_of_resolve _ _ _ ⟨kind, reference⟩ (get_ofEntries_iff.2 hholds) hresolve
      haccepts

/-- What an entry resolves to is what is found by following its references. -/
theorem resolve_iff {index : UInt16} {raw : RawEntry} {entry : Entry}
    (hholds : HoldsAt raws index raw) :
    raw.resolve (ofEntries raws) = .ok entry ↔ Denotes raws index entry := by
  by_cases hhandle : raw.kind = .methodHandle
  · cases raw with
    | methodHandle byte referenceIndex =>
      constructor
      · intro hresolve
        obtain ⟨kind, hkind, hrest⟩ := exists_of_bind hresolve
        obtain ⟨reference, hreference, hentry⟩ := exists_of_bind hrest
        cases hentry
        obtain ⟨hdenotes, haccepts⟩ := referenceAt_iff.1 hreference
        rw [← ofByte_eq_ok_iff.1 hkind] at hholds
        exact .methodHandle hholds hdenotes haccepts
      · intro hdenotes
        obtain ⟨found, hfound, hkind⟩ := hdenotes.exists_holdsAt
        cases hholds.unique hfound
        cases hdenotes with
        | methodHandle hfound hreference haccepts =>
          cases hholds.unique hfound
          refine bind_of_ok (ofByte_eq_ok_iff.2 rfl) ?_
          exact bind_of_ok (referenceAt_iff.2 ⟨hreference, haccepts⟩) rfl
        | _ => cases hkind
    | _ => cases hhandle
  · exact ⟨denotes_of_resolve hholds hhandle, resolve_of_denotes hholds hhandle⟩

/-! ### Well-formed entries -/

theorem mem_handleKinds_iff {kind : ReferenceKind} {reference : HandleReference} :
    reference.entry.kind ∈ handleKinds kind.toByte ↔ kind.accepts reference := by
  cases kind <;> cases reference <;>
    simp [handleKinds, ReferenceKind.toByte, HandleReference.entry, Entry.kind,
      ReferenceKind.accepts]

def memberKinds : List EntryKind :=
  [.fieldRef, .methodRef, .interfaceMethodRef]

theorem handleKinds_subset (kind : ReferenceKind) : handleKinds kind.toByte ⊆ memberKinds := by
  cases kind <;> decide

theorem exists_toByte_of_mem_handleKinds {byte : UInt8} {entryKind : EntryKind}
    (hmem : entryKind ∈ handleKinds byte) : ∃ kind : ReferenceKind, kind.toByte = byte := by
  unfold handleKinds at hmem
  split at hmem
  · exact ⟨.getField, rfl⟩
  · exact ⟨.getStatic, rfl⟩
  · exact ⟨.putField, rfl⟩
  · exact ⟨.putStatic, rfl⟩
  · exact ⟨.invokeVirtual, rfl⟩
  · exact ⟨.newInvokeSpecial, rfl⟩
  · exact ⟨.invokeStatic, rfl⟩
  · exact ⟨.invokeSpecial, rfl⟩
  · exact ⟨.invokeInterface, rfl⟩
  · cases hmem

theorem isClassName_of_denotes {index name : UInt16} {text : Text} {entry : Entry}
    (hholds : HoldsAt raws index (classRef name)) (hname : HoldsAt raws name (utf8 text))
    (hdenotes : Denotes raws index entry) : text.isClassName := by
  obtain ⟨className, hclass⟩ := Result.exists_of_map ((resolve_iff hholds).2 hdenotes)
  obtain ⟨found, hfound, hclassName⟩ := exists_of_bind hclass
  rw [textAt_iff.2 (.utf8 hname)] at hfound
  cases hfound
  rw [← ofText_eq_ok_iff.1 hclassName]
  exact className.isClassName

/-- Where a constant was found, every index leads to an entry that may be there. -/
theorem fits_of_denotes {index : UInt16} {raw : RawEntry} {entry : Entry}
    (hholds : HoldsAt raws index raw) (hdenotes : Denotes raws index entry) :
    ∀ need ∈ raw.needs, Fits raws need.1 need.2 := by
  have hone : ∀ {reference : UInt16} {kinds : List EntryKind} {part : Entry},
      Denotes raws reference part → part.kind ∈ kinds → Fits raws reference kinds := by
    intro reference kinds part hpart hkind
    obtain ⟨found, hfound, heq⟩ := hpart.exists_holdsAt
    exact ⟨found, hfound, heq ▸ hkind⟩
  cases hdenotes with
  | utf8 hfound | integer hfound | float hfound | long hfound | double hfound =>
    cases hholds.unique hfound
    exact List.forall_mem_nil _
  | classRef hfound hpart | string hfound hpart | methodType hfound hpart
  | moduleRef hfound hpart | packageRef hfound hpart | dynamic hfound hpart
  | invokeDynamic hfound hpart =>
    cases hholds.unique hfound
    exact List.forall_mem_singleton.2 (hone hpart List.mem_cons_self)
  | fieldRef hfound hfirst hsecond | methodRef hfound hfirst hsecond
  | interfaceMethodRef hfound hfirst hsecond | nameAndType hfound hfirst hsecond =>
    cases hholds.unique hfound
    exact List.forall_mem_cons.2 ⟨hone hfirst List.mem_cons_self,
      List.forall_mem_singleton.2 (hone hsecond List.mem_cons_self)⟩
  | methodHandle hfound hreference haccepts =>
    cases hholds.unique hfound
    exact List.forall_mem_singleton.2 (hone hreference (mem_handleKinds_iff.2 haccepts))

theorem exists_utf8 {index : UInt16} (hfits : Fits raws index [.utf8]) :
    ∃ text, Denotes raws index (.utf8 text) := by
  obtain ⟨raw, hholds, hkind⟩ := hfits
  cases raw with
  | utf8 text => exact ⟨text, .utf8 hholds⟩
  | _ => simp [kind] at hkind

namespace WellFormed

variable (hwell : WellFormed raws)
include hwell

theorem exists_classRef {index : UInt16} (hfits : Fits raws index [.classRef]) :
    ∃ name, Denotes raws index (.classRef name) := by
  obtain ⟨raw, hholds, hkind⟩ := hfits
  cases raw with
  | classRef nameIndex =>
    obtain ⟨text, hname⟩ := exists_utf8 (hwell.fits hholds _ List.mem_cons_self)
    cases hname with
    | utf8 hfound =>
      exact ⟨⟨text, hwell.isClassName hholds hfound⟩, .classRef hholds (.utf8 hfound)⟩
  | _ => simp [kind] at hkind

theorem exists_nameAndType {index : UInt16} (hfits : Fits raws index [.nameAndType]) :
    ∃ value, Denotes raws index (.nameAndType value) := by
  obtain ⟨raw, hholds, hkind⟩ := hfits
  cases raw with
  | nameAndType nameIndex descriptorIndex =>
    obtain ⟨hfirst, hsecond⟩ := List.forall_mem_cons.1 (hwell.fits hholds)
    obtain ⟨name, hname⟩ := exists_utf8 hfirst
    obtain ⟨descriptor, hdescriptor⟩ := exists_utf8 (hsecond _ List.mem_cons_self)
    exact ⟨⟨name, descriptor⟩, .nameAndType hholds hname hdescriptor⟩
  | _ => simp [kind] at hkind

theorem exists_reference {index : UInt16} {raw : RawEntry} (hholds : HoldsAt raws index raw)
    (hkind : raw.kind ∈ memberKinds) :
    ∃ reference : HandleReference,
      Denotes raws index reference.entry ∧ reference.entry.kind = raw.kind := by
  have hmember : ∀ {owner nameAndType}, raw.needs = [(owner, [.classRef]),
      (nameAndType, [.nameAndType])] → ∃ member : MemberRef,
        Denotes raws owner (.classRef member.className) ∧
        Denotes raws nameAndType (.nameAndType member.nameAndType) := by
    intro owner nameAndType hneeds
    have hfits := hwell.fits hholds
    rw [hneeds] at hfits
    obtain ⟨hfirst, hsecond⟩ := List.forall_mem_cons.1 hfits
    obtain ⟨className, hclass⟩ := hwell.exists_classRef hfirst
    obtain ⟨value, hvalue⟩ := hwell.exists_nameAndType (hsecond _ List.mem_cons_self)
    exact ⟨⟨className, value.name, value.descriptor⟩, hclass, hvalue⟩
  cases raw with
  | fieldRef =>
    obtain ⟨member, hclass, hvalue⟩ := hmember rfl
    exact ⟨.field member, .fieldRef hholds hclass hvalue, rfl⟩
  | methodRef =>
    obtain ⟨member, hclass, hvalue⟩ := hmember rfl
    exact ⟨.method member, .methodRef hholds hclass hvalue, rfl⟩
  | interfaceMethodRef =>
    obtain ⟨member, hclass, hvalue⟩ := hmember rfl
    exact ⟨.interfaceMethod member, .interfaceMethodRef hholds hclass hvalue, rfl⟩
  | _ => simp [memberKinds, RawEntry.kind] at hkind

theorem exists_handle {index : UInt16} {byte : UInt8}
    (hfits : Fits raws index (handleKinds byte)) :
    ∃ handle : MethodHandle, handle.kind.toByte = byte ∧
      Denotes raws index handle.reference.entry ∧ handle.kind.accepts handle.reference := by
  obtain ⟨raw, hholds, hkind⟩ := hfits
  obtain ⟨kind, rfl⟩ := exists_toByte_of_mem_handleKinds hkind
  obtain ⟨reference, hdenotes, hsame⟩ :=
    hwell.exists_reference hholds (handleKinds_subset kind hkind)
  exact ⟨⟨kind, reference⟩, rfl, hdenotes, mem_handleKinds_iff.1 (hsame ▸ hkind)⟩

/-- Each of well-formed entries denotes a constant. -/
theorem exists_denotes {index : UInt16} {raw : RawEntry} (hholds : HoldsAt raws index raw) :
    ∃ entry, Denotes raws index entry := by
  have hfits := hwell.fits hholds
  cases raw with
  | utf8 => exact ⟨_, .utf8 hholds⟩
  | integer => exact ⟨_, .integer hholds⟩
  | float => exact ⟨_, .float hholds⟩
  | long => exact ⟨_, .long hholds⟩
  | double => exact ⟨_, .double hholds⟩
  | classRef =>
    obtain ⟨name, hname⟩ := hwell.exists_classRef ⟨_, hholds, List.mem_cons_self⟩
    exact ⟨_, hname⟩
  | nameAndType =>
    obtain ⟨value, hvalue⟩ := hwell.exists_nameAndType ⟨_, hholds, List.mem_cons_self⟩
    exact ⟨_, hvalue⟩
  | string =>
    obtain ⟨text, htext⟩ := exists_utf8 (hfits _ List.mem_cons_self)
    exact ⟨_, .string hholds htext⟩
  | methodType =>
    obtain ⟨text, htext⟩ := exists_utf8 (hfits _ List.mem_cons_self)
    exact ⟨_, .methodType hholds htext⟩
  | moduleRef =>
    obtain ⟨text, htext⟩ := exists_utf8 (hfits _ List.mem_cons_self)
    exact ⟨_, .moduleRef hholds htext⟩
  | packageRef =>
    obtain ⟨text, htext⟩ := exists_utf8 (hfits _ List.mem_cons_self)
    exact ⟨_, .packageRef hholds htext⟩
  | fieldRef | methodRef | interfaceMethodRef =>
    obtain ⟨reference, hreference, -⟩ :=
      hwell.exists_reference hholds (by simp [memberKinds, RawEntry.kind])
    exact ⟨_, hreference⟩
  | methodHandle byte =>
    obtain ⟨handle, rfl, hdenotes, haccepts⟩ := hwell.exists_handle (hfits _ List.mem_cons_self)
    exact ⟨_, .methodHandle hholds hdenotes haccepts⟩
  | dynamic bootstrap =>
    obtain ⟨value, hvalue⟩ := hwell.exists_nameAndType (hfits _ List.mem_cons_self)
    exact ⟨.dynamic ⟨bootstrap, value.name, value.descriptor⟩, .dynamic hholds hvalue⟩
  | invokeDynamic bootstrap =>
    obtain ⟨value, hvalue⟩ := hwell.exists_nameAndType (hfits _ List.mem_cons_self)
    exact ⟨.invokeDynamic ⟨bootstrap, value.name, value.descriptor⟩, .invokeDynamic hholds hvalue⟩

end WellFormed

theorem wellFormed_iff :
    WellFormed raws ↔
      ∀ index raw, HoldsAt raws index raw → ∃ entry, Denotes raws index entry := by
  constructor
  · intro hwell index raw hholds
    exact hwell.exists_denotes hholds
  · intro hdenotes
    constructor
    · intro index raw hholds
      obtain ⟨entry, hentry⟩ := hdenotes index raw hholds
      exact fits_of_denotes hholds hentry
    · intro index name text hholds hname
      obtain ⟨entry, hentry⟩ := hdenotes index _ hholds
      exact isClassName_of_denotes hholds hname hentry

/-! ### Cycles -/

def RefersTo (raws : List RawEntry) (index reference : UInt16) : Prop :=
  ∃ raw, HoldsAt raws index raw ∧ ∃ kinds, (reference, kinds) ∈ raw.needs

theorem rank_lt_of_mem_needs {raw : RawEntry} {reference : UInt16} {kinds : List EntryKind}
    {kind : EntryKind} (hneed : (reference, kinds) ∈ raw.needs) (hkind : kind ∈ kinds) :
    PoolM.rank kind < PoolM.rank raw.kind := by
  cases raw with
  | methodHandle byte index =>
    cases List.mem_singleton.1 hneed
    obtain ⟨referenceKind, rfl⟩ := exists_toByte_of_mem_handleKinds hkind
    have hmember := handleKinds_subset referenceKind hkind
    simp only [memberKinds, List.mem_cons, List.not_mem_nil, or_false] at hmember
    rcases hmember with rfl | rfl | rfl <;> exact Nat.lt_succ_self 2
  | utf8 | integer | float | long | double => cases hneed
  | _ =>
    simp only [needs, List.mem_cons, List.not_mem_nil, or_false, Prod.mk.injEq] at hneed
    grind [PoolM.rank, RawEntry.kind]

namespace WellFormed

/-- One reference leads to a simpler entry. -/
theorem exists_of_refersTo (hwell : WellFormed raws) {index reference : UInt16} {raw : RawEntry}
    (hrefers : RefersTo raws index reference) (hholds : HoldsAt raws index raw) :
    ∃ found, HoldsAt raws reference found ∧ PoolM.rank found.kind < PoolM.rank raw.kind := by
  obtain ⟨other, hother, kinds, hneed⟩ := hrefers
  cases hholds.unique hother
  obtain ⟨found, hfound, hkind⟩ := hwell.fits hholds _ hneed
  exact ⟨found, hfound, rank_lt_of_mem_needs hneed hkind⟩

theorem exists_of_transGen (hwell : WellFormed raws) {first last : UInt16} {raw : RawEntry}
    (htrans : Relation.TransGen (RefersTo raws) first last) (hholds : HoldsAt raws first raw) :
    ∃ found, HoldsAt raws last found ∧ PoolM.rank found.kind < PoolM.rank raw.kind := by
  induction htrans with
  | single hrefers => exact hwell.exists_of_refersTo hrefers hholds
  | tail _ hrefers ih =>
    obtain ⟨between, hbetween, hlt⟩ := ih
    obtain ⟨found, hfound, hless⟩ := hwell.exists_of_refersTo hrefers hbetween
    exact ⟨found, hfound, Nat.lt_trans hless hlt⟩

/-- References of well-formed entries do not lead back to where they started. -/
theorem not_transGen (hwell : WellFormed raws) (index : UInt16) :
    ¬Relation.TransGen (RefersTo raws) index index := by
  intro hcycle
  obtain ⟨next, ⟨raw, hholds, -⟩, -⟩ := Relation.TransGen.head'_iff.1 hcycle
  obtain ⟨found, hfound, hlt⟩ := hwell.exists_of_transGen hcycle hholds
  cases hholds.unique hfound
  exact Nat.lt_irrefl _ hlt

end WellFormed

end JvmClass.RawEntry

namespace JvmClass.Pool

open RawEntry

theorem Valid.get_iff {pool : Pool} (hvalid : pool.Valid) {raws : List RawEntry}
    (hstored : pool.stored = RawPool.ofEntries raws) {index : UInt16} {entry : Entry} :
    pool.get index = .ok entry ↔ Denotes raws index entry := by
  constructor
  · intro hget
    obtain ⟨raw, hraw, hresolve⟩ := hvalid.exists_stored hget
    rw [hstored] at hraw hresolve
    exact (resolve_iff (get_ofEntries_iff.1 hraw)).1 hresolve
  · intro hdenotes
    obtain ⟨raw, hholds, -⟩ := hdenotes.exists_holdsAt
    have hraw : pool.stored.get index = .ok raw := by
      rw [hstored, get_ofEntries_iff]
      exact hholds
    obtain ⟨found, hslot⟩ := exists_slot_of_stored hraw
    have hfound := hvalid.resolves hslot
    rw [hstored, (resolve_iff hholds).2 hdenotes] at hfound
    cases hfound
    exact get_eq_ok_iff.2 ⟨raw, hslot⟩

end JvmClass.Pool
