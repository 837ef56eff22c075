import JvmClass.Pool.Writer

/-!
# Pools only grow

A pool changes by constants that are added at its end, which leaves all slots before them as they
are. `Extends` is that order on pools: what was found once, by index or by constant, is found in
every later pool too.
-/

namespace JvmClass

namespace Pool

/-! ### Adding constants -/

def slotsOf (entry : Entry) (raw : RawEntry) : List Slot :=
  .entry entry raw :: if entry.kind.isWide then [.upperHalf] else []

theorem length_slotsOf (entry : Entry) (raw : RawEntry) :
    (slotsOf entry raw).length = entry.kind.width := by
  unfold slotsOf EntryKind.width
  split <;> rfl

/-- The pool with one more constant, which takes as many slots as its kind says. -/
def appended (pool : Pool) (entry : Entry) (raw : RawEntry) : Pool :=
  if entry.kind.isWide then (pool.push entry raw).pushUpperHalf else pool.push entry raw

theorem toList_appended (pool : Pool) (entry : Entry) (raw : RawEntry) :
    (pool.appended entry raw).slots.toList = pool.slots.toList ++ slotsOf entry raw := by
  unfold appended slotsOf
  split <;> simp [push, pushUpperHalf]

theorem count_appended (pool : Pool) (entry : Entry) (raw : RawEntry) :
    (pool.appended entry raw).count = pool.count + entry.kind.width := by
  rw [count, ← Array.length_toList, toList_appended, List.length_append, length_slotsOf]
  rfl

theorem indices_appended (pool : Pool) (entry : Entry) (raw : RawEntry) :
    (pool.appended entry raw).indices =
      pool.indices.insertIfNew entry (UInt16.ofNat pool.count) := by
  unfold appended
  split <;> rfl

/-- To keep what is remembered for a key and to replace it are the same if nothing is. -/
theorem insertIfNew_eq_insert {map : Std.HashMap Entry UInt16} {entry : Entry}
    (hnew : map[entry]? = none) (index : UInt16) :
    map.insertIfNew entry index = map.insert entry index := by
  have hcontains : Std.DHashMap.Internal.Raw₀.containsₘ
      ⟨map.1.1, map.1.2.size_buckets_pos⟩ entry = false := by
    rw [← Std.DHashMap.Internal.Raw₀.contains_eq_containsₘ]
    change map.contains entry = false
    rw [Std.HashMap.contains_eq_isSome_getElem?, hnew]
    rfl
  simp only [Std.HashMap.insertIfNew, Std.HashMap.insert, Std.DHashMap.insertIfNew,
    Std.DHashMap.insert, Std.DHashMap.Internal.Raw₀.insertIfNew_eq_insertIfNewₘ,
    Std.DHashMap.Internal.Raw₀.insertIfNewₘ, Std.DHashMap.Internal.Raw₀.insert_eq_insertₘ,
    Std.DHashMap.Internal.Raw₀.insertₘ, hcontains, Bool.false_eq_true, if_false]

/-- The pool with more constants at its end, each with the way it is stored. -/
def addAll (pool : Pool) (items : List (Entry × RawEntry)) : Pool :=
  items.foldl (fun pool item => pool.appended item.1 item.2) pool

@[simp] theorem addAll_nil (pool : Pool) : pool.addAll [] = pool := rfl

@[simp] theorem addAll_cons (pool : Pool) (item : Entry × RawEntry)
    (items : List (Entry × RawEntry)) :
    pool.addAll (item :: items) = (pool.appended item.1 item.2).addAll items := rfl

theorem addAll_append (pool : Pool) (items others : List (Entry × RawEntry)) :
    pool.addAll (items ++ others) = (pool.addAll items).addAll others :=
  List.foldl_append

theorem toList_addAll (pool : Pool) (items : List (Entry × RawEntry)) :
    (pool.addAll items).slots.toList =
      pool.slots.toList ++ items.flatMap fun item => slotsOf item.1 item.2 := by
  induction items generalizing pool with
  | nil => simp
  | cons item items ih => rw [addAll_cons, ih, toList_appended, List.flatMap_cons, List.append_assoc]

theorem getElem?_indices_addAll {entry : Entry} {items : List (Entry × RawEntry)}
    (hother : ∀ item ∈ items, item.1 ≠ entry) (pool : Pool) :
    (pool.addAll items).indices[entry]? = pool.indices[entry]? := by
  induction items generalizing pool with
  | nil => rfl
  | cons item items ih =>
    have hne : item.1 ≠ entry := hother item List.mem_cons_self
    rw [addAll_cons, ih fun other hmem => hother other (List.mem_cons_of_mem _ hmem),
      indices_appended, Std.HashMap.getElem?_insertIfNew]
    simp [hne]

/-! ### Later pools -/

/-- The second pool is the first one with maybe more constants at the end. -/
def Extends (pool later : Pool) : Prop :=
  ∃ items, pool.addAll items = later

theorem extends_appended (pool : Pool) (entry : Entry) (raw : RawEntry) :
    pool.Extends (pool.appended entry raw) :=
  ⟨[(entry, raw)], rfl⟩

namespace Extends

theorem refl (pool : Pool) : pool.Extends pool :=
  ⟨[], rfl⟩

theorem trans {first second third : Pool} (hfirst : first.Extends second)
    (hsecond : second.Extends third) : first.Extends third := by
  obtain ⟨items, rfl⟩ := hfirst
  obtain ⟨others, rfl⟩ := hsecond
  exact ⟨items ++ others, first.addAll_append items others⟩

theorem isPrefix {pool later : Pool} (hlater : pool.Extends later) :
    pool.slots.toList <+: later.slots.toList := by
  obtain ⟨items, rfl⟩ := hlater
  rw [toList_addAll]
  exact List.prefix_append _ _

theorem getElem? {pool later : Pool} (hlater : pool.Extends later) {index : Nat} {slot : Slot}
    (hslot : pool.slots[index]? = some slot) : later.slots[index]? = some slot := by
  rw [← Array.getElem?_toList] at hslot ⊢
  obtain ⟨added, hadded⟩ := hlater.isPrefix
  rw [← hadded, List.getElem?_append_left (List.getElem?_eq_some_iff.1 hslot).1, hslot]

theorem size_le {pool later : Pool} (hlater : pool.Extends later) :
    pool.slots.size ≤ later.slots.size := by
  have hlength := hlater.isPrefix.length_le
  rwa [Array.length_toList, Array.length_toList] at hlength

/-- The index of a constant stays the one it was first found at. -/
theorem getElem?_indices {pool later : Pool} (hlater : pool.Extends later) {entry : Entry}
    {index : UInt16} (hindex : pool.indices[entry]? = some index) :
    later.indices[entry]? = some index := by
  obtain ⟨items, rfl⟩ := hlater
  induction items generalizing pool with
  | nil => exact hindex
  | cons item items ih =>
    apply ih
    have hmem : entry ∈ pool.indices := by
      rw [Std.HashMap.mem_iff_isSome_getElem?, hindex]
      rfl
    rw [indices_appended, Std.HashMap.getElem?_insertIfNew, if_neg, hindex]
    rintro ⟨hentry, hnew⟩
    rw [beq_iff_eq] at hentry
    exact hnew (hentry ▸ hmem)

end Extends

/-! ### Looking up -/

theorem get_eq_ok_iff {pool : Pool} {index : UInt16} {entry : Entry} :
    pool.get index = .ok entry ↔ ∃ raw, pool.slots[index.toNat]? = some (.entry entry raw) := by
  unfold get
  split <;> simp_all

theorem get_of_extends {pool later : Pool} (hlater : pool.Extends later) {index : UInt16}
    {entry : Entry} (hget : pool.get index = .ok entry) : later.get index = .ok entry := by
  obtain ⟨raw, hslot⟩ := get_eq_ok_iff.1 hget
  exact get_eq_ok_iff.2 ⟨raw, hlater.getElem? hslot⟩

theorem holds_iff {pool : Pool} {index : UInt16} {entry : Entry} :
    pool.holds index entry ↔ pool.get index = .ok entry := by
  rw [get_eq_ok_iff]
  unfold holds
  split <;> simp_all

theorem getElem?_appended (pool : Pool) (entry : Entry) (raw : RawEntry) :
    (pool.appended entry raw).slots[pool.slots.size]? = some (.entry entry raw) := by
  rw [← Array.getElem?_toList, toList_appended, ← Array.length_toList,
    List.getElem?_append_right (Nat.le_refl _), Nat.sub_self]
  rfl

end Pool

end JvmClass
