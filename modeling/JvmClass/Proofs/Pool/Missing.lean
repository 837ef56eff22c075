import JvmClass.Proofs.Pool.Following
import Mathlib.Algebra.Order.BigOperators.Group.Finset

/-!
# What is missing is added

What a search for a constant adds to the pool, and when it goes well, is a matter of sets. A
constant needs itself and all that it refers to; what of that is not there yet is missing. The
search goes well exactly if each missing constant can be stored and there is room for all of them,
however the recursion comes across them, and it then adds each of them once, after what it refers
to. So the order in which constants are looked for makes no difference for what is there in the end.
-/

namespace JvmClass

/-! ### What a constant needs -/

namespace Entry

def dependencies : Entry → List Entry
  | utf8 _ | integer _ | float _ | long _ | double _ => []
  | classRef name => [utf8 name.text]
  | string text | methodType text | moduleRef text | packageRef text => [utf8 text]
  | fieldRef member | methodRef member | interfaceMethodRef member =>
    [classRef member.className, nameAndType member.nameAndType]
  | nameAndType value => [utf8 value.name, utf8 value.descriptor]
  | methodHandle handle => [handle.reference.entry]
  | dynamic value | invokeDynamic value => [nameAndType value.nameAndType]

def RefersTo (entry part : Entry) : Prop :=
  part ∈ entry.dependencies

theorem RefersTo.rank_lt {entry part : Entry} (hrefers : entry.RefersTo part) :
    PoolM.rank part.kind < PoolM.rank entry.kind := by
  unfold RefersTo at hrefers
  cases entry with
  | methodHandle handle =>
    cases List.mem_singleton.1 hrefers
    obtain ⟨kind, reference⟩ := handle
    cases reference <;> exact Nat.lt_succ_self 2
  | utf8 | integer | float | long | double => cases hrefers
  | _ =>
    simp only [dependencies, List.mem_cons, List.not_mem_nil, or_false] at hrefers
    rcases hrefers with rfl | rfl <;> exact Nat.lt_succ_self _

/-- A constant and all that it refers to, directly or not. -/
def closure (entry : Entry) : Finset Entry :=
  insert entry ((entry.dependencies.attach.map fun part => closure part.1).foldr (· ∪ ·) ∅)
termination_by PoolM.rank entry.kind
decreasing_by exact RefersTo.rank_lt part.2

def closures (entries : List Entry) : Finset Entry :=
  (entries.map closure).foldr (· ∪ ·) ∅

theorem closure_eq (entry : Entry) :
    entry.closure = insert entry (closures entry.dependencies) := by
  rw [closure, closures, List.attach_map_val]

theorem mem_closures_iff {entries : List Entry} {part : Entry} :
    part ∈ closures entries ↔ ∃ entry ∈ entries, part ∈ entry.closure := by
  induction entries with
  | nil => simp [closures]
  | cons entry entries ih =>
    have hcons : closures (entry :: entries) = entry.closure ∪ closures entries := rfl
    rw [hcons, Finset.mem_union, ih, List.exists_mem_cons_iff]

theorem mem_closure_iff {entry part : Entry} :
    part ∈ entry.closure ↔ Relation.ReflTransGen RefersTo entry part := by
  constructor
  · intro hmem
    induction hrank : PoolM.rank entry.kind using Nat.strongRecOn generalizing entry with
    | ind rank ih =>
      rw [closure_eq, Finset.mem_insert, mem_closures_iff] at hmem
      rcases hmem with rfl | ⟨direct, hdirect, hpart⟩
      · exact .refl
      · have hlt : PoolM.rank direct.kind < rank := hrank ▸ RefersTo.rank_lt hdirect
        exact .head hdirect (ih _ hlt hpart rfl)
  · intro hrefers
    induction hrefers using Relation.ReflTransGen.head_induction_on with
    | refl =>
      rw [closure_eq]
      exact Finset.mem_insert_self part _
    | head hdirect _ ih =>
      rw [closure_eq]
      exact Finset.mem_insert_of_mem (mem_closures_iff.2 ⟨_, hdirect, ih⟩)

theorem closed_closure {entry : Entry} :
    ∀ found ∈ entry.closure, ∀ part, found.RefersTo part → part ∈ entry.closure := by
  intro found hfound part hrefers
  exact mem_closure_iff.2 ((mem_closure_iff.1 hfound).tail hrefers)

theorem mem_closures_of_refersTo {entries : List Entry} {entry part : Entry}
    (hmem : entry ∈ closures entries) (hrefers : entry.RefersTo part) :
    part ∈ closures entries := by
  rw [mem_closures_iff] at hmem ⊢
  obtain ⟨start, hstart, hentry⟩ := hmem
  exact ⟨start, hstart, closed_closure entry hentry part hrefers⟩

/-- A constant does not need itself for what it refers to. -/
theorem not_mem_closures_dependencies (entry : Entry) : entry ∉ closures entry.dependencies := by
  intro hmem
  have hle : ∀ {first last : Entry}, Relation.ReflTransGen RefersTo first last →
      PoolM.rank last.kind ≤ PoolM.rank first.kind := by
    intro first last hrefers
    induction hrefers with
    | refl => exact Nat.le_refl _
    | tail _ hlast ih => exact Nat.le_trans (Nat.le_of_lt hlast.rank_lt) ih
  obtain ⟨part, hpart, hentry⟩ := mem_closures_iff.1 hmem
  have hlt : PoolM.rank part.kind < PoolM.rank entry.kind := RefersTo.rank_lt hpart
  have hback := hle (mem_closure_iff.1 hentry)
  omega

/-- The constant itself can be stored, given what it refers to: a text is not too long, and a method
handle can use its member. -/
def IsStorable : Entry → Prop
  | utf8 text => (Text.ModifiedUtf8.encode text).length ≤ 65535
  | methodHandle handle => handle.kind.accepts handle.reference
  | _ => True

end Entry

theorem RawEntry.Denotes.exists_part {raws : List RawEntry} {index : UInt16} {entry part : Entry}
    (hdenotes : Denotes raws index entry) (hrefers : entry.RefersTo part) :
    ∃ reference, Denotes raws reference part := by
  unfold Entry.RefersTo Entry.dependencies at hrefers
  cases hdenotes with
  | utf8 | integer | float | long | double => cases hrefers
  | classRef _ hpart | string _ hpart | methodType _ hpart | moduleRef _ hpart
  | packageRef _ hpart | dynamic _ hpart | invokeDynamic _ hpart | methodHandle _ hpart =>
    cases List.mem_singleton.1 hrefers
    exact ⟨_, hpart⟩
  | fieldRef _ hfirst hsecond | methodRef _ hfirst hsecond | interfaceMethodRef _ hfirst hsecond
  | nameAndType _ hfirst hsecond =>
    rcases List.mem_pair.1 hrefers with rfl | rfl
    · exact ⟨_, hfirst⟩
    · exact ⟨_, hsecond⟩

def Slot.entry? : Slot → Option Entry
  | .entry value _ => some value
  | _ => none

namespace Pool

/-! ### The constants of a pool -/

def constants (pool : Pool) : Finset Entry :=
  (pool.slots.toList.filterMap Slot.entry?).toFinset

theorem mem_constants_iff {pool : Pool} (hcount : pool.count ≤ maxCount) {entry : Entry} :
    entry ∈ pool.constants ↔ ∃ index, pool.get index = .ok entry := by
  have hslot : ∀ {slot : Slot}, slot.entry? = some entry ↔ ∃ raw, slot = .entry entry raw := by
    intro slot
    cases slot <;> simp [Slot.entry?]
  rw [constants, List.mem_toFinset, List.mem_filterMap]
  constructor
  · rintro ⟨slot, hmem, hentry⟩
    obtain ⟨raw, rfl⟩ := hslot.1 hentry
    obtain ⟨index, hindex⟩ := List.mem_iff_getElem?.1 hmem
    rw [Array.getElem?_toList] at hindex
    have hlt : index < pool.count := (Array.getElem?_eq_some_iff.1 hindex).1
    have htoNat : (UInt16.ofNat index).toNat = index := by
      apply UInt16.toNat_ofNat_of_lt'
      show index < 65536
      unfold maxCount at hcount
      omega
    refine ⟨UInt16.ofNat index, get_eq_ok_iff.2 ⟨raw, ?_⟩⟩
    rwa [htoNat]
  · rintro ⟨index, hget⟩
    obtain ⟨raw, hraw⟩ := get_eq_ok_iff.1 hget
    rw [← Array.getElem?_toList] at hraw
    exact ⟨_, List.mem_of_getElem? hraw, hslot.2 ⟨raw, rfl⟩⟩

theorem filterMap_entry?_slotsOf (entry : Entry) (raw : RawEntry) :
    (slotsOf entry raw).filterMap Slot.entry? = [entry] := by
  unfold slotsOf
  split <;> rfl

theorem constants_addAll (pool : Pool) (items : List (Entry × RawEntry)) :
    (pool.addAll items).constants = pool.constants ∪ (items.map Prod.fst).toFinset := by
  have hitems : (items.flatMap fun item => slotsOf item.1 item.2).filterMap Slot.entry? =
      items.map Prod.fst := by
    rw [List.filterMap_flatMap, List.map_eq_flatMap]
    congr 1
    funext item
    exact filterMap_entry?_slotsOf item.1 item.2
  rw [constants, constants, toList_addAll, List.filterMap_append, hitems, List.toFinset_append]

def widthOf (parts : Finset Entry) : Nat :=
  ∑ part ∈ parts, part.kind.width

theorem widthOf_insert {parts : Finset Entry} {entry : Entry} (hnew : entry ∉ parts) :
    widthOf (insert entry parts) = entry.kind.width + widthOf parts :=
  Finset.sum_insert hnew

theorem count_addAll_eq (pool : Pool) {items : List (Entry × RawEntry)}
    (hnodup : (items.map Prod.fst).Nodup) :
    (pool.addAll items).count = pool.count + widthOf (items.map Prod.fst).toFinset := by
  induction items generalizing pool with
  | nil => rfl
  | cons item items ih =>
    obtain ⟨hnew, hrest⟩ := List.nodup_cons.1 hnodup
    have hnotMem : item.1 ∉ (items.map Prod.fst).toFinset := mt List.mem_toFinset.1 hnew
    rw [addAll_cons, ih _ hrest, count_appended, List.map_cons, List.toFinset_cons,
      widthOf_insert hnotMem, Nat.add_assoc]

theorem Valid.exists_raws {pool : Pool} (hvalid : pool.Valid) :
    ∃ raws, pool.stored = RawPool.ofEntries raws := by
  obtain ⟨items, rfl, hresolve⟩ := hvalid.exists_items
  exact ⟨_, stored_addAll fun item hmem => RawEntry.kind_of_resolve (hresolve item hmem)⟩

theorem Valid.mem_constants_of_refersTo {pool : Pool} (hvalid : pool.Valid) {entry part : Entry}
    (hmem : entry ∈ pool.constants) (hrefers : entry.RefersTo part) : part ∈ pool.constants := by
  rw [mem_constants_iff hvalid.count_le] at hmem ⊢
  obtain ⟨index, hget⟩ := hmem
  obtain ⟨raws, hstored⟩ := hvalid.exists_raws
  obtain ⟨reference, hreference⟩ := ((hvalid.get_iff hstored).1 hget).exists_part hrefers
  exact ⟨reference, (hvalid.get_iff hstored).2 hreference⟩

theorem Valid.closure_subset {pool : Pool} (hvalid : pool.Valid) {entry : Entry}
    (hmem : entry ∈ pool.constants) : entry.closure ⊆ pool.constants := by
  intro part hpart
  have hrefers := Entry.mem_closure_iff.1 hpart
  induction hrefers with
  | refl => exact hmem
  | tail hbefore hlast ih =>
    exact hvalid.mem_constants_of_refersTo (ih (Entry.mem_closure_iff.2 hbefore)) hlast

/-- Nothing is missing for a constant that is remembered. -/
theorem Valid.missing_eq_empty {pool : Pool} (hvalid : pool.Valid) {entry : Entry} {index : UInt16}
    (hindex : pool.indices[entry]? = some index) : entry.closure \ pool.constants = ∅ := by
  rw [Finset.sdiff_eq_empty_iff_subset]
  apply hvalid.closure_subset
  rw [mem_constants_iff hvalid.count_le]
  exact ⟨index, ((hvalid.remembers entry index).1 hindex).1⟩

/-- A constant that is not remembered is missing itself. -/
theorem Valid.missing_eq_insert {pool : Pool} (hvalid : pool.Valid) {entry : Entry}
    (hindex : pool.indices[entry]? = none) :
    entry.closure \ pool.constants =
      insert entry (Entry.closures entry.dependencies \ pool.constants) ∧
    entry ∉ Entry.closures entry.dependencies \ pool.constants := by
  have hnew : entry ∉ pool.constants := by
    rw [mem_constants_iff hvalid.count_le]
    rintro ⟨index, hget⟩
    refine hvalid.remembers.get_ne ?_ index hget
    rw [Std.HashMap.mem_iff_isSome_getElem?, hindex]
    decide
  constructor
  · rw [Entry.closure_eq, Finset.insert_sdiff_of_notMem _ hnew]
  · intro hmem
    exact Entry.not_mem_closures_dependencies entry (Finset.mem_sdiff.1 hmem).1

/-! ### Adding what is missing -/

/-- The constants can be stored, and there is room for them. -/
def Takes (pool : Pool) (parts : Finset Entry) : Prop :=
  (∀ part ∈ parts, part.IsStorable) ∧ pool.count + widthOf parts ≤ maxCount

/-- The constants were added at the end of the pool, each once and after those that it refers to. -/
def Gains (pool final : Pool) (parts : Finset Entry) : Prop :=
  ∃ items : List (Entry × RawEntry), final = pool.addAll items ∧ (items.map Prod.fst).Nodup ∧
    (items.map Prod.fst).toFinset = parts ∧
    (items.map Prod.fst).Pairwise fun earlier later => ¬earlier.RefersTo later

namespace Gains

variable {pool between final : Pool} {parts others : Finset Entry}

theorem refl (pool : Pool) : pool.Gains pool ∅ :=
  ⟨[], rfl, .nil, rfl, .nil⟩

theorem count_eq (hgains : pool.Gains final parts) : final.count = pool.count + widthOf parts := by
  obtain ⟨items, rfl, hnodup, rfl, -⟩ := hgains
  exact pool.count_addAll_eq hnodup

theorem getElem?_indices (hgains : pool.Gains final parts) {entry : Entry} (hentry : entry ∉ parts)
    {index : Option UInt16} (hindex : pool.indices[entry]? = index) :
    final.indices[entry]? = index := by
  obtain ⟨items, rfl, -, rfl, -⟩ := hgains
  rw [← hindex]
  refine getElem?_indices_addAll (fun item hmem heq => hentry ?_) pool
  exact List.mem_toFinset.2 (List.mem_map.2 ⟨item, hmem, heq⟩)

theorem constants_eq (hgains : pool.Gains final parts) :
    final.constants = pool.constants ∪ parts := by
  obtain ⟨items, rfl, -, rfl, -⟩ := hgains
  exact pool.constants_addAll items

/-- When what was missing of the needs has been added, only what is needed besides is missing. -/
theorem missing_union {needs : Finset Entry} (hgains : pool.Gains between (needs \ pool.constants))
    (others : Finset Entry) :
    (needs ∪ others) \ pool.constants =
      (needs \ pool.constants) ∪ (others \ between.constants) := by
  rw [hgains.constants_eq]
  ext entry
  simp only [Finset.mem_sdiff, Finset.mem_union]
  tauto

theorem disjoint_missing (hgains : pool.Gains between parts) (others : Finset Entry) :
    Disjoint parts (others \ between.constants) := by
  rw [hgains.constants_eq, Finset.disjoint_left]
  intro entry hentry hother
  exact (Finset.mem_sdiff.1 hother).2 (Finset.mem_union_right _ hentry)

/-- First some constants are added and then others that none of the first ones refers to. -/
theorem trans (hfirst : pool.Gains between parts) (hsecond : between.Gains final others)
    (hdisjoint : Disjoint parts others)
    (hrefers : ∀ part ∈ parts, ∀ other ∈ others, ¬part.RefersTo other) :
    pool.Gains final (parts ∪ others) := by
  obtain ⟨items, rfl, hnodup, rfl, hpairwise⟩ := hfirst
  obtain ⟨more, rfl, hmoreNodup, rfl, hmorePairwise⟩ := hsecond
  refine ⟨items ++ more, (addAll_append pool items more).symm, ?_, ?_, ?_⟩
  · rw [List.map_append]
    refine hnodup.append hmoreNodup fun entry hitem hmore => ?_
    exact Finset.disjoint_left.1 hdisjoint (List.mem_toFinset.2 hitem) (List.mem_toFinset.2 hmore)
  · rw [List.map_append, List.toFinset_append]
  · rw [List.map_append, List.pairwise_append]
    refine ⟨hpairwise, hmorePairwise, fun part hpart other hother => ?_⟩
    exact hrefers part (List.mem_toFinset.2 hpart) other (List.mem_toFinset.2 hother)

end Gains

theorem Takes.mono {pool : Pool} {parts others : Finset Entry} (htakes : pool.Takes others)
    (hsubset : parts ⊆ others) : pool.Takes parts := by
  have hle : widthOf parts ≤ widthOf others := Finset.sum_le_sum_of_subset hsubset
  obtain ⟨hstorable, hroom⟩ := htakes
  exact ⟨fun part hpart => hstorable part (hsubset hpart), by omega⟩

theorem takes_insert_iff {pool : Pool} {parts : Finset Entry} {entry : Entry}
    (hnew : entry ∉ parts) :
    pool.Takes (insert entry parts) ↔ entry.IsStorable ∧ pool.Takes parts ∧
      pool.count + widthOf parts + entry.kind.width ≤ maxCount := by
  unfold Takes
  rw [widthOf_insert hnew, Finset.forall_mem_insert]
  constructor
  · rintro ⟨⟨hentry, hparts⟩, hroom⟩
    exact ⟨hentry, ⟨hparts, by omega⟩, by omega⟩
  · rintro ⟨hentry, ⟨hparts, -⟩, hroom⟩
    exact ⟨⟨hentry, hparts⟩, by omega⟩

theorem takes_union_iff {pool between : Pool} {parts others : Finset Entry}
    (hcount : between.count = pool.count + widthOf parts) (hdisjoint : Disjoint parts others) :
    pool.Takes (parts ∪ others) ↔ pool.Takes parts ∧ between.Takes others := by
  have hwidth : widthOf (parts ∪ others) = widthOf parts + widthOf others :=
    Finset.sum_union hdisjoint
  unfold Takes
  rw [hwidth, hcount, Finset.forall_mem_union]
  constructor
  · rintro ⟨⟨hparts, hothers⟩, hroom⟩
    exact ⟨⟨hparts, by omega⟩, hothers, by omega⟩
  · rintro ⟨⟨hparts, -⟩, hothers, hroom⟩
    exact ⟨⟨hparts, hothers⟩, by omega⟩

/-- Room for all that is missing is room for a part of it, and then for what is still missing. -/
theorem Gains.takes_missing_iff {pool between : Pool} {needs others : Finset Entry}
    (hgains : pool.Gains between (needs \ pool.constants)) :
    pool.Takes ((needs ∪ others) \ pool.constants) ↔
      pool.Takes (needs \ pool.constants) ∧ between.Takes (others \ between.constants) := by
  rw [hgains.missing_union, takes_union_iff hgains.count_eq (hgains.disjoint_missing others)]

end Pool

namespace PoolM

open Pool

variable {α β : Type}

/-- In a valid pool the computation goes well exactly if the condition holds and the pool takes what
is missing of the needs, and that is then what it adds. -/
structure Completes (condition : Prop) (needs : Finset Entry) (action : PoolM α) : Prop where
  succeeds_iff {pool : Pool} (hvalid : pool.Valid) :
    (∃ value final, action.run pool = (.ok value, final)) ↔
      condition ∧ pool.Takes (needs \ pool.constants)
  gains {pool final : Pool} {value : α} (hvalid : pool.Valid)
    (hrun : action.run pool = (.ok value, final)) : pool.Gains final (needs \ pool.constants)

namespace Completes

theorem takes_empty {pool : Pool} (hvalid : pool.Valid) : pool.Takes ∅ :=
  ⟨fun _ hpart => absurd hpart (Finset.notMem_empty _), hvalid.count_le⟩

theorem pure (value : α) : Completes True ∅ (Pure.pure value : PoolM α) where
  succeeds_iff := by
    intro pool hvalid
    rw [Finset.empty_sdiff]
    exact iff_of_true ⟨value, pool, rfl⟩ ⟨trivial, takes_empty hvalid⟩
  gains := by
    intro pool final found _ hrun
    rw [Finset.empty_sdiff]
    cases hrun
    exact .refl pool

theorem afterLift {condition : Prop} {needs : Finset Entry} {result : Except Error α}
    {next : α → PoolM β} (hresult : (∃ value, result = .ok value) ↔ condition)
    (hnext : ∀ value, Completes True needs (next value)) :
    Completes condition needs (liftM result >>= next) := by
  cases result with
  | error error =>
    have hfalse : ¬condition := by
      rw [← hresult]
      rintro ⟨value, hvalue⟩
      cases hvalue
    constructor
    · intro pool hvalid
      refine iff_of_false ?_ fun hboth => hfalse hboth.1
      rintro ⟨value, final, hrun⟩
      cases hrun
    · intro pool final value hvalid hrun
      cases hrun
  | ok value =>
    have htrue : condition := hresult.1 ⟨value, rfl⟩
    constructor
    · intro pool hvalid
      have hiff := (hnext value).succeeds_iff hvalid
      rw [true_and] at hiff
      rw [and_iff_right htrue]
      exact hiff
    · intro pool final found hvalid hrun
      exact (hnext value).gains hvalid hrun

theorem returning {condition : Prop} {needs : Finset Entry} {action : PoolM α}
    (haction : Completes condition needs action) (f : α → β) :
    Completes condition needs (do return f (← action)) where
  succeeds_iff := by
    intro pool hvalid
    rw [← haction.succeeds_iff hvalid]
    constructor
    · rintro ⟨result, final, hrun⟩
      obtain ⟨value, between, hfirst, -⟩ := exists_of_run_bind hrun
      exact ⟨value, between, hfirst⟩
    · rintro ⟨value, final, hrun⟩
      exact ⟨f value, final, run_bind_of_run hrun rfl⟩
  gains := by
    intro pool final result hvalid hrun
    obtain ⟨value, between, hfirst, hlast⟩ := exists_of_run_bind hrun
    cases hlast
    exact haction.gains hvalid hfirst

/-- What is needed first does not refer to anything else. -/
theorem bind {first second : Finset Entry} {action : PoolM α} [Lawful action] {next : α → PoolM β}
    (hclosed : ∀ entry ∈ first, ∀ part, entry.RefersTo part → part ∈ first)
    (haction : Completes True first action) (hnext : ∀ value, Completes True second (next value)) :
    Completes True (first ∪ second) (action >>= next) := by
  constructor
  · intro pool hvalid
    rw [true_and]
    constructor
    · rintro ⟨result, final, hrun⟩
      obtain ⟨value, between, hfirst, hsecond⟩ := exists_of_run_bind hrun
      have hgains := haction.gains hvalid hfirst
      rw [hgains.takes_missing_iff]
      exact ⟨((haction.succeeds_iff hvalid).1 ⟨value, between, hfirst⟩).2,
        (((hnext value).succeeds_iff (valid_of_run hvalid hfirst)).1 ⟨result, final, hsecond⟩).2⟩
    · intro htakes
      have hsubset : first \ pool.constants ⊆ (first ∪ second) \ pool.constants :=
        Finset.sdiff_subset_sdiff Finset.subset_union_left (Finset.Subset.refl _)
      obtain ⟨value, between, hfirst⟩ :=
        (haction.succeeds_iff hvalid).2 ⟨trivial, htakes.mono hsubset⟩
      have hgains := haction.gains hvalid hfirst
      rw [hgains.takes_missing_iff] at htakes
      obtain ⟨result, final, hsecond⟩ :=
        ((hnext value).succeeds_iff (valid_of_run hvalid hfirst)).2 ⟨trivial, htakes.2⟩
      exact ⟨result, final, run_bind_of_run hfirst hsecond⟩
  · intro pool final result hvalid hrun
    obtain ⟨value, between, hfirst, hsecond⟩ := exists_of_run_bind hrun
    have hgains := haction.gains hvalid hfirst
    rw [hgains.missing_union second]
    apply hgains.trans ((hnext value).gains (valid_of_run hvalid hfirst) hsecond)
      (hgains.disjoint_missing _)
    intro part hpart other hother hrefers
    obtain ⟨hpart, hnew⟩ := Finset.mem_sdiff.1 hpart
    obtain ⟨-, hmissing⟩ := Finset.mem_sdiff.1 hother
    rw [hgains.constants_eq, Finset.mem_union, not_or] at hmissing
    exact hmissing.2 (Finset.mem_sdiff.2 ⟨hclosed part hpart other hrefers, hmissing.1⟩)

theorem run_intern_of_found {entry : Entry} (register : PoolM RawEntry) {pool : Pool}
    (hvalid : pool.Valid) {index : UInt16} (hindex : pool.indices[entry]? = some index) :
    (Pool.intern entry register).run pool = (.ok index, pool) := by
  rw [run_intern, hindex]
  exact if_pos (holds_iff.2 ((hvalid.remembers entry index).1 hindex).1)

theorem run_intern_of_missing {entry : Entry} {register : PoolM RawEntry} {pool : Pool}
    (hindex : pool.indices[entry]? = none) {index : UInt16} {final : Pool} :
    (Pool.intern entry register).run pool = (.ok index, final) ↔
      ∃ raw between, register.run pool = (.ok raw, between) ∧
        (append entry raw).run between = (.ok index, final) := by
  constructor
  · intro hrun
    rcases cases_of_run_intern hrun with ⟨hfound, -⟩ | ⟨-, hrest⟩
    · rw [hindex] at hfound
      cases hfound
    · exact hrest
  · rintro ⟨raw, between, hregister, happend⟩
    have hduring : (PoolM.during .addingDependencies register).run pool = (.ok raw, between) := by
      rw [run_during, hregister]
      rfl
    rw [run_intern, hindex]
    exact run_bind_of_run hduring happend

/-- A constant is added when all that it refers to has been added. -/
theorem intern {entry : Entry} {register : PoolM RawEntry}
    (hregister : Completes entry.IsStorable (Entry.closures entry.dependencies) register) :
    Completes True entry.closure (Pool.intern entry register) := by
  constructor
  · intro pool hvalid
    rw [true_and]
    cases hindex : pool.indices[entry]? with
    | some index =>
      rw [hvalid.missing_eq_empty hindex]
      exact iff_of_true ⟨index, pool, run_intern_of_found register hvalid hindex⟩
        (takes_empty hvalid)
    | none =>
      obtain ⟨hmissing, hnew⟩ := hvalid.missing_eq_insert hindex
      rw [hmissing, takes_insert_iff hnew]
      constructor
      · rintro ⟨index, final, hrun⟩
        obtain ⟨raw, between, hfirst, happend⟩ := (run_intern_of_missing hindex).1 hrun
        have hroom := (exists_of_run_append happend).1
        rw [(hregister.gains hvalid hfirst).count_eq] at hroom
        obtain ⟨hentry, htakes⟩ := (hregister.succeeds_iff hvalid).1 ⟨raw, between, hfirst⟩
        exact ⟨hentry, htakes, hroom⟩
      · rintro ⟨hentry, htakes, hroom⟩
        obtain ⟨raw, between, hfirst⟩ := (hregister.succeeds_iff hvalid).2 ⟨hentry, htakes⟩
        rw [← (hregister.gains hvalid hfirst).count_eq] at hroom
        refine ⟨UInt16.ofNat between.count, between.appended entry raw, ?_⟩
        refine (run_intern_of_missing hindex).2 ⟨raw, between, hfirst, ?_⟩
        exact run_append_of_new ((hregister.gains hvalid hfirst).getElem?_indices hnew hindex) raw
          hroom
  · intro pool final index hvalid hrun
    cases hindex : pool.indices[entry]? with
    | some index =>
      rw [run_intern_of_found register hvalid hindex] at hrun
      cases hrun
      rw [hvalid.missing_eq_empty hindex]
      exact .refl pool
    | none =>
      obtain ⟨raw, between, hfirst, happend⟩ := (run_intern_of_missing hindex).1 hrun
      obtain ⟨hmissing, hnew⟩ := hvalid.missing_eq_insert hindex
      have hroom := (exists_of_run_append happend).1
      rw [run_append_of_new ((hregister.gains hvalid hfirst).getElem?_indices hnew hindex) raw
        hroom] at happend
      cases happend
      have hlast : between.Gains (between.appended entry raw) {entry} :=
        ⟨[(entry, raw)], rfl, List.nodup_singleton _, rfl, List.pairwise_singleton _ _⟩
      rw [hmissing, Finset.insert_eq, Finset.union_comm]
      refine (hregister.gains hvalid hfirst).trans hlast ?_ ?_
      · exact Finset.disjoint_singleton_right.2 hnew
      · intro part hpart other hother hrefers
        rw [Finset.mem_singleton.1 hother] at hrefers
        exact Entry.not_mem_closures_dependencies entry
          (Entry.mem_closures_of_refersTo (Finset.mem_sdiff.1 hpart).1 hrefers)

theorem one {part : Entry} {put : PoolM UInt16} [Lawful put]
    (hput : Completes True part.closure put) (store : UInt16 → RawEntry) :
    Completes True (Entry.closures [part]) (do return store (← put)) :=
  .bind Entry.closed_closure hput fun _ => .pure _

theorem two {first second : Entry} {putFirst putSecond : PoolM UInt16} [Lawful putFirst]
    [Lawful putSecond] (hfirst : Completes True first.closure putFirst)
    (hsecond : Completes True second.closure putSecond) (store : UInt16 → UInt16 → RawEntry) :
    Completes True (Entry.closures [first, second])
      (do return store (← putFirst) (← putSecond)) :=
  .bind Entry.closed_closure hfirst fun _ => .bind Entry.closed_closure hsecond fun _ => .pure _

end Completes

end PoolM

namespace Pool

open PoolM

/-! ### Constants by kind -/

end Pool

end JvmClass
