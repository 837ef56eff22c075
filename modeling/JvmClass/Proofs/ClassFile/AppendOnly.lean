import JvmClass.Proofs.ClassFile.RoundTrip

/-!
# Pools are append-only

Everything that writes to a pool appends to it and does nothing else, whether or not it goes well:
looking constants up, writing attributes, and assembling code. What was there stays where it was, is
stored as it was and is found where it was found, and what is new refers back only.
-/

namespace JvmClass

namespace Pool

open PoolM

/-! ### Operations -/

/-- The operations that write to a pool. -/
inductive Operation : {α : Type} → PoolM α → Prop
  | call {call : PoolM UInt16} (hcall : Call call) : Operation call
  | writeValue (scope : Scope) (name : Text) (value : AttributeValue) :
      Operation (Attribute.writeValue scope name value)
  | writeList (scope : Scope) (attributes : List Attribute) :
      Operation (Attribute.writeList scope attributes)
  | assemble (code : Code) : Operation code.assemble

theorem Call.lawful {call : PoolM UInt16} (hcall : Call call) : Lawful call := by
  rcases hcall.eq_find_or_pure with ⟨entry, rfl⟩ | rfl <;> infer_instance

theorem Operation.lawful {α : Type} {action : PoolM α} (haction : Operation action) :
    Lawful action := by
  cases haction with
  | call hcall => exact hcall.lawful
  | writeValue | writeList | assemble => infer_instance

def OperatedOnce (pool next : Pool) : Prop :=
  ∃ (α : Type) (action : PoolM α), Operation action ∧ (action.run pool).2 = next

/-- The pool started out empty or was read, and then some operations wrote to it. -/
def InUse (pool : Pool) : Prop :=
  ∃ start : Pool, (start = Pool.empty ∨ ∃ input rest, Pool.read input = .ok (start, rest)) ∧
    Relation.ReflTransGen OperatedOnce start pool

theorem Reachable.inUse {pool : Pool} (hpool : pool.Reachable) : pool.InUse := by
  obtain ⟨start, hstart, hcalled⟩ := hpool
  refine ⟨start, hstart, Relation.ReflTransGen.mono ?_ _ _ hcalled⟩
  rintro before after ⟨call, hcall, hrun⟩
  exact ⟨UInt16, call, .call hcall, hrun⟩

theorem InUse.valid {pool : Pool} (hpool : pool.InUse) : pool.Valid := by
  obtain ⟨start, hstart, hoperated⟩ := hpool
  induction hoperated with
  | refl =>
    obtain rfl | ⟨input, rest, hread⟩ := hstart
    · exact valid_empty
    · exact (Built.read hread).valid
  | tail _ hlast ih =>
    obtain ⟨α, action, haction, rfl⟩ := hlast
    have := haction.lawful
    exact valid_run action ih

/-! ### What an operation leaves -/

/-- The second pool is the first one with more at its end. -/
structure AppendedTo (pool later : Pool) : Prop where
  isPrefix : pool.slots.toList <+: later.slots.toList
  /-- Each index holds the same constant, stored the same way. -/
  slot {index : Nat} {entry : Entry} {raw : RawEntry}
    (hslot : pool.slots[index]? = some (.entry entry raw)) :
    later.slots[index]? = some (.entry entry raw)
  /-- Each constant is found where it was found, without another one being added. -/
  found {entry : Entry} {index : UInt16} (hget : pool.get index = .ok entry) :
    ∃ first, (find entry).run pool = (.ok first, pool) ∧
      (find entry).run later = (.ok first, later)
  /-- What is new refers to lower indices only. -/
  reference_lt {index : Nat} {entry : Entry} {raw : RawEntry} (hnew : pool.count ≤ index)
    (hslot : later.slots[index]? = some (.entry entry raw)) :
    ∀ reference ∈ raw.references, reference.toNat < index

theorem appendedTo_of_lawful {α : Type} (action : PoolM α) [Lawful action] {pool : Pool}
    (hvalid : pool.Valid) : pool.AppendedTo (action.run pool).2 where
  isPrefix := (extends_run action pool).isPrefix
  slot hslot := (extends_run action pool).getElem? hslot
  found hget := by
    obtain ⟨first, -, hfind⟩ := hvalid.run_find hget
    exact ⟨first, hfind, Lawful.replays hfind (extends_run action pool)⟩
  reference_lt hnew hslot := (accrues_run action hvalid).reference_lt hnew hslot

/-- **Pools are append-only.** Whatever operation is done on a pool in use, and whether or not it
fails, the pool keeps its slots and constants are appended that refer to lower indices only. -/
theorem appendedTo_of_operation {α : Type} {action : PoolM α} (haction : Operation action)
    {pool : Pool} (hpool : pool.InUse) : pool.AppendedTo (action.run pool).2 := by
  have := haction.lawful
  exact appendedTo_of_lawful action hpool.valid

/-- Two attributes are written to a pool with a long in it, and the second is refused. -/
theorem appendedTo_of_refused :
    let pool := ((putLong 7).run .empty).2
    let writing := Attribute.writeList .classScope
      [⟨.ofString "SourceFile", .sourceFile (.ofString "A.java")⟩,
        ⟨.ofString "Synthetic", .signature (.ofString "A.java")⟩]
    pool.InUse ∧ (∃ error, (writing.run pool).1 = .error error) ∧
      pool.AppendedTo (writing.run pool).2 := by
  intro pool writing
  have hpool : pool.Reachable := ⟨Pool.empty, .inl rfl, .single ⟨_, .putLong 7, rfl⟩⟩
  refine ⟨hpool.inUse, ?_, appendedTo_of_operation (.writeList _ _) hpool.inUse⟩
  rcases hrun : writing.run pool with ⟨error | bytes, final⟩
  · exact ⟨error, rfl⟩
  · obtain ⟨count, between, -, hrun⟩ := exists_of_run_bind hrun
    obtain ⟨contents, last, hrun, -⟩ := exists_of_run_bind hrun
    rw [Attribute.mk_writeFrom, writeAll_cons, writeAll_cons] at hrun
    obtain ⟨first, after, -, hrun⟩ := exists_of_run_bind hrun
    obtain ⟨rest, stop, hrun, -⟩ := exists_of_run_bind hrun
    obtain ⟨second, done, hsecond, -⟩ := exists_of_run_bind hrun
    cases hsecond

end Pool

end JvmClass
