import JvmClass.Proofs.Pool.Invariant
import JvmClass.Proofs.Pool.Writing
import Mathlib.Data.List.Nodup

/-!
# Writing what was read

The opposite direction of `PoolM.Encodes`. A value that was read with a pool refers to constants
which are all in it, so writing it with the same pool adds nothing. If moreover no constant is in
the pool twice, each is found at the very index that was read, and the bytes come out as they were:
`PoolM.Restores`. It carries over from values to lists of them, and it holds of all references.
-/

namespace JvmClass

/-! ### Finding constants that are there -/

namespace PoolM

variable {α β : Type} {pool : Pool}

/-- The action gives this value, and adds nothing to the pool. -/
def Gives (pool : Pool) (action : PoolM α) (value : α) : Prop :=
  action.run pool = (.ok value, pool)

namespace Gives

theorem pure {value other : α} (heq : value = other) :
    Gives pool (Pure.pure value : PoolM α) other := by
  rw [heq]
  rfl

theorem bind {action : PoolM α} {next : α → PoolM β} {value : α} {result : β}
    (haction : Gives pool action value) (hnext : Gives pool (next value) result) :
    Gives pool (action >>= next) result :=
  run_bind_of_run haction hnext

theorem lift {result : Except Error α} {value : α} (hresult : result = .ok value) :
    Gives pool (liftM result : PoolM α) value := by
  rw [hresult]
  rfl

theorem map {action : PoolM α} {value : α} (f : α → β) (haction : Gives pool action value) :
    Gives pool (f <$> action) (f value) := by
  change (f <$> action).run pool = _
  rw [run_map, show action.run pool = (.ok value, pool) from haction]
  rfl

theorem during {action : PoolM α} {value : α} (activity : Activity)
    (haction : Gives pool action value) : Gives pool (action.during activity) value := by
  change (action.during activity).run pool = _
  rw [run_during, show action.run pool = (.ok value, pool) from haction]
  rfl

end Gives

end PoolM

namespace Pool

open PoolM

variable {α β : Type} {pool : Pool}

/-- No two slots hold equal constants. -/
def HoldsOnce (pool : Pool) : Prop :=
  (pool.entries.map Prod.snd).Nodup

instance (pool : Pool) : Decidable pool.HoldsOnce :=
  inferInstanceAs (Decidable (List.Nodup _))

theorem mem_entries {index : UInt16} {entry : Entry} (hget : pool.get index = .ok entry) :
    (index, entry) ∈ pool.entries := by
  obtain ⟨raw, hslot⟩ := get_eq_ok_iff.1 hget
  rw [← Array.getElem?_toList] at hslot
  refine List.mem_filterMap.2 ⟨(.entry entry raw, index.toNat), ?_, ?_⟩
  · exact List.mk_mem_zipIdx_iff_getElem?.2 hslot
  · simp

theorem HoldsOnce.index_eq (honce : pool.HoldsOnce) {index other : UInt16} {entry : Entry}
    (hindex : pool.get index = .ok entry) (hother : pool.get other = .ok entry) :
    index = other :=
  congrArg Prod.fst
    (List.inj_on_of_nodup_map honce (mem_entries hindex) (mem_entries hother) rfl)

/-- Each constant of the pool is found where it is. -/
def FindsAll (pool : Pool) : Prop :=
  ∀ index entry, pool.get index = .ok entry → Gives pool (find entry) index

theorem Valid.findsAll (hvalid : pool.Valid) (honce : pool.HoldsOnce) : pool.FindsAll := by
  intro index entry hget
  obtain ⟨first, hfirst, hrun⟩ := hvalid.run_find hget
  rw [honce.index_eq hget hfirst.1]
  exact hrun

/-- What is looked up at an index is put at that index. -/
def Finds (pool : Pool) (lookUp : Pool → UInt16 → Except Error α) (put : α → PoolM UInt16) : Prop :=
  ∀ index value, lookUp pool index = .ok value → Gives pool (put value) index

namespace FindsAll

variable (hpool : pool.FindsAll)

include hpool

theorem finds {α : Type} {lookUp : Pool → UInt16 → Except Error α} (entry : α → Entry)
    (hlookUp : ∀ index value, lookUp pool index = .ok value → pool.get index = .ok (entry value)) :
    pool.Finds lookUp fun value => find (entry value) :=
  fun index value hvalue => hpool index (entry value) (hlookUp index value hvalue)

theorem finds_utf8 : pool.Finds utf8At putUtf8 :=
  hpool.finds .utf8 fun _ _ hvalue => get_of_select hvalue fun found hfound => by
    cases found <;> cases hfound
    rfl

theorem finds_class : pool.Finds classAt putClass :=
  hpool.finds .classRef fun _ _ hvalue => get_of_select hvalue fun found hfound => by
    cases found <;> cases hfound
    rfl

theorem finds_nameAndType : pool.Finds nameAndTypeAt putNameAndType :=
  hpool.finds .nameAndType fun _ _ hvalue => get_of_select hvalue fun found hfound => by
    cases found <;> cases hfound
    rfl

theorem finds_methodHandle : pool.Finds methodHandleAt putMethodHandle :=
  hpool.finds .methodHandle fun _ _ hvalue => get_of_select hvalue fun found hfound => by
    cases found <;> cases hfound
    rfl

theorem finds_integer : pool.Finds integerAt putInteger :=
  hpool.finds .integer fun _ _ hvalue => get_of_select hvalue fun found hfound => by
    cases found <;> cases hfound
    rfl

theorem finds_float : pool.Finds floatAt putFloat :=
  hpool.finds .float fun _ _ hvalue => get_of_select hvalue fun found hfound => by
    cases found <;> cases hfound
    rfl

theorem finds_long : pool.Finds longAt putLong :=
  hpool.finds .long fun _ _ hvalue => get_of_select hvalue fun found hfound => by
    cases found <;> cases hfound
    rfl

theorem finds_double : pool.Finds doubleAt putDouble :=
  hpool.finds .double fun _ _ hvalue => get_of_select hvalue fun found hfound => by
    cases found <;> cases hfound
    rfl

theorem finds_loadable : pool.Finds loadableAt putLoadable :=
  hpool.finds Loadable.toEntry fun _ _ hvalue => get_of_loadableAt hvalue

theorem finds_constantValue : pool.Finds constantValueAt putConstantValue :=
  hpool.finds ConstantValue.toEntry fun _ _ hvalue => get_of_constantValueAt hvalue

end FindsAll

theorem Finds.optional {lookUp : Pool → UInt16 → Except Error α} {put : α → PoolM UInt16}
    (hfinds : pool.Finds lookUp put) : pool.Finds (optionalAt lookUp) (putOptional put) := by
  intro index value hvalue
  unfold optionalAt at hvalue
  split at hvalue
  · rename_i hzero
    cases hvalue
    exact .pure (beq_iff_eq.1 hzero).symm
  · obtain ⟨found, hfound, rfl⟩ := Result.map_eq_ok_iff.1 hvalue
    exact hfinds index found hfound

/-- An index is read as what is found there, which is put at that index again. -/
theorem Finds.spells {lookUp : Pool → UInt16 → Except Error α} {put : α → PoolM UInt16}
    (hfinds : pool.Finds lookUp put) :
    (Reader.uint16 >>= fun index => liftM (lookUp pool index)).Spells fun value bytes =>
      ∃ index, bytes = Bytes.ofUInt16 index ∧ Gives pool (put value) index := by
  refine .bind .uint16 ?_
  rintro index _ rfl
  exact .lift fun value hvalue => ⟨index, List.append_nil _, hfinds index value hvalue⟩

theorem Finds.spells_bind {lookUp : Pool → UInt16 → Except Error α} {put : α → PoolM UInt16}
    (hfinds : pool.Finds lookUp put) {next : α → Reader β} {spelling : β → Bytes → Prop}
    (hnext : ∀ value index, Gives pool (put value) index →
      (next value).Spells fun result back => spelling result (Bytes.ofUInt16 index ++ back)) :
    (Reader.uint16 >>= fun index => liftM (lookUp pool index) >>= next).Spells spelling := by
  refine .bind .uint16 ?_
  rintro index _ rfl
  exact .afterLift fun value hvalue => hnext value index (hfinds index value hvalue)

end Pool

/-! ### Writing back -/

namespace PoolM

variable {α β : Type} {pool : Pool}

/-- What is read is written back as the bytes that it was read from, with nothing added to the
pool. -/
def Restores (pool : Pool) (reader : Reader α) (write : α → PoolM Bytes) : Prop :=
  reader.Spells fun value bytes => Gives pool (write value) bytes

theorem restores_writeIndex {lookUp : Pool → UInt16 → Except Error α} {put : α → PoolM UInt16}
    (hfinds : pool.Finds lookUp put) :
    Restores pool (Reader.uint16 >>= fun index => liftM (lookUp pool index))
      fun value => writeIndex (put value) := by
  refine hfinds.spells.mono ?_
  rintro value _ ⟨index, rfl, hput⟩
  exact hput.map Bytes.ofUInt16

theorem gives_writeAll {write : α → PoolM Bytes} {values : List α} {parts : List Bytes}
    (hparts : List.Forall₂ (fun value part => Gives pool (write value) part) values parts) :
    Gives pool (writeAll write values) parts.flatten := by
  induction hparts with
  | nil => exact .pure rfl
  | cons hvalue _ ih =>
    rw [writeAll_cons]
    exact .bind hvalue (.bind ih (.pure rfl))

theorem gives_writeList {width : Nat} {write : α → PoolM Bytes} {values : List α}
    {parts : List Bytes} (hlt : values.length < 256 ^ width)
    (hparts : List.Forall₂ (fun value part => Gives pool (write value) part) values parts) :
    Gives pool (writeList width write values)
      (Bytes.bigEndian width values.length ++ parts.flatten) :=
  .bind (.lift (ofCount_eq_ok_iff.2 ⟨hlt, rfl⟩)) (.bind (gives_writeAll hparts) (.pure rfl))

namespace Restores

variable {reader : Reader α} {write : α → PoolM Bytes}

theorem list8 (hreader : Restores pool reader write) :
    Restores pool (Reader.list8 reader) (writeList 1 write) := by
  refine (Reader.Spells.list8Parts hreader).mono ?_
  rintro values _ ⟨parts, hparts, hlt, rfl⟩
  exact gives_writeList hlt hparts

theorem list16 (hreader : Restores pool reader write) :
    Restores pool (Reader.list16 reader) (writeList 2 write) := by
  refine (Reader.Spells.list16Parts hreader).mono ?_
  rintro values _ ⟨parts, hparts, hlt, rfl⟩
  exact gives_writeList hlt hparts

end Restores

end PoolM

end JvmClass
