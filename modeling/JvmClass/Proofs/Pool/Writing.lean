import JvmClass.Proofs.Pool.Interning
import JvmClass.Proofs.Reading

/-!
# What is written is read back

Writing is a computation on a pool, and reading is done with the pool that is there in the end. So
what is written for a value has to be read as that value with every pool that comes later:
`PoolM.Encodes`. It carries over from values to lists of them, behind a count or not, and it holds
of all references into the pool.
-/

namespace JvmClass

/-! ### Looking up what was put -/

namespace Pool

open PoolM

variable {pool : Pool} {index : UInt16}

theorem select_of_get {α : Type} {entry : Entry} {value : α} {wanted : List EntryKind}
    {pick : Entry → Option α} (hget : pool.get index = .ok entry)
    (hpick : pick entry = some value) : Pool.select wanted pick pool index = .ok value := by
  simp [Pool.select, hget, hpick, bind, Except.bind, pure, Except.pure]

theorem loadableAt_of_get {value : Loadable} (hget : pool.get index = .ok value.toEntry) :
    pool.loadableAt index = .ok value := by
  have hentry : Loadable.ofEntry value.toEntry = .ok value := by
    cases value <;> rfl
  exact Result.bind_of_ok hget (Result.during_eq_ok_iff.2 hentry)

theorem get_of_select {α : Type} {entry : Entry} {value : α} {wanted : List EntryKind}
    {pick : Entry → Option α} (hselect : Pool.select wanted pick pool index = .ok value)
    (hpick : ∀ found, pick found = some value → found = entry) : pool.get index = .ok entry := by
  obtain ⟨found, hget, hvalue⟩ := Result.exists_of_bind hselect
  split at hvalue
  · rename_i hfound
    cases hvalue
    rw [hget, hpick found hfound]
  · cases hvalue

theorem get_of_loadableAt {value : Loadable} (hvalue : pool.loadableAt index = .ok value) :
    pool.get index = .ok value.toEntry := by
  obtain ⟨entry, hget, hentry⟩ := Result.exists_of_bind hvalue
  rw [Result.during_eq_ok_iff] at hentry
  rw [hget]
  cases entry <;> cases hentry <;> rfl

theorem get_of_constantValueAt {value : ConstantValue}
    (hvalue : pool.constantValueAt index = .ok value) : pool.get index = .ok value.toEntry := by
  obtain ⟨entry, hget, hentry⟩ := Result.exists_of_bind hvalue
  rw [Result.during_eq_ok_iff] at hentry
  rw [hget]
  cases entry <;> cases hentry <;> rfl

theorem constantValueAt_of_get {value : ConstantValue} (hget : pool.get index = .ok value.toEntry) :
    pool.constantValueAt index = .ok value := by
  have hentry : ConstantValue.ofEntry value.toEntry = .ok value := by
    cases value <;> rfl
  exact Result.bind_of_ok hget (Result.during_eq_ok_iff.2 hentry)

instance (value : Loadable) : Lawful (putLoadable value) :=
  inferInstanceAs (Lawful (find value.toEntry))

instance (value : ConstantValue) : Lawful (putConstantValue value) :=
  inferInstanceAs (Lawful (find value.toEntry))

instance {α : Type} (put : α → PoolM UInt16) [∀ value, Lawful (put value)] (value : Option α) :
    Lawful (putOptional put value) := by
  cases value <;> (unfold putOptional; infer_instance)

theorem yields_putClass (name : ClassName) :
    Yields (putClass name) fun index later => later.get index = .ok (.classRef name) :=
  yields_intern _ _

theorem yields_putNameAndType (value : NameAndType) :
    Yields (putNameAndType value) fun index later => later.get index = .ok (.nameAndType value) :=
  yields_intern _ _

/-- A reference that is there is not index zero, so it is not taken for one that is left out. -/
theorem yields_putOptional {α : Type} {put : α → PoolM UInt16} {entry : α → Entry}
    {lookUp : Pool → UInt16 → Except Error α}
    (hput : ∀ value, Yields (put value) fun index later => later.get index = .ok (entry value))
    (hlookUp : ∀ later index value, later.get index = .ok (entry value) →
      lookUp later index = .ok value) (value : Option α) :
    Yields (putOptional put value) fun index later =>
      later.Valid → optionalAt lookUp later index = .ok value := by
  cases value with
  | none => exact .pure fun _ _ => rfl
  | some value =>
    refine (hput value).mono fun index later hget hvalid => ?_
    have hnonzero : (index == 0) = false := beq_eq_false_iff_ne.2 (hvalid.ne_zero hget)
    unfold optionalAt
    rw [hnonzero, if_neg Bool.false_ne_true, hlookUp later index value hget]
    rfl

theorem yields_putOptionalClass (name : Option ClassName) :
    Yields (putOptional putClass name) fun index later =>
      later.Valid → optionalAt classAt later index = .ok name :=
  yields_putOptional yields_putClass (fun _ _ _ hget => select_of_get hget rfl) name

theorem yields_putOptionalUtf8 (text : Option Text) :
    Yields (putOptional putUtf8 text) fun index later =>
      later.Valid → optionalAt utf8At later index = .ok text :=
  yields_putOptional yields_putUtf8 (fun _ _ _ hget => select_of_get hget rfl) text

theorem yields_putOptionalNameAndType (value : Option NameAndType) :
    Yields (putOptional putNameAndType value) fun index later =>
      later.Valid → optionalAt nameAndTypeAt later index = .ok value :=
  yields_putOptional yields_putNameAndType (fun _ _ _ hget => select_of_get hget rfl) value

end Pool

/-! ### References -/

namespace Reader

variable {pool : Pool} {index : UInt16} {α : Type}

theorem reads_lookUp {lookUp : UInt16 → Except Error α} {value : α}
    (hlookUp : lookUp index = .ok value) :
    (Reader.uint16 >>= fun index => liftM (lookUp index)).Reads (Bytes.ofUInt16 index) value :=
  .last (.uint16 index) (.lift hlookUp)

end Reader

/-! ### Lists -/

namespace PoolM

variable {α : Type}

private theorem writeAllFrom_eq (write : α → PoolM Bytes) (values : List α) (written : Array UInt8)
    (pool : Pool) :
    writeAllFrom write values written pool =
      ((written.toList ++ ·) <$> writeAll write values).run pool := by
  induction values generalizing written pool with
  | nil =>
    rw [run_map]
    change (Except.ok written.toList, pool) = (Except.ok (written.toList ++ []), pool)
    rw [List.append_nil]
  | cons value values ih =>
    rw [run_map]
    change writeAllFrom write (value :: values) written pool =
      ((writeAllFrom write (value :: values) #[] pool).1.map (written.toList ++ ·),
        (writeAllFrom write (value :: values) #[] pool).2)
    rw [writeAllFrom, writeAllFrom]
    rcases (write value).run pool with ⟨_ | bytes, between⟩
    · rfl
    · dsimp only
      rw [ih, ih, run_map, run_map]
      rcases (writeAll write values).run between with ⟨_ | others, final⟩
      · rfl
      · simp [Except.map]

theorem writeAll_nil (write : α → PoolM Bytes) : writeAll write [] = pure [] := rfl

theorem writeAll_cons (write : α → PoolM Bytes) (value : α) (values : List α) :
    writeAll write (value :: values) = do
      let bytes ← write value
      let others ← writeAll write values
      return bytes ++ others := by
  funext pool
  refine Eq.trans ?_ (run_bind (write value) _ pool).symm
  change writeAllFrom write (value :: values) #[] pool = _
  rw [writeAllFrom]
  rcases (write value).run pool with ⟨_ | bytes, between⟩
  · rfl
  · dsimp only
    have hempty : ((#[] : Array UInt8) ++ bytes).toList = bytes := by simp
    rw [writeAllFrom_eq, hempty]
    rfl

theorem lawful_writeAll {write : α → PoolM Bytes} {values : List α}
    (hvalues : ∀ value ∈ values, Lawful (write value)) : Lawful (writeAll write values) := by
  induction values with
  | nil =>
    rw [writeAll_nil]
    infer_instance
  | cons value values ih =>
    rw [writeAll_cons]
    have := hvalues value List.mem_cons_self
    have := ih fun other hmem => hvalues other (List.mem_cons_of_mem _ hmem)
    infer_instance

instance (write : α → PoolM Bytes) [∀ value, Lawful (write value)] (values : List α) :
    Lawful (writeAll write values) :=
  lawful_writeAll fun _ _ => inferInstance

instance (width : Nat) (write : α → PoolM Bytes) [∀ value, Lawful (write value)]
    (values : List α) : Lawful (writeList width write values) := by
  unfold writeList
  infer_instance

instance (put : PoolM UInt16) [Lawful put] : Lawful (writeIndex put) := by
  unfold writeIndex
  infer_instance

/-! ### Writing and reading -/

/-- What is written is read as the value, in the pool left behind and in all later ones. -/
def Encodes (write : PoolM Bytes) (read : Pool → Reader α) (value : α) : Prop :=
  Yields write fun bytes later => later.Valid → (read later).Reads bytes value

theorem encodes_writeIndex {put : PoolM UInt16} {lookUp : Pool → UInt16 → Except Error α}
    {value : α} (hput : Yields put fun index later => lookUp later index = .ok value) :
    Encodes (writeIndex put)
      (fun pool => Reader.uint16 >>= fun index => liftM (lookUp pool index)) value :=
  .map (hput.mono fun _ _ hlookUp _ => Reader.reads_lookUp hlookUp)

theorem yields_writeAll {write : α → PoolM Bytes} [∀ value, Lawful (write value)]
    {read : Pool → Reader α} {values : List α}
    (hvalues : ∀ value ∈ values, Encodes (write value) read value) :
    Yields (writeAll write values) fun bytes later =>
      later.Valid → (read later).ReadsMany bytes values := by
  induction values with
  | nil => exact .pure fun _ _ => .nil
  | cons value values ih =>
    rw [writeAll_cons]
    refine .bind (hvalues value List.mem_cons_self) fun bytes => ?_
    refine .bind (ih fun other hmem => hvalues other (List.mem_cons_of_mem _ hmem)) fun others => ?_
    exact .pure fun later hothers hbytes hvalid => .cons (hbytes hvalid) (hothers hvalid)

theorem ofCount_eq_ok_iff {width n : Nat} {bytes : Bytes} :
    Bytes.ofCount width n = .ok bytes ↔ n < 256 ^ width ∧ Bytes.bigEndian width n = bytes := by
  unfold Bytes.ofCount
  rw [show Nat.pow 256 width = 256 ^ width from rfl]
  split
  · simp [*]
  · simp [*]

theorem yields_writeList {width : Nat} {write : α → PoolM Bytes} [∀ value, Lawful (write value)]
    {read : Pool → Reader α} {values : List α}
    (hvalues : ∀ value ∈ values, Encodes (write value) read value) :
    Yields (writeList width write values) fun bytes later => later.Valid →
      ∃ contents, bytes = Bytes.bigEndian width values.length ++ contents ∧
        values.length < 256 ^ width ∧ (read later).ReadsMany contents values := by
  refine .bind (.lift fun count hcount _ => ofCount_eq_ok_iff.1 hcount) fun count => ?_
  refine .bind (yields_writeAll hvalues) fun contents => ?_
  refine .pure fun later hcontents hcount hvalid => ?_
  exact ⟨contents, by rw [hcount.2], hcount.1, hcontents hvalid⟩

theorem encodes_list8 {write : α → PoolM Bytes} [∀ value, Lawful (write value)]
    {read : Pool → Reader α} {values : List α}
    (hvalues : ∀ value ∈ values, Encodes (write value) read value) :
    Encodes (writeList 1 write values) (fun pool => Reader.list8 (read pool)) values := by
  refine (yields_writeList hvalues).mono fun bytes later hbytes hvalid => ?_
  obtain ⟨contents, rfl, hlt, hmany⟩ := hbytes hvalid
  exact hmany.list8 hlt

theorem encodes_list16 {write : α → PoolM Bytes} [∀ value, Lawful (write value)]
    {read : Pool → Reader α} {values : List α}
    (hvalues : ∀ value ∈ values, Encodes (write value) read value) :
    Encodes (writeList 2 write values) (fun pool => Reader.list16 (read pool)) values := by
  refine (yields_writeList hvalues).mono fun bytes later hbytes hvalid => ?_
  obtain ⟨contents, rfl, hlt, hmany⟩ := hbytes hvalid
  exact hmany.list16 hlt

end PoolM

end JvmClass
