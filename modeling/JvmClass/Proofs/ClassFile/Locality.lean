import JvmClass.Proofs.ClassFile.Malformed

/-!
# What reading looks at

A reader is local if it only looks at the bytes that it takes: it would have made the same value of
them whatever came after them. All readers that a class file is read with are local; an attribute
may use up whatever it is given, but what it is given is cut out by its length first. A local reader
notices when its input ends too early, since otherwise it would also have stopped early with the
rest of the input there.
-/

namespace JvmClass

/-- Whatever the reader makes of its input, it takes bytes off the front that it reads as the same
value in front of anything else. -/
class Reader.IsLocal {α : Type} (reader : Reader α) : Prop where
  spells : reader.Spells fun value bytes => reader.Reads bytes value

namespace Reader.IsLocal

section

variable {α β : Type}

/-- Reading again what a local reader took, with something else behind it. -/
theorem read_take_append {reader : Reader α} [hreader : reader.IsLocal] {bytes : Bytes} {value : α}
    {left : Input} (hread : reader (.ofBytes bytes) = .ok (value, left)) :
    left.position ≤ bytes.length ∧ left.rest = bytes.drop left.position ∧
      ∀ tail, reader (.ofBytes (bytes.take left.position ++ tail)) =
        .ok (value, ⟨left.position, tail⟩) := by
  obtain ⟨front, hinput, hposition, hreads⟩ := hreader.spells _ _ _ hread
  have hbytes : bytes = front ++ left.rest := congrArg Input.rest hinput
  have hlength : left.position = front.length := by
    rw [hposition]
    exact Nat.zero_add _
  rw [hlength]
  subst hbytes
  refine ⟨by simp, by simp, fun tail => ?_⟩
  rw [List.take_left]
  have hagain := hreads 0 tail
  rwa [Nat.zero_add] at hagain

/-- A local reader fails on an input that ends before what it would have taken. -/
theorem exists_error_of_take {reader : Reader α} [reader.IsLocal] {bytes : Bytes} {value : α}
    {left : Input} (hread : reader (.ofBytes bytes) = .ok (value, left)) {size : Nat}
    (hsize : size < left.position) :
    ∃ error, reader (.ofBytes (bytes.take size)) = .error error := by
  cases htruncated : reader (.ofBytes (bytes.take size)) with
  | error error => exact ⟨error, rfl⟩
  | ok found =>
    -- what was found in the shorter input is found in the longer one too, and ends just as early
    obtain ⟨other, early⟩ := found
    obtain ⟨hle, hrest, hagain⟩ := read_take_append htruncated
    have hbytes :
        (bytes.take size).take early.position ++ (early.rest ++ bytes.drop size) = bytes := by
      rw [hrest, ← List.append_assoc, List.take_append_drop, List.take_append_drop]
    have hwhole := hagain (early.rest ++ bytes.drop size)
    rw [hbytes, hread] at hwhole
    cases hwhole
    have htaken : (bytes.take size).length ≤ size := List.length_take_le ..
    exact absurd (Nat.lt_of_lt_of_le hsize (Nat.le_trans hle htaken)) (Nat.lt_irrefl _)

/-! ### Parts of readers -/

instance (value : α) : IsLocal (pure value : Reader α) where
  spells := .pure (.pure value)

theorem fail (fault : Fault) : IsLocal (Reader.fail fault : Reader α) where
  spells := .fail

theorem bind {reader : Reader α} {next : α → Reader β} (hreader : reader.IsLocal)
    (hnext : ∀ value, (next value).IsLocal) : (reader >>= next).IsLocal where
  spells := hreader.spells.bind fun value _ hfront =>
    (hnext value).spells.mono fun _ _ hback => hfront.bind hback

instance (reader : Reader α) (next : α → Reader β) [hreader : reader.IsLocal]
    [hnext : ∀ value, (next value).IsLocal] : (reader >>= next).IsLocal :=
  bind hreader hnext

instance (f : α → β) (reader : Reader α) [reader.IsLocal] : IsLocal (f <$> reader) := by
  rw [map_eq_pure_bind]
  infer_instance

instance (result : Except Error α) : IsLocal (liftM result : Reader α) where
  spells := .lift fun _ hvalue => .lift hvalue

instance (activity : Activity) (reader : Reader α) [hreader : reader.IsLocal] :
    (reader.during activity).IsLocal where
  spells := (hreader.spells.during activity).mono fun _ _ hreads => hreads.during activity

instance (size : Nat) : (Reader.bytes size).IsLocal where
  spells := (Spells.bytes size).mono fun value bytes ⟨hvalue, hlength⟩ => by
    subst hvalue hlength
    exact .bytes value

instance (signed : Bool) (width : Nat) : (Reader.number signed width).IsLocal :=
  inferInstanceAs (IsLocal (Reader.during _ _))

instance : Reader.uint8.IsLocal := inferInstanceAs (IsLocal (_ <$> _))

instance : Reader.uint16.IsLocal := inferInstanceAs (IsLocal (_ <$> _))

instance : Reader.uint32.IsLocal := inferInstanceAs (IsLocal (_ <$> _))

instance : Reader.uint64.IsLocal := inferInstanceAs (IsLocal (_ <$> _))

instance : Reader.int32.IsLocal := inferInstanceAs (IsLocal (_ <$> _))

instance : Reader.int64.IsLocal := inferInstanceAs (IsLocal (_ <$> _))

instance (reader : Reader α) [reader.IsLocal] (count : Nat) (found : List α) :
    IsLocal (manyFrom reader count found : Reader (List α)) := by
  induction count generalizing found with
  | zero => exact inferInstanceAs (IsLocal (pure found.reverse))
  | succ count ih =>
    rw [manyFrom_succ]
    infer_instance

instance (reader : Reader α) [reader.IsLocal] (count : Nat) : (Reader.many count reader).IsLocal :=
  inferInstanceAs (IsLocal (manyFrom reader count []))

instance (reader : Reader α) [reader.IsLocal] : (Reader.list16 reader).IsLocal := by
  unfold Reader.list16
  infer_instance

end

/-! ### Constant pools -/

instance (kind : EntryKind) : (RawEntry.readContents kind).IsLocal := by
  cases kind with
  | utf8 =>
    unfold RawEntry.readContents
    refine bind inferInstance fun length => bind inferInstance fun contents => ?_
    split
    · infer_instance
    · exact fail _
  | _ =>
    unfold RawEntry.readContents
    infer_instance

instance (tag : UInt8) : (RawEntry.read tag).IsLocal := by
  unfold RawEntry.read
  split
  · infer_instance
  · exact fail _

/-- Reading one entry and then the slots that are still missing, as `readSlots` does. -/
theorem readSlots_succ (missing : Nat) (slots : Array (Option RawEntry)) :
    (RawPool.readSlots (missing + 1) slots : Reader RawPool) = (do
      let tag ← Reader.uint8
      let entry ← Reader.during (.readingEntry slots.size) (RawEntry.read tag)
      if entry.kind.isWide then
        match missing with
        | 0 => Reader.fail (.missingUpperHalf slots.size)
        | missing + 1 => RawPool.readSlots missing ((slots.push (some entry)).push none)
      else
        RawPool.readSlots missing (slots.push (some entry)) : Reader RawPool) := by
  funext input
  rw [RawPool.readSlots.eq_def]
  dsimp only
  change _ = (Reader.uint8 input >>= fun tagged =>
    Reader.during (.readingEntry slots.size) (RawEntry.read tagged.1) tagged.2 >>= fun next => _)
  cases Reader.uint8 input with
  | error error => rfl
  | ok tagged =>
    change _ = (Reader.during (.readingEntry slots.size) (RawEntry.read tagged.1) tagged.2 >>=
      fun next => _)
    dsimp only
    cases Reader.during (.readingEntry slots.size) (RawEntry.read tagged.1) tagged.2 with
    | error error => rfl
    | ok next =>
      change _ = (ite (next.1.kind.isWide = true) _ _ : Reader RawPool) next.2
      by_cases hwide : next.1.kind.isWide
      · cases missing with
        | zero =>
          simp only [hwide, if_true]
          rfl
        | succ missing => simp only [hwide, if_true]
      · simp only [hwide]
        rfl

instance (missing : Nat) (slots : Array (Option RawEntry)) :
    IsLocal (RawPool.readSlots missing slots : Reader RawPool) := by
  induction missing using Nat.strongRecOn generalizing slots with
  | ind missing ih =>
    cases missing with
    | zero =>
      have hempty : (RawPool.readSlots 0 slots : Reader RawPool) =
          (pure ⟨slots⟩ : Reader RawPool) := by
        funext input
        rw [RawPool.readSlots]
        rfl
      rw [hempty]
      infer_instance
    | succ missing =>
      rw [readSlots_succ]
      refine bind inferInstance fun tag => bind inferInstance fun entry => ?_
      split
      · cases missing with
        | zero => exact fail _
        | succ missing => exact ih missing (by omega) _
      · exact ih missing (by omega) _

instance : RawPool.read.IsLocal := by
  unfold RawPool.read
  refine bind inferInstance fun count => ?_
  split
  · exact bind (fail _) inferInstance
  · infer_instance

instance : Pool.read.IsLocal := by
  unfold Pool.read
  infer_instance

/-! ### Class files -/

section

variable (pool : Pool)

instance : (Reader.utf8 pool).IsLocal := by
  unfold Reader.utf8
  infer_instance

instance : (Reader.className pool).IsLocal := by
  unfold Reader.className
  infer_instance

instance : (Reader.optionalClassName pool).IsLocal := by
  unfold Reader.optionalClassName
  infer_instance

/-- What is read inside the contents of an attribute need not be local. -/
instance (contents : Reader (List Attribute)) (scope : Scope) :
    (Attribute.readWith pool contents scope).IsLocal := by
  unfold Attribute.readWith
  infer_instance

instance (scope : Scope) : (Attribute.readList pool scope).IsLocal := by
  unfold Attribute.readList
  infer_instance

instance : (Field.read pool).IsLocal := by
  unfold Field.read
  infer_instance

instance : (Method.read pool).IsLocal := by
  unfold Method.read
  infer_instance

end

instance : ClassFile.readVersion.IsLocal := by
  unfold ClassFile.readVersion
  refine bind inferInstance fun minor => bind inferInstance fun major => ?_
  dsimp only
  split
  · exact bind (fail _) inferInstance
  · infer_instance

instance : ClassFile.read.IsLocal := by
  unfold ClassFile.read
  refine bind inferInstance fun magic => ?_
  split
  · exact bind (fail _) inferInstance
  · infer_instance

end Reader.IsLocal

/-- **A class file ends where it says.** The bytes that a class file is read from are the ones that
it takes: when they are cut short anywhere reading fails, and says that the input is malformed, and
whatever stands behind them makes no difference. -/
theorem ClassFile.read_take_and_read_append {bytes : Bytes} {file : ClassFile} {left : Input}
    (hread : ClassFile.read (.ofBytes bytes) = .ok (file, left)) :
    left.position ≤ bytes.length ∧ left.rest = bytes.drop left.position ∧
      (∀ size < left.position, ∃ error,
        ClassFile.read (.ofBytes (bytes.take size)) = .error error ∧ error.kind = .format) ∧
      ∀ tail, ClassFile.read (.ofBytes (bytes.take left.position ++ tail)) =
        .ok (file, ⟨left.position, tail⟩) := by
  obtain ⟨hle, hrest, hagain⟩ := Reader.IsLocal.read_take_append hread
  refine ⟨hle, hrest, fun size hsize => ?_, hagain⟩
  obtain ⟨error, herror⟩ := Reader.IsLocal.exists_error_of_take hread hsize
  exact ⟨error, herror, Result.BlamesInput.kind_eq error herror⟩

/-- A class `A` of 38 bytes, with an attribute of one byte named like itself, and two bytes more. -/
def ClassFile.bytesWithTail : Bytes :=
  [0xCA, 0xFE, 0xBA, 0xBE, 0, 0, 0, 52, 0, 3, 7, 0, 2, 1, 0, 1, 65, 0, 33, 0, 1, 0, 0, 0, 0, 0, 0, 0,
    0, 0, 1, 0, 2, 0, 0, 0, 1, 9, 11, 12]

theorem ClassFile.read_take_and_read_append_bytesWithTail :
    ∃ file left, ClassFile.read (.ofBytes bytesWithTail) = .ok (file, left) ∧ left.position = 38 ∧
      (∀ size < 38, ∃ error,
        ClassFile.read (.ofBytes (bytesWithTail.take size)) = .error error ∧ error.kind = .format) ∧
      ∀ tail,
        ClassFile.read (.ofBytes (bytesWithTail.take 38 ++ tail)) = .ok (file, ⟨38, tail⟩) := by
  have hread : ∃ file rest,
      ClassFile.read (.ofBytes bytesWithTail) = .ok (file, (⟨38, rest⟩ : Input)) := ⟨_, _, rfl⟩
  obtain ⟨file, rest, hread⟩ := hread
  obtain ⟨-, -, htruncated, hagain⟩ := ClassFile.read_take_and_read_append hread
  exact ⟨file, ⟨38, rest⟩, hread, rfl, htruncated, hagain⟩

end JvmClass
