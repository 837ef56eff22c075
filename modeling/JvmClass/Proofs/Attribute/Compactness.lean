import JvmClass.Proofs.Attribute.Reproduction
import Mathlib.Algebra.BigOperators.Group.List.Basic
import Mathlib.Algebra.Ring.Nat

/-!
# Compact stack map tables

A frame without or with one stack value has two forms if its distance is below 64, and all other
frames have one. `StackMapFrame.size` is the size of the shorter form. Whatever bytes a frame is read
from are at least as many, and what is written is just as many, so no table is shorter than the one
that is written for the same frames. Where constants are does not matter, since all indices take two
bytes.
-/

namespace JvmClass

/-! ### Sizes -/

def VerificationType.size {υ : Type} : VerificationType υ → Nat
  | object _ | uninitialized _ => 3
  | _ => 1

def VerificationType.sizeAll {υ : Type} (types : List (VerificationType υ)) : Nat :=
  (types.map size).sum

namespace StackMapFrame

/-- The bytes that the distance of a frame takes, together with its tag, if the tag can hold it. -/
def headSize (delta : UInt16) : Nat :=
  if delta < 64 then 1 else 3

/-- The bytes that a frame takes at least. -/
def size (frame : StackMapFrame) : Nat :=
  match frame.frame with
  | .same => headSize frame.offsetDelta
  | .sameWithStack stack => headSize frame.offsetDelta + stack.size
  | .chop _ => 3
  | .append added => 3 + VerificationType.sizeAll added
  | .full locals stack =>
    3 + (2 + VerificationType.sizeAll locals) + (2 + VerificationType.sizeAll stack)

theorem headSize_le (delta : UInt16) : headSize delta ≤ 3 := by
  unfold headSize
  split <;> decide

end StackMapFrame

/-! ### What is written -/

namespace PoolM

variable {α : Type} {write : α → PoolM Bytes} [∀ value, Lawful (write value)] {size : α → Nat}

theorem yields_length_writeAll
    (hwrite : ∀ value, Yields (write value) fun bytes _ => bytes.length = size value)
    (values : List α) :
    Yields (writeAll write values) fun bytes _ => bytes.length = (values.map size).sum := by
  induction values with
  | nil => exact .pure fun _ => rfl
  | cons value values ih =>
    rw [writeAll_cons]
    refine .bind (hwrite value) fun front => .bind ih fun back => .pure fun _ hback hfront => ?_
    rw [List.length_append, List.map_cons, List.sum_cons, hfront, hback]

theorem yields_length_writeList {width : Nat}
    (hwrite : ∀ value, Yields (write value) fun bytes _ => bytes.length = size value)
    (values : List α) :
    Yields (writeList width write values) fun bytes _ =>
      bytes.length = width + (values.map size).sum := by
  have hcount : Yields (liftM (Bytes.ofCount width values.length)) fun count _ =>
      count.length = width := by
    refine .lift fun count hcount _ => ?_
    obtain ⟨-, rfl⟩ := ofCount_eq_ok_iff.1 hcount
    exact Bytes.length_bigEndian width _
  refine .bind hcount fun count => .bind (yields_length_writeAll hwrite values) fun contents => ?_
  refine .pure fun _ hcontents hcount => ?_
  rw [List.length_append, hcount, hcontents]

end PoolM

open PoolM

theorem VerificationType.yields_length_write (type : VerificationType UInt16) :
    Yields type.write fun bytes _ => bytes.length = type.size := by
  cases type with
  | object name => exact .after fun index => .pure fun _ => by simp [size]
  | uninitialized origin => exact .pure fun _ => by simp [size]
  | _ => exact .pure fun _ => rfl

namespace StackMapFrame

theorem length_head (delta : UInt16) (short long : UInt8) :
    (if delta < 64 then [short] else long :: Bytes.ofUInt16 delta).length = headSize delta := by
  unfold headSize
  split <;> simp

theorem yields_length_write (frame : StackMapFrame) :
    Yields frame.write fun bytes _ => bytes.length = frame.size := by
  obtain ⟨delta, frame⟩ := frame
  have htype := VerificationType.yields_length_write
  cases frame with
  | same => exact .pure fun _ => length_head delta _ _
  | sameWithStack stack =>
    refine .bind (htype stack) fun bytes => .pure fun _ hbytes => ?_
    rw [List.length_append, length_head, hbytes]
    rfl
  | chop removed => exact .pure fun _ => by simp [size]
  | append added =>
    refine .bind (yields_length_writeAll htype added) fun contents => .pure fun _ hcontents => ?_
    rw [List.cons_append, List.length_cons, List.length_append, Bytes.length_ofUInt16, hcontents]
    simp only [size, VerificationType.sizeAll]
    omega
  | full locals stack =>
    refine .bind (PoolM.yields_length_writeList htype locals) fun first => ?_
    refine .bind (PoolM.yields_length_writeList htype stack) fun second => ?_
    refine .pure fun _ hsecond hfirst => ?_
    rw [List.length_append, List.cons_append, List.length_cons, List.length_append,
      Bytes.length_ofUInt16, hfirst, hsecond]
    simp only [size, VerificationType.sizeAll]
    omega

theorem yields_length_writeList (frames : List StackMapFrame) :
    Yields (writeList frames) fun bytes _ => bytes.length = 2 + (frames.map size).sum :=
  .after fun _ => PoolM.yields_length_writeList yields_length_write frames

end StackMapFrame

/-! ### What is read -/

theorem sum_le_length_flatten {α : Type} {size : α → Nat} {values : List α} {parts : List Bytes}
    (hparts : List.Forall₂ (fun value part => size value ≤ part.length) values parts) :
    (values.map size).sum ≤ parts.flatten.length := by
  induction hparts with
  | nil => exact Nat.le_refl 0
  | cons hfirst _ ih =>
    rw [List.map_cons, List.sum_cons, List.flatten_cons, List.length_append]
    exact Nat.add_le_add hfirst ih

namespace Reader.Spells

variable {α : Type} {reader : Reader α} {size : α → Nat}

theorem size_many (hreader : reader.Spells fun value bytes => size value ≤ bytes.length)
    (count : Nat) :
    (Reader.many count reader).Spells fun values bytes =>
      (values.map size).sum ≤ bytes.length := by
  refine (hreader.manyParts count).mono ?_
  rintro values _ ⟨parts, hparts, -, rfl⟩
  exact sum_le_length_flatten hparts

theorem size_list16 (hreader : reader.Spells fun value bytes => size value ≤ bytes.length) :
    (Reader.list16 reader).Spells fun values bytes =>
      2 + (values.map size).sum ≤ bytes.length := by
  refine .bind .uint16 ?_
  rintro count _ rfl
  refine (hreader.size_many count.toNat).mono fun values bytes hbytes => ?_
  rw [List.length_append, Bytes.length_ofUInt16]
  omega

end Reader.Spells

theorem VerificationType.spells_size (pool : Pool) :
    (read pool).Spells fun type bytes => type.size ≤ bytes.length := by
  apply Reader.Spells.bind .uint8
  rintro tag _ rfl
  split
  case h_8 =>
    apply Reader.Spells.bind .uint16
    rintro index _ rfl
    exact .afterLift fun name _ => .pure (by simp [size])
  case h_9 =>
    apply Reader.Spells.bind .uint16
    rintro origin _ rfl
    exact .pure (by simp [size])
  case h_10 => exact .fail
  all_goals exact .pure (Nat.le_refl 1)

namespace StackMapFrame

theorem headSize_toUInt16 {tag : UInt8} (hsmall : tag < 64) : headSize tag.toUInt16 = 1 := by
  apply if_pos
  rw [UInt16.lt_iff_toNat_lt, UInt8.toNat_toUInt16]
  exact UInt8.lt_iff_toNat_lt.1 hsmall

/-- Whatever form a frame is read from is no shorter than its shorter form. -/
theorem spells_size (pool : Pool) :
    (read pool).Spells fun frame bytes => frame.size ≤ bytes.length := by
  have htype := VerificationType.spells_size pool
  apply Reader.Spells.bind .uint8
  rintro tag _ rfl
  -- The tag holds the distance.
  split
  · rename_i hsmall
    exact .pure (Nat.le_of_eq (headSize_toUInt16 hsmall))
  split
  · rename_i hlarge hsmall
    have hhead : headSize (tag - 64).toUInt16 = 1 := headSize_toUInt16 (by grind)
    refine htype.bind fun stack bytes hstack => .pure ?_
    simp only [size, hhead, List.length_append, List.length_singleton, List.length_nil]
    omega
  split
  · exact .fail
  -- The distance follows the tag, so there are three bytes before anything else.
  apply Reader.Spells.bind .uint16
  rintro delta _ rfl
  have hhead := headSize_le delta
  split
  · refine htype.bind fun stack bytes hstack => .pure ?_
    simp only [size, List.length_append, List.length_singleton, Bytes.length_ofUInt16,
      List.length_nil]
    omega
  split
  · exact .pure (by simp [size])
  split
  · refine .pure ?_
    simp only [size, List.length_append, List.length_singleton, Bytes.length_ofUInt16,
      List.length_nil]
    omega
  split
  · refine (htype.size_many _).bind fun added bytes hadded => .pure ?_
    simp only [size, VerificationType.sizeAll, List.length_append, List.length_singleton,
      Bytes.length_ofUInt16, List.length_nil]
    omega
  · refine htype.size_list16.bind fun locals front hlocals => ?_
    refine htype.size_list16.bind fun stack back hstack => .pure ?_
    simp only [size, VerificationType.sizeAll, List.length_append, List.length_singleton,
      Bytes.length_ofUInt16, List.length_nil]
    omega

theorem spells_size_readList (pool : Pool) :
    (readList pool).Spells fun frames bytes => 2 + (frames.map size).sum ≤ bytes.length := by
  intro input frames rest hread
  obtain ⟨count, between, hcount, hframes⟩ := Reader.exists_of_bind hread
  obtain ⟨_, hmany, rfl⟩ := readListFrom_follows 0 count.toNat [] between frames rest hframes
  apply (spells_size pool).size_list16 input frames rest
  change (Reader.uint16 input >>= fun found => Reader.many found.1.toNat (read pool) found.2) = _
  rw [hcount]
  exact hmany

end StackMapFrame

/-! ### Tables -/

/-- A frame removes or adds one to three local variables, if it removes or adds any. -/
def Frame.InBounds {υ : Type} : Frame υ → Prop
  | chop removed => 1 ≤ removed ∧ removed ≤ 3
  | append added => 1 ≤ added.length ∧ added.length ≤ 3
  | _ => True

theorem Frame.check_cases {υ : Type} (frame : Frame υ) :
    frame.InBounds ∧ frame.check = .ok () ∨
      ¬frame.InBounds ∧ ∃ error, frame.check = .error error ∧ error.kind = .format := by
  cases frame with
  | chop removed =>
    by_cases hbounds : 1 ≤ removed ∧ removed ≤ 3
    · exact .inl ⟨hbounds, if_pos hbounds⟩
    · exact .inr ⟨hbounds, _, if_neg hbounds, rfl⟩
  | append added =>
    by_cases hbounds : 1 ≤ added.length ∧ added.length ≤ 3
    · exact .inl ⟨hbounds, if_pos hbounds⟩
    · exact .inr ⟨hbounds, _, if_neg hbounds, rfl⟩
  | _ => exact .inl ⟨trivial, rfl⟩

namespace StackMapFrame

/-- A list with a frame out of bounds fails at the first one, wherever that is. -/
theorem exists_checkAll_eq {frames : List StackMapFrame}
    (hout : ∃ frame ∈ frames, ¬frame.frame.InBounds) :
    ∃ error, checkAll frames = .error error ∧ error.kind = .format := by
  obtain ⟨frame, hmem, hout⟩ := hout
  induction frames with
  | nil => cases hmem
  | cons first frames ih =>
    obtain ⟨hbounds, hcheck⟩ | ⟨-, error, hcheck, hkind⟩ := first.frame.check_cases
    · cases hmem with
      | head => exact absurd hbounds hout
      | tail _ hmem =>
        rw [checkAll, hcheck]
        exact ih hmem
    · rw [checkAll, hcheck]
      exact ⟨error, rfl, hkind⟩

/-- Tables are compact. What is written for frames is read as those frames again, and nothing that is
read as them in the pool left behind is shorter. With a frame out of bounds anywhere, writing fails
and the pool stays as it is. -/
theorem writeList_compact {pool : Pool} (hreachable : pool.Reachable)
    (frames : List StackMapFrame) :
    (∀ written final, (writeList frames).run pool = (.ok written, final) →
      (∀ frame ∈ frames, frame.frame.InBounds) ∧
      readList final (Input.ofBytes written) = .ok (frames, ⟨written.length, []⟩) ∧
      ∀ bytes rest, readList final (Input.ofBytes bytes) = .ok (frames, rest) →
        written.length + rest.rest.length ≤ bytes.length) ∧
    ((∃ frame ∈ frames, ¬frame.frame.InBounds) →
      ∃ error, (writeList frames).run pool = (.error error, pool) ∧ error.kind = .format) := by
  have hfails : (∃ frame ∈ frames, ¬frame.frame.InBounds) →
      ∃ error, (writeList frames).run pool = (.error error, pool) ∧ error.kind = .format := by
    intro hout
    obtain ⟨error, hcheck, hkind⟩ := exists_checkAll_eq hout
    refine ⟨error, ?_, hkind⟩
    unfold writeList
    rw [hcheck]
    rfl
  refine ⟨fun written final hwrite => ⟨?_, ?_, ?_⟩, hfails⟩
  · by_contra hout
    simp only [not_forall] at hout
    obtain ⟨frame, hmem, hout⟩ := hout
    obtain ⟨error, herror, -⟩ := hfails ⟨frame, hmem, hout⟩
    rw [herror] at hwrite
    cases hwrite
  · have hfinal : final.Valid := valid_of_run hreachable.built.valid hwrite
    have hreads := encodes_writeList frames pool written final hwrite final (.refl _) hfinal 0 []
    rw [List.append_nil, Nat.zero_add] at hreads
    exact hreads
  · intro bytes rest hread
    have hlength := yields_length_writeList frames pool written final hwrite final (.refl _)
    obtain ⟨taken, hinput, -, hsize⟩ := spells_size_readList final _ _ _ hread
    have hbytes : bytes = taken ++ rest.rest := congrArg Input.rest hinput
    rw [hbytes, List.length_append, hlength]
    omega

/-- Frames on both sides of where the tag can hold the distance, and one of each other form that
does not need a class. -/
def edgeFrames : List StackMapFrame :=
  [⟨63, .same⟩, ⟨64, .same⟩, ⟨63, .sameWithStack .integer⟩, ⟨64, .sameWithStack .null⟩,
    ⟨7, .chop 3⟩, ⟨0, .append [.top, .uninitialized 9]⟩, ⟨1, .full [.long] []⟩]

def edgeTable : Bytes :=
  [0, 7, 63, 251, 0, 64, 127, 1, 247, 0, 64, 5, 248, 0, 7, 253, 0, 0, 0, 8, 0, 9,
    255, 0, 1, 0, 1, 4, 0, 0]

/-- The table with the first and the third frame in their longer forms. -/
def looseEdgeTable : Bytes :=
  [0, 7, 251, 0, 63, 251, 0, 64, 247, 0, 63, 1, 247, 0, 64, 5, 248, 0, 7, 253, 0, 0, 0, 8, 0, 9,
    255, 0, 1, 0, 1, 4, 0, 0]

/-- The frames are written as the table, which is no longer than the loose one that reads as the
same frames; and a frame out of bounds behind another one is refused. -/
theorem writeList_compact_edgeFrames :
    Pool.empty.Reachable ∧
      (writeList edgeFrames).run Pool.empty = (.ok edgeTable, Pool.empty) ∧
      readList Pool.empty (Input.ofBytes looseEdgeTable) = .ok (edgeFrames, ⟨34, []⟩) ∧
      edgeTable.length ≤ looseEdgeTable.length ∧
      ∃ error, (writeList [⟨0, .same⟩, ⟨0, .chop 4⟩]).run Pool.empty = (.error error, Pool.empty) ∧
        error.kind = .format := by
  have hempty : Pool.empty.Reachable := ⟨Pool.empty, .inl rfl, .refl⟩
  have hwrite : (writeList edgeFrames).run Pool.empty = (.ok edgeTable, Pool.empty) := rfl
  have hloose : readList Pool.empty (Input.ofBytes looseEdgeTable) =
      .ok (edgeFrames, ⟨34, []⟩) := rfl
  obtain ⟨-, -, hshortest⟩ := (writeList_compact hempty edgeFrames).1 _ _ hwrite
  refine ⟨hempty, hwrite, hloose, hshortest _ _ hloose, ?_⟩
  apply (writeList_compact hempty _).2
  exact ⟨⟨0, .chop 4⟩, by simp, by simp [Frame.InBounds]⟩

end StackMapFrame

end JvmClass
