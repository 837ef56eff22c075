import JvmClass.Bytes.Reader
import JvmClass.Proofs.Result
import Mathlib.Algebra.Group.Nat.Defs
import Mathlib.Data.List.Forall2

/-!
# What readers read

`reader.Reads bytes value` says that the reader takes exactly these bytes off the front of any input
and makes this value of them, whatever follows and wherever the input stands. It is closed under
everything that readers are made of, so that a format is read back by the same composition that
wrote it.
-/

namespace JvmClass

/-! ### Numbers in bytes -/

namespace Bytes

theorem bigEndian_zero (n : Nat) : bigEndian 0 n = [] := rfl

theorem bigEndian_succ (width n : Nat) :
    bigEndian (width + 1) n = UInt8.ofNat (n / 256 ^ width) :: bigEndian width n := rfl

theorem bigEndian_one (n : Nat) : bigEndian 1 n = [UInt8.ofNat n] := by
  rw [bigEndian_succ, bigEndian_zero, Nat.pow_zero, Nat.div_one]

@[simp] theorem length_bigEndian (width n : Nat) : (bigEndian width n).length = width := by
  induction width with
  | zero => rfl
  | succ width ih => simp [bigEndian_succ, ih]

private theorem foldl_bigEndian (width n start : Nat) :
    (bigEndian width n).foldl (fun n byte => n * 256 + byte.toNat) start =
      start * 256 ^ width + n % 256 ^ width := by
  induction width generalizing start with
  | zero => simp [bigEndian_zero, Nat.mod_one]
  | succ width ih =>
    have hpow : 256 ^ (width + 1) = 256 ^ width * 256 := Nat.pow_succ ..
    have hsplit : n % (256 ^ width * 256) =
        n % 256 ^ width + 256 ^ width * (n / 256 ^ width % 256) := Nat.mod_mul
    have hbyte : (UInt8.ofNat (n / 256 ^ width)).toNat = n / 256 ^ width % 256 := by simp
    rw [bigEndian_succ, List.foldl_cons, ih, hbyte, hpow, hsplit, Nat.add_mul, Nat.mul_assoc,
      Nat.mul_comm 256, Nat.mul_comm (n / 256 ^ width % 256)]
    omega

theorem toNat_bigEndian (width n : Nat) : toNat (bigEndian width n) = n % 256 ^ width := by
  simp [toNat, foldl_bigEndian]

theorem toNat_bigEndian_of_lt {width n : Nat} (hlt : n < 256 ^ width) :
    toNat (bigEndian width n) = n := by
  rw [toNat_bigEndian, Nat.mod_eq_of_lt hlt]

private theorem foldl_eq (bytes : Bytes) (start : Nat) :
    bytes.foldl (fun n byte => n * 256 + byte.toNat) start =
      start * 256 ^ bytes.length + toNat bytes := by
  unfold toNat
  induction bytes generalizing start with
  | nil => simp
  | cons byte bytes ih =>
    rw [List.foldl_cons, List.foldl_cons, ih, ih (0 * 256 + byte.toNat), List.length_cons,
      Nat.pow_succ', Nat.zero_mul, Nat.zero_add, Nat.add_mul, Nat.mul_assoc, Nat.add_assoc]

theorem toNat_cons (byte : UInt8) (bytes : Bytes) :
    toNat (byte :: bytes) = byte.toNat * 256 ^ bytes.length + toNat bytes := by
  have hfold := foldl_eq bytes byte.toNat
  rw [← hfold, toNat, List.foldl_cons, Nat.zero_mul, Nat.zero_add]

theorem toNat_lt (bytes : Bytes) : toNat bytes < 256 ^ bytes.length := by
  induction bytes with
  | nil => decide
  | cons byte bytes ih =>
    have hbyte : byte.toNat + 1 ≤ 256 := byte.toNat_lt
    rw [toNat_cons, List.length_cons, Nat.pow_succ']
    refine Nat.lt_of_lt_of_le (Nat.add_lt_add_left ih _) ?_
    rw [← Nat.succ_mul]
    exact Nat.mul_le_mul_right _ hbyte

private theorem bigEndian_add_mul (width high n : Nat) :
    bigEndian width (high * 256 ^ width + n) = bigEndian width n := by
  induction width generalizing high with
  | zero => rfl
  | succ width ih =>
    have hpow : high * 256 ^ (width + 1) = high * 256 * 256 ^ width := by
      rw [Nat.pow_succ', Nat.mul_assoc]
    have hpos : 0 < 256 ^ width := Nat.pow_pos (by decide)
    rw [bigEndian_succ, bigEndian_succ, hpow, ih, Nat.add_comm (high * 256 * 256 ^ width),
      Nat.add_mul_div_right _ _ hpos]
    congr 1
    rw [← UInt8.toNat_inj]
    simp

theorem bigEndian_toNat (bytes : Bytes) : bigEndian bytes.length (toNat bytes) = bytes := by
  induction bytes with
  | nil => rfl
  | cons byte bytes ih =>
    have hpos : 0 < 256 ^ bytes.length := Nat.pow_pos (by decide)
    have hdiv : (byte.toNat * 256 ^ bytes.length + toNat bytes) / 256 ^ bytes.length =
        byte.toNat := by
      rw [Nat.add_comm, Nat.add_mul_div_right _ _ hpos, Nat.div_eq_of_lt (toNat_lt bytes),
        Nat.zero_add]
    rw [toNat_cons, List.length_cons, bigEndian_succ, bigEndian_add_mul, hdiv, ih,
      UInt8.ofNat_toNat]

@[simp] theorem length_ofUInt16 (n : UInt16) : (ofUInt16 n).length = 2 := by
  simp [ofUInt16]

@[simp] theorem length_ofUInt32 (n : UInt32) : (ofUInt32 n).length = 4 := by
  simp [ofUInt32]

@[simp] theorem length_ofInt16 (n : Int16) : (ofInt16 n).length = 2 := by
  simp [ofInt16]

@[simp] theorem length_ofInt32 (n : Int32) : (ofInt32 n).length = 4 := by
  simp [ofInt32]

end Bytes

/-! ### Reading exactly some bytes -/

namespace Reader

variable {α β : Type}

theorem exists_of_bind {reader : Reader α} {next : α → Reader β} {input rest : Input} {result : β}
    (hread : (reader >>= next) input = .ok (result, rest)) :
    ∃ value between, reader input = .ok (value, between) ∧
      next value between = .ok (result, rest) := by
  change (reader input >>= fun found => next found.1 found.2) = _ at hread
  obtain ⟨⟨value, between⟩, hvalue, hnext⟩ := Result.exists_of_bind hread
  exact ⟨value, between, hvalue, hnext⟩

/-- Reading one value and then the others, as `manyFrom` does. -/
theorem manyFrom_succ (reader : Reader α) (count : Nat) (found : List α) :
    (manyFrom reader (count + 1) found : Reader (List α)) =
      reader >>= fun value => manyFrom reader count (value :: found) := by
  funext input
  rw [manyFrom]
  change _ = (reader input >>= fun next => manyFrom reader count (next.1 :: found) next.2)
  cases reader input <;> rfl

/-- The reader takes these bytes off the front of any input and makes this value of them. -/
def Reads (reader : Reader α) (bytes : Bytes) (value : α) : Prop :=
  ∀ position rest,
    reader ⟨position, bytes ++ rest⟩ = .ok (value, ⟨position + bytes.length, rest⟩)

namespace Reads

theorem pure (value : α) : (Pure.pure value : Reader α).Reads [] value := by
  intro position rest
  rfl

theorem bind {reader : Reader α} {next : α → Reader β} {front back : Bytes} {value : α}
    {result : β} (hfront : reader.Reads front value) (hback : (next value).Reads back result) :
    (reader >>= next).Reads (front ++ back) result := by
  intro position rest
  change (reader ⟨position, front ++ back ++ rest⟩ >>= fun (value, input) => next value input) = _
  rw [List.append_assoc, hfront]
  change next value _ = _
  rw [hback, List.length_append, Nat.add_assoc]

theorem last {reader : Reader α} {next : α → Reader β} {bytes : Bytes} {value : α} {result : β}
    (hreads : reader.Reads bytes value) (hnext : (next value).Reads [] result) :
    (reader >>= next).Reads bytes result := by
  have hbind := bind hreads hnext
  rwa [List.append_nil] at hbind

theorem returning {reader : Reader α} {f : α → β} {bytes : Bytes} {value : α} {result : β}
    (hreads : reader.Reads bytes value) (hresult : f value = result) :
    (reader >>= fun value => Pure.pure (f value)).Reads bytes result := by
  subst hresult
  exact last hreads (pure (f value))

theorem map {reader : Reader α} {bytes : Bytes} {value : α} (f : α → β)
    (hreads : reader.Reads bytes value) : (f <$> reader).Reads bytes (f value) := by
  intro position rest
  change (reader _ >>= fun (value, input) => Pure.pure (f value, input)) = _
  rw [hreads]
  rfl

theorem lift {result : Except Error α} {value : α} (hresult : result = .ok value) :
    (liftM result : Reader α).Reads [] value := by
  intro position rest
  subst hresult
  rfl

theorem afterLift {result : Except Error α} {next : α → Reader β} {bytes : Bytes} {value : α}
    {final : β} (hresult : result = .ok value) (hnext : (next value).Reads bytes final) :
    (liftM result >>= next).Reads bytes final :=
  bind (lift hresult) hnext

theorem during {reader : Reader α} {bytes : Bytes} {value : α} (activity : Activity)
    (hreads : reader.Reads bytes value) : (reader.during activity).Reads bytes value := by
  intro position rest
  rw [Reader.during, hreads]
  rfl

theorem bytes (contents : Bytes) : (Reader.bytes contents.length).Reads contents contents := by
  intro position rest
  simp [Reader.bytes]

theorem number (signed : Bool) {width n : Nat} (hlt : n < 256 ^ width) :
    (Reader.number signed width).Reads (Bytes.bigEndian width n) n := by
  apply during
  have hbytes := bytes (Bytes.bigEndian width n)
  rw [Bytes.length_bigEndian] at hbytes
  have hmap := map Bytes.toNat hbytes
  rw [Bytes.toNat_bigEndian_of_lt hlt] at hmap
  exact hmap

private theorem numberAs {f : Nat → α} (signed : Bool) {width n : Nat} {value : α}
    (hlt : n < 256 ^ width) (hvalue : f n = value) :
    (f <$> Reader.number signed width).Reads (Bytes.bigEndian width n) value := by
  have hmap := map f (number signed hlt)
  rwa [hvalue] at hmap

theorem uint8 (byte : UInt8) : Reader.uint8.Reads [byte] byte := by
  have hread : Reader.uint8.Reads (Bytes.bigEndian 1 byte.toNat) byte :=
    numberAs false byte.toNat_lt (by simp)
  rwa [Bytes.bigEndian_one, UInt8.ofNat_toNat] at hread

theorem uint16 (n : UInt16) : Reader.uint16.Reads (Bytes.ofUInt16 n) n :=
  numberAs false n.toNat_lt (by simp)

theorem uint32 (n : UInt32) : Reader.uint32.Reads (Bytes.ofUInt32 n) n :=
  numberAs false n.toNat_lt (by simp)

theorem uint64 (n : UInt64) : Reader.uint64.Reads (Bytes.ofUInt64 n) n :=
  numberAs false n.toNat_lt (by simp)

theorem count8 {n : Nat} (hlt : n < 256 ^ 1) :
    Reader.uint8.Reads (Bytes.bigEndian 1 n) (UInt8.ofNat n) :=
  numberAs false hlt rfl

theorem count16 {n : Nat} (hlt : n < 256 ^ 2) :
    Reader.uint16.Reads (Bytes.bigEndian 2 n) (UInt16.ofNat n) :=
  numberAs false hlt rfl

theorem count32 {n : Nat} (hlt : n < 256 ^ 4) :
    Reader.uint32.Reads (Bytes.bigEndian 4 n) (UInt32.ofNat n) :=
  numberAs false hlt rfl

theorem int8 (n : Int8) : Reader.int8.Reads (Bytes.ofInt8 n) n := by
  have hread : Reader.int8.Reads (Bytes.bigEndian 1 n.toUInt8.toNat) n :=
    numberAs true n.toUInt8.toNat_lt (by simp)
  rwa [Bytes.bigEndian_one, UInt8.ofNat_toNat] at hread

theorem int16 (n : Int16) : Reader.int16.Reads (Bytes.ofInt16 n) n :=
  numberAs true n.toUInt16.toNat_lt (by simp)

theorem int32 (n : Int32) : Reader.int32.Reads (Bytes.ofInt32 n) n :=
  numberAs true n.toUInt32.toNat_lt (by simp)

theorem int64 (n : Int64) : Reader.int64.Reads (Bytes.ofInt64 n) n :=
  numberAs true n.toUInt64.toNat_lt (by simp)

end Reads

/-! ### Reading lists -/

/-- Each value is read from bytes of its own, one after the other. -/
inductive ReadsMany (reader : Reader α) : Bytes → List α → Prop
  | nil : ReadsMany reader [] []
  | cons {front back : Bytes} {value : α} {values : List α} (hfront : reader.Reads front value)
      (hback : ReadsMany reader back values) : ReadsMany reader (front ++ back) (value :: values)

private theorem manyFrom_of_readsMany {reader : Reader α} {bytes : Bytes} {values : List α}
    (hreads : reader.ReadsMany bytes values) (found : List α) (position : Nat) (rest : Bytes) :
    manyFrom reader values.length found ⟨position, bytes ++ rest⟩ =
      .ok (found.reverse ++ values, ⟨position + bytes.length, rest⟩) := by
  induction hreads generalizing found position with
  | nil => simp [manyFrom]
  | cons hfront hback ih =>
    rw [List.length_cons, manyFrom, List.append_assoc, hfront]
    dsimp only
    rw [ih]
    simp [Nat.add_assoc]

theorem ReadsMany.many {reader : Reader α} {bytes : Bytes} {values : List α}
    (hreads : reader.ReadsMany bytes values) :
    (Reader.many values.length reader).Reads bytes values := by
  intro position rest
  rw [Reader.many, manyFrom_of_readsMany hreads, List.reverse_nil, List.nil_append]

theorem ReadsMany.list8 {reader : Reader α} {bytes : Bytes} {values : List α}
    (hreads : reader.ReadsMany bytes values) (hlt : values.length < 256 ^ 1) :
    (Reader.list8 reader).Reads (Bytes.bigEndian 1 values.length ++ bytes) values := by
  refine .bind (.count8 hlt) ?_
  rw [UInt8.toNat_ofNat_of_lt' hlt]
  exact hreads.many

theorem ReadsMany.list16 {reader : Reader α} {bytes : Bytes} {values : List α}
    (hreads : reader.ReadsMany bytes values) (hlt : values.length < 256 ^ 2) :
    (Reader.list16 reader).Reads (Bytes.bigEndian 2 values.length ++ bytes) values := by
  refine .bind (.count16 hlt) ?_
  rw [UInt16.toNat_ofNat_of_lt' hlt]
  exact hreads.many

theorem ReadsMany.flatMap_map {reader : Reader β} {write : α → Bytes} {f : α → β} {values : List α}
    (hreads : ∀ value ∈ values, reader.Reads (write value) (f value)) :
    reader.ReadsMany (values.flatMap write) (values.map f) := by
  induction values with
  | nil => exact .nil
  | cons value values ih =>
    rw [List.flatMap_cons, List.map_cons]
    refine .cons (hreads value List.mem_cons_self) (ih fun other hother => ?_)
    exact hreads other (List.mem_cons_of_mem _ hother)

theorem ReadsMany.flatMap {reader : Reader α} {write : α → Bytes} {values : List α}
    (hreads : ∀ value ∈ values, reader.Reads (write value) value) :
    reader.ReadsMany (values.flatMap write) values := by
  have hmany := ReadsMany.flatMap_map hreads
  rwa [List.map_id'] at hmany

/-! ### What was read -/

/-- Whatever the reader makes a value of is bytes at the front of its input that are related to the
value, and what is left is the input behind them. -/
def Spells (reader : Reader α) (spelling : α → Bytes → Prop) : Prop :=
  ∀ input value rest, reader input = .ok (value, rest) →
    ∃ bytes, input = ⟨input.position, bytes ++ rest.rest⟩ ∧
      rest.position = input.position + bytes.length ∧ spelling value bytes

namespace Spells

theorem pure {value : α} {spelling : α → Bytes → Prop} (hspelling : spelling value []) :
    (Pure.pure value : Reader α).Spells spelling := by
  intro input found rest hread
  cases hread
  exact ⟨[], rfl, rfl, hspelling⟩

theorem fail {fault : Fault} {spelling : α → Bytes → Prop} :
    (Reader.fail fault).Spells spelling := by
  intro input found rest hread
  cases hread

theorem lift {result : Except Error α} {spelling : α → Bytes → Prop}
    (hspelling : ∀ value, result = .ok value → spelling value []) :
    (liftM result : Reader α).Spells spelling := by
  intro input value rest hread
  cases result with
  | error error => cases hread
  | ok found =>
    cases hread
    exact ⟨[], rfl, rfl, hspelling _ rfl⟩

theorem bind {reader : Reader α} {next : α → Reader β} {first : α → Bytes → Prop}
    {second : β → Bytes → Prop} (hreader : reader.Spells first)
    (hnext : ∀ value front, first value front →
      (next value).Spells fun result back => second result (front ++ back)) :
    (reader >>= next).Spells second := by
  intro input result rest hread
  obtain ⟨value, between, hvalue, hresult⟩ := exists_of_bind hread
  obtain ⟨front, hinput, hfront, hfirst⟩ := hreader input value between hvalue
  obtain ⟨back, hbetween, hback, hsecond⟩ := hnext value front hfirst between result rest hresult
  refine ⟨front ++ back, ?_, ?_, hsecond⟩
  · rw [hinput, hbetween, List.append_assoc]
  · rw [hback, hfront, List.length_append, Nat.add_assoc]

theorem afterLift {result : Except Error α} {next : α → Reader β} {spelling : β → Bytes → Prop}
    (hnext : ∀ value, result = .ok value → (next value).Spells spelling) :
    (liftM result >>= next).Spells spelling := by
  have hlift : (liftM result : Reader α).Spells fun value bytes =>
      bytes = [] ∧ result = .ok value := lift fun value hvalue => ⟨rfl, hvalue⟩
  refine hlift.bind ?_
  rintro value _ ⟨rfl, hvalue⟩
  exact hnext value hvalue

theorem mono {reader : Reader α} {strong weak : α → Bytes → Prop} (hreader : reader.Spells strong)
    (himp : ∀ value bytes, strong value bytes → weak value bytes) : reader.Spells weak := by
  intro input value rest hread
  obtain ⟨bytes, hinput, hposition, hspelling⟩ := hreader input value rest hread
  exact ⟨bytes, hinput, hposition, himp value bytes hspelling⟩

theorem map {reader : Reader α} {f : α → β} {spelling : β → Bytes → Prop}
    (hreader : reader.Spells fun value bytes => spelling (f value) bytes) :
    (f <$> reader).Spells spelling := by
  have hbind : (reader >>= fun value => Pure.pure (f value)).Spells spelling :=
    hreader.bind fun value front hspelling => .pure (by rwa [List.append_nil])
  exact hbind

theorem during {reader : Reader α} {spelling : α → Bytes → Prop} (activity : Activity)
    (hreader : reader.Spells spelling) : (reader.during activity).Spells spelling := by
  intro input value rest hread
  exact hreader input value rest (Result.during_eq_ok_iff.1 hread)

theorem bytes (size : Nat) :
    (Reader.bytes size).Spells fun value bytes => value = bytes ∧ bytes.length = size := by
  intro input value rest hread
  unfold Reader.bytes at hread
  dsimp only at hread
  split at hread
  · rename_i hlength
    cases hread
    refine ⟨input.rest.take size, ?_, by rw [hlength], rfl, hlength⟩
    rw [List.take_append_drop]
  · cases hread

theorem number (signed : Bool) (width : Nat) :
    (Reader.number signed width).Spells fun n bytes =>
      n < 256 ^ width ∧ bytes = Bytes.bigEndian width n := by
  refine .during _ (.map ((bytes width).mono ?_))
  rintro value found ⟨rfl, rfl⟩
  exact ⟨Bytes.toNat_lt value, (Bytes.bigEndian_toNat value).symm⟩

theorem uint8 : Reader.uint8.Spells fun n bytes => bytes = [n] := by
  refine .map ((number false 1).mono ?_)
  rintro n bytes ⟨hlt, rfl⟩
  exact Bytes.bigEndian_one n

theorem uint16 : Reader.uint16.Spells fun n bytes => bytes = Bytes.ofUInt16 n := by
  refine .map ((number false 2).mono ?_)
  rintro n bytes ⟨hlt, rfl⟩
  rw [Bytes.ofUInt16, UInt16.toNat_ofNat_of_lt' hlt]

theorem uint32 : Reader.uint32.Spells fun n bytes => bytes = Bytes.ofUInt32 n := by
  refine .map ((number false 4).mono ?_)
  rintro n bytes ⟨hlt, rfl⟩
  rw [Bytes.ofUInt32, UInt32.toNat_ofNat_of_lt' hlt]

theorem uint64 : Reader.uint64.Spells fun n bytes => bytes = Bytes.ofUInt64 n := by
  refine .map ((number false 8).mono ?_)
  rintro n bytes ⟨hlt, rfl⟩
  rw [Bytes.ofUInt64, UInt64.toNat_ofNat_of_lt' hlt]

theorem int8 : Reader.int8.Spells fun n bytes => bytes = Bytes.ofInt8 n := by
  refine .map ((number true 1).mono ?_)
  rintro n bytes ⟨hlt, rfl⟩
  simp [Bytes.bigEndian_one, Bytes.ofInt8]

theorem int16 : Reader.int16.Spells fun n bytes => bytes = Bytes.ofInt16 n := by
  refine .map ((number true 2).mono ?_)
  rintro n bytes ⟨hlt, rfl⟩
  rw [Bytes.ofInt16, Bytes.ofUInt16, UInt16.toUInt16_toInt16, UInt16.toNat_ofNat_of_lt' hlt]

theorem int32 : Reader.int32.Spells fun n bytes => bytes = Bytes.ofInt32 n := by
  refine .map ((number true 4).mono ?_)
  rintro n bytes ⟨hlt, rfl⟩
  rw [Bytes.ofInt32, Bytes.ofUInt32, UInt32.toUInt32_toInt32, UInt32.toNat_ofNat_of_lt' hlt]

theorem int64 : Reader.int64.Spells fun n bytes => bytes = Bytes.ofInt64 n := by
  refine .map ((number true 8).mono ?_)
  rintro n bytes ⟨hlt, rfl⟩
  rw [Bytes.ofInt64, Bytes.ofUInt64, UInt64.toUInt64_toInt64, UInt64.toNat_ofNat_of_lt' hlt]

/-- What is read many times is read from parts that stand one after the other. -/
theorem manyParts {reader : Reader α} {spelling : α → Bytes → Prop}
    (hreader : reader.Spells spelling) (count : Nat) :
    (Reader.many count reader).Spells fun values bytes => ∃ parts : List Bytes,
      List.Forall₂ spelling values parts ∧ values.length = count ∧ bytes = parts.flatten := by
  have hfrom : ∀ found : List α, Spells (manyFrom reader count found) fun values bytes =>
      ∃ (others : List α) (parts : List Bytes), values = found.reverse ++ others ∧
        List.Forall₂ spelling others parts ∧ others.length = count ∧ bytes = parts.flatten := by
    induction count with
    | zero =>
      intro found
      exact .pure ⟨[], [], (List.append_nil _).symm, .nil, rfl, rfl⟩
    | succ count ih =>
      intro found
      rw [manyFrom_succ]
      refine hreader.bind fun value front hfront => (ih (value :: found)).mono ?_
      rintro _ _ ⟨others, parts, rfl, hparts, rfl, rfl⟩
      exact ⟨value :: others, front :: parts, by simp, .cons hfront hparts, rfl, rfl⟩
  refine (hfrom []).mono ?_
  rintro _ bytes ⟨others, parts, rfl, hparts⟩
  exact ⟨parts, hparts⟩

theorem list8Parts {reader : Reader α} {spelling : α → Bytes → Prop}
    (hreader : reader.Spells spelling) :
    (Reader.list8 reader).Spells fun values bytes => ∃ parts : List Bytes,
      List.Forall₂ spelling values parts ∧ values.length < 256 ^ 1 ∧
        bytes = Bytes.bigEndian 1 values.length ++ parts.flatten := by
  refine uint8.bind ?_
  rintro count _ rfl
  refine (hreader.manyParts count.toNat).mono ?_
  rintro values _ ⟨parts, hparts, hlength, rfl⟩
  exact ⟨parts, hparts, by rw [hlength]; exact count.toNat_lt, by simp [hlength, Bytes.bigEndian_one]⟩

theorem list16Parts {reader : Reader α} {spelling : α → Bytes → Prop}
    (hreader : reader.Spells spelling) :
    (Reader.list16 reader).Spells fun values bytes => ∃ parts : List Bytes,
      List.Forall₂ spelling values parts ∧ values.length < 256 ^ 2 ∧
        bytes = Bytes.bigEndian 2 values.length ++ parts.flatten := by
  refine uint16.bind ?_
  rintro count _ rfl
  refine (hreader.manyParts count.toNat).mono ?_
  rintro values _ ⟨parts, hparts, hlength, rfl⟩
  exact ⟨parts, hparts, by rw [hlength]; exact count.toNat_lt, by rw [hlength, Bytes.ofUInt16]⟩

/-- The opposite of `flatMap_map`: what was read many times was written as many times. -/
theorem many {γ τ : Type} {reader : Reader α} {write : τ → Bytes} {f : α → γ} {g : τ → γ}
    (hreader : reader.Spells fun value bytes => ∃ source, bytes = write source ∧ f value = g source)
    (count : Nat) :
    (Reader.many count reader).Spells fun values bytes => ∃ sources : List τ,
      sources.length = count ∧ bytes = sources.flatMap write ∧ values.map f = sources.map g := by
  refine (hreader.manyParts count).mono ?_
  rintro values _ ⟨parts, hparts, rfl, rfl⟩
  induction hparts with
  | nil => exact ⟨[], rfl, rfl, rfl⟩
  | cons hfirst _ ih =>
    obtain ⟨source, rfl, hsource⟩ := hfirst
    obtain ⟨sources, hlength, hwrite, hvalues⟩ := ih
    exact ⟨source :: sources, by simp [hlength], by simp [hwrite], by simp [hsource, hvalues]⟩

end Spells

/-! ### Reading bytes if at all -/

/-- Whatever the reader makes of these bytes at the front of its input, it takes all of them and no
more. -/
def Takes (reader : Reader α) (bytes : Bytes) (post : α → Prop) : Prop :=
  ∀ position rest value left, reader ⟨position, bytes ++ rest⟩ = .ok (value, left) →
    left = ⟨position + bytes.length, rest⟩ ∧ post value

theorem Reads.takes {reader : Reader α} {bytes : Bytes} {value : α} {post : α → Prop}
    (hreads : reader.Reads bytes value) (hpost : post value) : reader.Takes bytes post := by
  intro position rest found left hread
  rw [hreads] at hread
  cases hread
  exact ⟨rfl, hpost⟩

namespace Takes

theorem pure {value : α} {post : α → Prop} (hpost : post value) :
    (Pure.pure value : Reader α).Takes [] post :=
  (Reads.pure value).takes hpost

theorem fail {fault : Fault} {bytes : Bytes} {post : α → Prop} :
    (Reader.fail fault : Reader α).Takes bytes post := by
  intro position rest value left hread
  cases hread

theorem mono {reader : Reader α} {bytes : Bytes} {strong weak : α → Prop}
    (hreader : reader.Takes bytes strong) (himp : ∀ value, strong value → weak value) :
    reader.Takes bytes weak := by
  intro position rest value left hread
  obtain ⟨hleft, hvalue⟩ := hreader position rest value left hread
  exact ⟨hleft, himp value hvalue⟩

theorem bind {reader : Reader α} {next : α → Reader β} {front back : Bytes} {first : α → Prop}
    {second : β → Prop} (hreader : reader.Takes front first)
    (hnext : ∀ value, first value → (next value).Takes back second) :
    (reader >>= next).Takes (front ++ back) second := by
  intro position rest result left hread
  obtain ⟨value, between, hvalue, hresult⟩ := exists_of_bind hread
  rw [List.append_assoc] at hvalue
  obtain ⟨rfl, hfirst⟩ := hreader _ _ _ _ hvalue
  obtain ⟨rfl, hsecond⟩ := hnext value hfirst _ _ _ _ hresult
  exact ⟨by rw [List.length_append, Nat.add_assoc], hsecond⟩

/-- Bytes that are read before anything depends on them. -/
theorem after {reader : Reader α} {next : α → Reader β} {front back : Bytes} {value : α}
    {post : β → Prop} (hreader : reader.Reads front value) (hnext : (next value).Takes back post) :
    (reader >>= next).Takes (front ++ back) post :=
  bind (hreader.takes rfl) fun _ hvalue => hvalue ▸ hnext

theorem last {reader : Reader α} {next : α → Reader β} {bytes : Bytes} {first : α → Prop}
    {second : β → Prop} (hreader : reader.Takes bytes first)
    (hnext : ∀ value, first value → (next value).Takes [] second) :
    (reader >>= next).Takes bytes second := by
  have hbind := bind hreader hnext
  rwa [List.append_nil] at hbind

theorem lift {result : Except Error α} {post : α → Prop}
    (hresult : ∀ value, result = .ok value → post value) :
    (liftM result : Reader α).Takes [] post := by
  cases result with
  | error error =>
    intro position rest value left hread
    cases hread
  | ok value => exact (Reads.lift rfl).takes (hresult value rfl)

theorem during {reader : Reader α} {bytes : Bytes} {post : α → Prop} (activity : Activity)
    (hreader : reader.Takes bytes post) : (reader.during activity).Takes bytes post := by
  intro position rest value left hread
  exact hreader position rest value left (Result.during_eq_ok_iff.1 hread)

theorem manyOf {τ : Type} {reader : Reader α} {write : τ → Bytes} {post : τ → α → Prop}
    {sources : List τ} (hreader : ∀ source ∈ sources, reader.Takes (write source) (post source)) :
    (Reader.many sources.length reader).Takes (sources.flatMap write)
      (List.Forall₂ post sources) := by
  have hfrom : ∀ found : List α, Takes (manyFrom reader sources.length found)
      (sources.flatMap write) fun values => ∃ others, List.Forall₂ post sources others ∧
        values = found.reverse ++ others := by
    induction sources with
    | nil =>
      intro found position rest values left hread
      cases hread
      exact ⟨rfl, [], .nil, (List.append_nil _).symm⟩
    | cons source sources ih =>
      obtain ⟨hfirst, hrest⟩ := List.forall_mem_cons.1 hreader
      intro found position rest values left hread
      rw [List.length_cons, manyFrom, List.flatMap_cons, List.append_assoc] at hread
      cases hvalue : reader ⟨position, write source ++ (sources.flatMap write ++ rest)⟩ with
      | error error =>
        rw [hvalue] at hread
        cases hread
      | ok next =>
        obtain ⟨value, between⟩ := next
        rw [hvalue] at hread
        obtain ⟨rfl, hsource⟩ := hfirst _ _ _ _ hvalue
        obtain ⟨rfl, others, hothers, rfl⟩ := ih hrest (value :: found) _ _ _ _ hread
        refine ⟨by rw [List.flatMap_cons, List.length_append, Nat.add_assoc], value :: others,
          .cons hsource hothers, ?_⟩
        rw [List.reverse_cons, List.append_assoc, List.singleton_append]
  refine (hfrom []).mono ?_
  rintro _ ⟨others, hothers, rfl⟩
  exact hothers

theorem many {γ τ : Type} {reader : Reader α} {write : τ → Bytes} {f : α → γ} {g : τ → γ}
    (hreader : ∀ source, reader.Takes (write source) fun value => f value = g source)
    (sources : List τ) :
    (Reader.many sources.length reader).Takes (sources.flatMap write) fun values =>
      values.map f = sources.map g := by
  refine (manyOf fun source _ => hreader source).mono fun values hvalues => ?_
  induction hvalues with
  | nil => rfl
  | cons hvalue _ ih => rw [List.map_cons, List.map_cons, hvalue, ih]

theorem list16 {τ : Type} {reader : Reader α} {write : τ → Bytes} {post : τ → α → Prop}
    {sources : List τ} (hlt : sources.length < 256 ^ 2)
    (hreader : ∀ source ∈ sources, reader.Takes (write source) (post source)) :
    (Reader.list16 reader).Takes (Bytes.bigEndian 2 sources.length ++ sources.flatMap write)
      (List.Forall₂ post sources) := by
  refine .after (.count16 hlt) ?_
  rw [UInt16.toNat_ofNat_of_lt' hlt]
  exact manyOf hreader

end Takes

/-! ### What is known of values -/

/-- Whatever the reader makes of its input is as described. -/
def Ensures (reader : Reader α) (post : α → Prop) : Prop :=
  ∀ input value rest, reader input = .ok (value, rest) → post value

namespace Ensures

theorem pure {value : α} {post : α → Prop} (hpost : post value) :
    (Pure.pure value : Reader α).Ensures post := by
  intro input found rest hread
  cases hread
  exact hpost

theorem fail {fault : Fault} {post : α → Prop} : (Reader.fail fault : Reader α).Ensures post := by
  intro input value rest hread
  cases hread

theorem bind {reader : Reader α} {next : α → Reader β} {first : α → Prop} {second : β → Prop}
    (hreader : reader.Ensures first) (hnext : ∀ value, first value → (next value).Ensures second) :
    (reader >>= next).Ensures second := by
  intro input result rest hread
  obtain ⟨value, between, hvalue, hresult⟩ := exists_of_bind hread
  exact hnext value (hreader input value between hvalue) between result rest hresult

theorem last {reader : Reader α} {next : α → Reader β} {post : β → Prop}
    (hnext : ∀ value, (next value).Ensures post) : (reader >>= next).Ensures post := by
  intro input result rest hread
  obtain ⟨value, between, -, hresult⟩ := exists_of_bind hread
  exact hnext value between result rest hresult

theorem many {reader : Reader α} {post : α → Prop} (hreader : reader.Ensures post) (count : Nat) :
    (Reader.many count reader).Ensures fun values => ∀ value ∈ values, post value := by
  have hfrom : ∀ found : List α, (∀ value ∈ found, post value) →
      Ensures (manyFrom reader count found) fun values => ∀ value ∈ values, post value := by
    induction count with
    | zero =>
      intro found hfound input values rest hread
      cases hread
      exact fun value hvalue => hfound value (List.mem_reverse.1 hvalue)
    | succ count ih =>
      intro found hfound input values rest hread
      rw [manyFrom] at hread
      split at hread
      · rename_i value between hvalue
        exact ih (value :: found)
          (List.forall_mem_cons.2 ⟨hreader _ _ _ hvalue, hfound⟩) _ _ _ hread
      · cases hread
  exact hfrom [] fun _ hvalue => (List.not_mem_nil hvalue).elim

theorem length_many {reader : Reader α} (count : Nat) :
    (Reader.many count reader).Ensures fun values => values.length = count := by
  have hfrom : ∀ found : List α,
      Ensures (manyFrom reader count found) fun values => values.length = found.length + count := by
    induction count with
    | zero =>
      intro found input values rest hread
      cases hread
      exact List.length_reverse
    | succ count ih =>
      intro found input values rest hread
      rw [manyFrom] at hread
      split at hread
      · rename_i value between hvalue
        have hlength := ih (value :: found) _ _ _ hread
        rw [hlength, List.length_cons]
        omega
      · cases hread
  intro input values rest hread
  rw [hfrom [] input values rest hread, List.length_nil, Nat.zero_add]

theorem length_list8 {reader : Reader α} :
    (Reader.list8 reader).Ensures fun values => values.length ≤ 255 := by
  refine last fun count input values rest hread => ?_
  rw [length_many count.toNat input values rest hread]
  exact Nat.le_of_lt_succ count.toNat_lt

end Ensures

end Reader

end JvmClass
