import JvmClass.Proofs.ClassFile.Locality
import JvmClass.Proofs.ClassFile.RoundTrip

/-!
# Pools that can be written

A text that is added to a pool is checked to fit into the sixteen bits of its length, so whatever is
done to a pool, it can still be written if it could be before. A text that is read is not checked:
it was stored in few enough bytes, but it may have been stored as standard UTF-8, and then it can
need more of them when it is written. So a pool can be written exactly if none of the texts that it
was read with gets too long, and otherwise writing a class file breaks off in the middle of its
pool.
-/

namespace JvmClass

open PoolM

namespace Pool

private theorem contents_of_writeSlots {slots : List Slot} {written : Array UInt8} {bytes : Bytes}
    (hwrite : writeSlots slots written = ⟨bytes, none⟩) {entry : Entry} {raw : RawEntry}
    (hmem : Slot.entry entry raw ∈ slots) : ∃ contents, raw.contents = .ok contents := by
  induction slots generalizing written with
  | nil => cases hmem
  | cons slot slots ih =>
    cases slot with
    | unused | upperHalf =>
      apply ih hwrite
      simpa using hmem
    | entry first stored =>
      rw [writeSlots] at hwrite
      cases hcontents : stored.contents with
      | error error =>
        rw [hcontents] at hwrite
        cases hwrite
      | ok contents =>
        rw [hcontents] at hwrite
        rcases List.mem_cons.1 hmem with hfirst | hrest
        · cases hfirst
          exact ⟨contents, hcontents⟩
        · exact ih hwrite hrest

theorem writable_of_write {pool : Pool} {bytes : Bytes} (hwrite : pool.write = ⟨bytes, none⟩) :
    pool.Writable := by
  intro index entry raw hslot
  have hmem : Slot.entry entry raw ∈ pool.slots.toList := by
    rw [← Array.getElem?_toList] at hslot
    exact List.mem_of_getElem? hslot
  unfold write at hwrite
  split at hwrite
  · exact contents_of_writeSlots hwrite hmem
  · cases hwrite

theorem exists_write_iff {pool : Pool} (hcount : pool.count ≤ maxCount) :
    (∃ bytes, pool.write = ⟨bytes, none⟩) ↔ pool.Writable :=
  ⟨fun ⟨_, hwrite⟩ => writable_of_write hwrite, fun hwritable => hwritable.exists_write hcount⟩

theorem writable_of_extends {pool later : Pool} (hlater : pool.Extends later)
    (hwritable : later.Writable) : pool.Writable :=
  fun index entry raw hslot => hwritable index entry raw (hlater.getElem? hslot)

/-- Calls neither make a pool writable nor make it unwritable. -/
theorem writable_iff_of_called {start pool : Pool} (hcalled : start.Called pool) :
    pool.Writable ↔ start.Writable := by
  constructor
  · exact writable_of_extends hcalled.extends
  · intro hstart
    exact hcalled.preserves (fun _ entry => writable_run (find entry)) hstart

theorem writable_addAll_iff {items : List (Entry × RawEntry)} :
    (Pool.empty.addAll items).Writable ↔
      ∀ raw ∈ items.map Prod.snd, ∃ contents, raw.contents = .ok contents := by
  constructor
  · intro hwritable raw hraw
    obtain ⟨item, hitem, rfl⟩ := List.mem_map.1 hraw
    have hslot : Slot.entry item.1 item.2 ∈ (Pool.empty.addAll items).slots.toList := by
      rw [toList_empty_addAll]
      exact List.mem_cons_of_mem _ (List.mem_flatMap.2 ⟨item, hitem, List.mem_cons_self⟩)
    obtain ⟨index, hindex⟩ := List.mem_iff_getElem?.1 hslot
    rw [Array.getElem?_toList] at hindex
    exact hwritable index item.1 item.2 hindex
  · intro hitems index entry raw hslot
    rw [← Array.getElem?_toList, toList_empty_addAll] at hslot
    have hmem := List.mem_of_getElem? hslot
    rw [List.mem_cons, List.mem_flatMap] at hmem
    rcases hmem with hunused | ⟨item, hitem, hmem⟩
    · cases hunused
    · obtain ⟨rfl, rfl⟩ := eq_of_mem_slotsOf hmem
      exact hitems item.2 (List.mem_map_of_mem hitem)

/-- What a pool started as, with the contents of all texts it was read with. -/
inductive Origin : Pool → List Bytes → Prop
  | empty : Origin Pool.empty []
  | read {pool : Pool} {input rest : Input} (hread : Pool.read input = .ok (pool, rest)) :
      Origin pool (storedTexts input.rest)

theorem Origin.valid {start : Pool} {texts : List Bytes} (horigin : start.Origin texts) :
    start.Valid := by
  cases horigin with
  | empty => exact valid_empty
  | read hread => exact valid_of_read hread

theorem Origin.writable_iff {start : Pool} {texts : List Bytes} (horigin : start.Origin texts) :
    start.Writable ↔ ∀ contents ∈ texts, Text.ModifiedUtf8.rewrittenSize contents < 65536 := by
  cases horigin with
  | empty => exact iff_of_true writable_empty (List.forall_mem_nil _)
  | @read _ input rest hread =>
    obtain ⟨count, items, after, bytes, hinput, -, hfrom, rfl, -, -⟩ := exists_of_read hread
    have htexts : storedTexts input.rest = RawPool.textsIn (count.toNat - 1) after.rest := by
      unfold storedTexts
      rw [hinput, List.take_left' (Bytes.length_ofUInt16 count),
        List.drop_left' (Bytes.length_ofUInt16 count), Bytes.ofUInt16,
        Bytes.toNat_bigEndian_of_lt count.toNat_lt]
    rw [htexts, writable_addAll_iff, hfrom.writable_iff]

end Pool

/-- Writing a class file never breaks off in the middle if its pool can be written as it is. -/
theorem ClassFile.bytes_eq_nil_of_failure {file : ClassFile} (hvalid : file.pool.Valid)
    (hwritable : file.pool.Writable) {bytes : Bytes} {error : Error}
    (hwrite : file.write = ⟨bytes, some error⟩) : bytes = [] := by
  unfold write at hwrite
  split at hwrite
  · cases hwrite
    rfl
  · rename_i body pool hrun
    have hpool : pool.Writable := writable_of_run hwritable hrun
    obtain ⟨constants, hconstants⟩ := hpool.exists_write (valid_of_run hvalid hrun).count_le
    rw [hconstants] at hwrite
    cases hwrite

/-- **Which pools can be written.** A pool that started empty always can, whatever calls it got, and
one that was read can unless a text in it was stored as standard UTF-8 and gets longer than 65535
bytes. That is also the only thing that can stop a class file from being written once a part of it
is. -/
theorem Pool.exists_write_iff_of_called {start pool : Pool} {texts : List Bytes}
    (horigin : start.Origin texts) (hcalled : start.Called pool) :
    ((∃ bytes, pool.write = ⟨bytes, none⟩) ↔
        ∀ contents ∈ texts, Text.ModifiedUtf8.rewrittenSize contents < 65536) ∧
      ∀ (file : ClassFile) (bytes : Bytes) (error : Error), file.pool = pool →
        file.write = ⟨bytes, some error⟩ → bytes ≠ [] →
          ∃ contents ∈ texts, 65536 ≤ Text.ModifiedUtf8.rewrittenSize contents := by
  have hvalid : pool.Valid := hcalled.valid horigin.valid
  have hwritable : pool.Writable ↔
      ∀ contents ∈ texts, Text.ModifiedUtf8.rewrittenSize contents < 65536 :=
    (writable_iff_of_called hcalled).trans horigin.writable_iff
  refine ⟨(exists_write_iff hvalid.count_le).trans hwritable, ?_⟩
  intro file bytes error hpool hwrite hbytes
  subst hpool
  by_contra hfit
  apply hbytes
  apply ClassFile.bytes_eq_nil_of_failure hvalid _ hwrite
  rw [hwritable]
  intro contents hmem
  exact Nat.lt_of_not_le fun hle => hfit ⟨contents, hmem, hle⟩

/-- A text of two bytes with a zero among them is written as three, also after another call. -/
theorem Pool.exists_write_afterZero :
    let start := Pool.empty.addAll [(.utf8 ⟨[0, 65]⟩, .utf8 ⟨[0, 65]⟩)]
    Pool.read (.ofBytes [0, 2, 1, 0, 2, 0, 65]) = .ok (start, ⟨7, []⟩) ∧
      storedTexts [0, 2, 1, 0, 2, 0, 65] = [[0, 65]] ∧
      Text.ModifiedUtf8.rewrittenSize [0, 65] = 3 ∧
      ∃ bytes, ((putLong 7).run start).2.write = ⟨bytes, none⟩ := by
  intro start
  have hread : Pool.read (.ofBytes [0, 2, 1, 0, 2, 0, 65]) = .ok (start, ⟨7, []⟩) := rfl
  have htexts : storedTexts [0, 2, 1, 0, 2, 0, 65] = [[0, 65]] := rfl
  have hsize : Text.ModifiedUtf8.rewrittenSize [0, 65] = 3 := rfl
  have hcalled : start.Called ((putLong 7).run start).2 := .single ⟨_, .putLong 7, rfl⟩
  refine ⟨hread, htexts, hsize, ((exists_write_iff_of_called (.read hread) hcalled).1).2 ?_⟩
  show ∀ contents ∈ storedTexts [0, 2, 1, 0, 2, 0, 65], _
  rw [htexts]
  intro contents hmem
  rw [List.mem_singleton.1 hmem, hsize]
  decide

/-! ### A text that gets too long -/

namespace Text.ModifiedUtf8

theorem decodeStandardFrom_replicate_zero (units : List UInt16) (count : Nat) :
    decodeStandardFrom units (List.replicate count 0) =
      some (units.reverse ++ List.replicate count 0) := by
  induction count generalizing units with
  | zero =>
    rw [List.replicate_zero, List.replicate_zero, List.append_nil]
    rfl
  | succ count ih =>
    rw [List.replicate_succ, decodeStandardFrom.eq_def]
    show decodeStandardFrom (0 :: units) _ = _
    rw [ih, List.reverse_cons, List.append_assoc, List.singleton_append, ← List.replicate_succ]

theorem decode_replicate_zero (count : Nat) :
    decode (List.replicate count 0) = .ok ⟨List.replicate count 0⟩ := by
  unfold decode decodeStandard?
  rw [decodeStandardFrom_replicate_zero]
  rfl

theorem length_encode_replicate_zero (count : Nat) :
    (encode ⟨List.replicate count 0⟩).length = 2 * count := by
  have hzero : encodeUnit 0 = [0xC0, 0x80] := rfl
  unfold encode
  rw [List.length_flatMap, List.map_replicate, hzero, List.sum_replicate_nat]
  exact Nat.mul_comm ..

end Text.ModifiedUtf8

namespace Pool

/-- The longest text of zeros that can be stored in one byte each. -/
def zeros : Text :=
  ⟨List.replicate 65535 0⟩

def ofZeros : Pool :=
  Pool.empty.addAll [(.utf8 zeros, .utf8 zeros)]

def zerosBytes : Bytes :=
  [0, 2] ++ ([1] ++ ([255, 255] ++ List.replicate 65535 0))

theorem length_zerosBytes : zerosBytes.length = 65540 := by
  rw [zerosBytes, List.length_append, List.length_append, List.length_append,
    List.length_replicate]
  rfl

theorem reads_zeros : Pool.read.Reads zerosBytes ofZeros := by
  have hcontents : (RawEntry.readContents .utf8).Reads ([255, 255] ++ List.replicate 65535 0)
      (.utf8 zeros) := by
    have hbytes := Reader.Reads.bytes (List.replicate 65535 0)
    rw [List.length_replicate] at hbytes
    refine .bind (.uint16 65535) (.last hbytes ?_)
    rw [Text.ModifiedUtf8.decode_replicate_zero]
    exact .pure _
  have hslots : Reader.Reads (RawPool.readSlots 1 #[none])
      ([1] ++ ([255, 255] ++ List.replicate 65535 0)) ⟨#[none, some (.utf8 zeros)]⟩ := by
    rw [Reader.IsLocal.readSlots_succ]
    exact .bind (.uint8 1) (.last (.during _ hcontents) (.pure _))
  exact .last (.bind (.uint16 2) hslots) (.lift rfl)

theorem not_writable_ofZeros : ¬ofZeros.Writable := by
  intro hwritable
  have hcontents := writable_addAll_iff.1 hwritable (.utf8 zeros) (List.mem_singleton_self _)
  rw [RawEntry.exists_contents_utf8_iff, zeros,
    Text.ModifiedUtf8.length_encode_replicate_zero] at hcontents
  exact absurd hcontents (by decide)

end Pool

def ClassFile.withZeros : ClassFile where
  version := ⟨52, 0⟩
  access := 0x21
  name := ⟨.ofString "A", Pool.isClassName_letter⟩
  superClass := none
  interfaces := []
  fields := []
  methods := []
  attributes := []
  pool := Pool.ofZeros

theorem ClassFile.succeeds_writeBody_withZeros : Succeeds 2 withZeros.writeBody fun _ => True := by
  have hname : Succeeds 2 (Pool.putClass withZeros.name) fun _ => True := .putClass (by decide)
  have hhead : Succeeds (2 + 0) withZeros.writeHead fun _ => True := by
    refine hname.bind fun name _ => ?_
    exact fun pool _ _ => ⟨_, pool, rfl, Nat.le_refl _, trivial⟩
  show Succeeds (2 + 0 + 0) _ _
  refine hhead.bind fun head _ => ?_
  exact fun pool _ _ => ⟨_, pool, rfl, Nat.le_refl _, trivial⟩

/-- **A pool that was read but cannot be written.** Zeros that were read from one byte each need
two, which is found out only when a class file in that pool has been started. -/
theorem Pool.write_zeros_fails :
    Pool.read (.ofBytes zerosBytes) = .ok (ofZeros, ⟨65540, []⟩) ∧ ofZeros.Reachable ∧
      (∀ bytes, ofZeros.write ≠ ⟨bytes, none⟩) ∧
      ∃ bytes error, ClassFile.withZeros.write = ⟨bytes, some error⟩ ∧ bytes ≠ [] := by
  have hread : Pool.read (.ofBytes zerosBytes) = .ok (ofZeros, ⟨65540, []⟩) := by
    have hreads := reads_zeros 0 []
    rw [List.append_nil, Nat.zero_add, length_zerosBytes] at hreads
    exact hreads
  refine ⟨hread, ⟨ofZeros, .inr ⟨_, _, hread⟩, .refl⟩, ?_, ?_⟩
  · intro bytes hwrite
    exact not_writable_ofZeros (writable_of_write hwrite)
  · have hvalid : ofZeros.Valid := valid_of_read hread
    obtain ⟨body, final, hbody, -, -⟩ :=
      ClassFile.succeeds_writeBody_withZeros ofZeros hvalid (by decide)
    have hfailure : final.write.failure ≠ none := by
      intro hnone
      have hwrite : final.write = ⟨final.write.bytes, none⟩ := by rw [← hnone]
      exact not_writable_ofZeros
        (writable_of_extends (extends_of_run hbody) (writable_of_write hwrite))
    obtain ⟨error, herror⟩ := Option.ne_none_iff_exists'.1 hfailure
    have hheader : ClassFile.withZeros.header ≠ [] := by
      simp [ClassFile.header, Bytes.ofUInt32, Bytes.bigEndian]
    refine ⟨ClassFile.withZeros.header ++ final.write.bytes, error, ?_,
      List.append_ne_nil_of_left_ne_nil hheader _⟩
    have hrun : ClassFile.withZeros.writeBody.run ClassFile.withZeros.pool = (.ok body, final) :=
      hbody
    unfold ClassFile.write
    rw [hrun]
    dsimp only
    rw [herror]

end JvmClass
