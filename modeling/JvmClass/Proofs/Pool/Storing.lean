import JvmClass.Proofs.Pool.Interning
import JvmClass.Proofs.Reading
import JvmClass.Proofs.Text.ModifiedUtf8

/-!
# Pools are read back

A valid pool that can be written is read back from its bytes as the very same pool, the remembered
indices included: both are the empty pool with the same constants added in the same order. Every
pool that was read is valid, as is every pool that constants were added to. A pool that was read is
written as the bytes it was read from, unless a text in it was stored in another way than texts are
written.
-/

namespace JvmClass

/-! ### Stored entries -/

theorem EntryKind.ofTag?_tag (kind : EntryKind) : ofTag? kind.tag = some kind := by
  cases kind <;> rfl

namespace RawEntry

open Reader

/-- What an entry is stored as, its tag included. A text may be stored as any bytes that are read as
it, not only as those it is written as. -/
inductive Form : RawEntry → Bytes → Prop
  | utf8 {text : Text} {payload : Bytes} (hlength : payload.length < 65536)
      (hdecode : Text.ModifiedUtf8.decode payload = .ok text) :
      Form (utf8 text) (1 :: (Bytes.bigEndian 2 payload.length ++ payload))
  | integer (value : Int32) : Form (integer value) (3 :: Bytes.ofInt32 value)
  | float (bits : UInt32) : Form (float bits) (4 :: Bytes.ofUInt32 bits)
  | long (value : Int64) : Form (long value) (5 :: Bytes.ofInt64 value)
  | double (bits : UInt64) : Form (double bits) (6 :: Bytes.ofUInt64 bits)
  | classRef (name : UInt16) : Form (classRef name) (7 :: Bytes.ofUInt16 name)
  | string (text : UInt16) : Form (string text) (8 :: Bytes.ofUInt16 text)
  | fieldRef (owner member : UInt16) :
      Form (fieldRef owner member) (9 :: (Bytes.ofUInt16 owner ++ Bytes.ofUInt16 member))
  | methodRef (owner member : UInt16) :
      Form (methodRef owner member) (10 :: (Bytes.ofUInt16 owner ++ Bytes.ofUInt16 member))
  | interfaceMethodRef (owner member : UInt16) :
      Form (interfaceMethodRef owner member) (11 :: (Bytes.ofUInt16 owner ++ Bytes.ofUInt16 member))
  | nameAndType (name descriptor : UInt16) :
      Form (nameAndType name descriptor) (12 :: (Bytes.ofUInt16 name ++ Bytes.ofUInt16 descriptor))
  | methodHandle (kind : UInt8) (reference : UInt16) :
      Form (methodHandle kind reference) (15 :: kind :: Bytes.ofUInt16 reference)
  | methodType (descriptor : UInt16) :
      Form (methodType descriptor) (16 :: Bytes.ofUInt16 descriptor)
  | dynamic (bootstrap member : UInt16) :
      Form (dynamic bootstrap member) (17 :: (Bytes.ofUInt16 bootstrap ++ Bytes.ofUInt16 member))
  | invokeDynamic (bootstrap member : UInt16) :
      Form (invokeDynamic bootstrap member)
        (18 :: (Bytes.ofUInt16 bootstrap ++ Bytes.ofUInt16 member))
  | moduleRef (name : UInt16) : Form (moduleRef name) (19 :: Bytes.ofUInt16 name)
  | packageRef (name : UInt16) : Form (packageRef name) (20 :: Bytes.ofUInt16 name)

theorem Form.exists_reads {entry : RawEntry} {bytes : Bytes} (hform : Form entry bytes) :
    ∃ contents, bytes = entry.kind.tag :: contents ∧
      (readContents entry.kind).Reads contents entry := by
  cases hform with
  | @utf8 text payload hlength hdecode =>
    refine ⟨_, rfl, .bind (.count16 hlength) ?_⟩
    rw [UInt16.toNat_ofNat_of_lt' hlength]
    refine .last (.bytes payload) ?_
    rw [hdecode]
    exact .pure _
  | integer value => exact ⟨_, rfl, .returning (.int32 value) rfl⟩
  | float bits => exact ⟨_, rfl, .returning (.uint32 bits) rfl⟩
  | long value => exact ⟨_, rfl, .returning (.int64 value) rfl⟩
  | double bits => exact ⟨_, rfl, .returning (.uint64 bits) rfl⟩
  | classRef index | string index | methodType index | moduleRef index | packageRef index =>
    exact ⟨_, rfl, .returning (.uint16 index) rfl⟩
  | methodHandle kind index => exact ⟨_, rfl, .bind (.uint8 kind) (.returning (.uint16 index) rfl)⟩
  | fieldRef first second | methodRef first second | interfaceMethodRef first second
  | nameAndType first second | dynamic first second | invokeDynamic first second =>
    exact ⟨_, rfl, .bind (.uint16 first) (.returning (.uint16 second) rfl)⟩

private theorem form_utf8 {text : Text} {contents : Bytes}
    (hcontents : (utf8 text).contents = .ok contents) : Form (utf8 text) (1 :: contents) := by
  obtain ⟨encoded, hencoded, hbytes⟩ := Result.exists_of_bind hcontents
  cases hbytes
  unfold textBytes at hencoded
  dsimp only at hencoded
  split at hencoded
  · cases hencoded
    exact .utf8 ‹_› (Text.ModifiedUtf8.decode_encode text)
  · cases hencoded

theorem form_of_contents {entry : RawEntry} {contents : Bytes}
    (hcontents : entry.contents = .ok contents) : Form entry (entry.kind.tag :: contents) := by
  cases entry with
  | utf8 text => exact form_utf8 hcontents
  | _ =>
    cases hcontents
    constructor

def slots (entry : RawEntry) : List (Option RawEntry) :=
  some entry :: if entry.kind.isWide then [none] else []

theorem slots_of_isWide {entry : RawEntry} (hwide : entry.kind.isWide = true) :
    entry.slots = [some entry, none] := by
  unfold slots
  rw [if_pos hwide]

theorem slots_of_not_isWide {entry : RawEntry} (hnarrow : ¬entry.kind.isWide = true) :
    entry.slots = [some entry] := by
  unfold slots
  rw [if_neg hnarrow]

end RawEntry

/-- How many bytes an entry of a kind takes behind its tag; a text says so itself. -/
def EntryKind.size (kind : EntryKind) (bytes : Bytes) : Nat :=
  match kind with
  | utf8 => 2 + Bytes.toNat (bytes.take 2)
  | integer | float => 4
  | long | double => 8
  | classRef | string | methodType | moduleRef | packageRef => 2
  | methodHandle => 3
  | fieldRef | methodRef | interfaceMethodRef | nameAndType | dynamic | invokeDynamic => 4

namespace RawEntry

open Reader

/-- The bytes were read as an entry of the kind. They are what that entry is written as, unless it
is a text that was not stored in the way it is written. -/
structure SpelledBy (kind : EntryKind) (entry : RawEntry) (bytes : Bytes) : Prop where
  kind_eq : entry.kind = kind
  size_eq (rest : Bytes) : kind.size (bytes ++ rest) = bytes.length
  contents_eq (hplain : kind = .utf8 → Text.ModifiedUtf8.IsPlain (bytes.drop 2)) :
    entry.contents = .ok bytes
  /-- Only a text can get too long to be written. -/
  writable_iff : (∃ contents, entry.contents = .ok contents) ↔
    (kind = .utf8 → Text.ModifiedUtf8.rewrittenSize (bytes.drop 2) < 65536)
  form : Form entry (kind.tag :: bytes)

theorem exists_contents_utf8_iff {text : Text} :
    (∃ contents, (utf8 text).contents = .ok contents) ↔
      (Text.ModifiedUtf8.encode text).length < 65536 := by
  unfold contents textBytes
  dsimp only
  split
  · rename_i hlt
    exact ⟨fun _ => hlt, fun _ => ⟨_, rfl⟩⟩
  · rename_i hge
    refine ⟨fun hcontents => ?_, fun hlt => absurd hlt hge⟩
    obtain ⟨contents, hcontents⟩ := hcontents
    cases hcontents

/-- An entry that is no text can always be written, and is stored in one way only. -/
theorem spelledBy_of_contents {kind : EntryKind} {entry : RawEntry} {bytes : Bytes}
    (hkind : entry.kind = kind) (hne : kind ≠ .utf8)
    (hsize : ∀ rest, kind.size (bytes ++ rest) = bytes.length)
    (hcontents : entry.contents = .ok bytes) : SpelledBy kind entry bytes where
  kind_eq := hkind
  size_eq := hsize
  contents_eq _ := hcontents
  writable_iff := ⟨fun _ hutf8 => absurd hutf8 hne, fun _ => ⟨bytes, hcontents⟩⟩
  form := hkind ▸ form_of_contents hcontents

private theorem spells_utf8 : (readContents .utf8).Spells (SpelledBy .utf8) := by
  refine .bind .uint16 ?_
  rintro length front rfl
  refine .bind (.bytes _) ?_
  rintro contents found ⟨rfl, hlength⟩
  have hfront : (Bytes.ofUInt16 length ++ contents).drop 2 = contents :=
    List.drop_left' (Bytes.length_ofUInt16 length)
  cases hdecode : Text.ModifiedUtf8.decode contents with
  | error malformed => exact .fail
  | ok text =>
    have hlt : contents.length < 65536 := by
      rw [hlength]
      exact length.toNat_lt
    refine .pure ⟨rfl, fun rest => ?_, fun hplain => ?_, ?_, ?_⟩
    · have htake : (Bytes.ofUInt16 length ++ (contents ++ ([] ++ rest))).take 2 =
          Bytes.ofUInt16 length := List.take_left' (Bytes.length_ofUInt16 length)
      rw [EntryKind.size, List.append_assoc, List.append_assoc, htake, Bytes.ofUInt16,
        Bytes.toNat_bigEndian_of_lt length.toNat_lt]
      simp [hlength]
    · rw [List.append_nil, hfront] at hplain
      have hencode := Text.ModifiedUtf8.encode_of_decode hdecode (hplain rfl)
      have hbytes : textBytes text = .ok contents := by
        unfold textBytes
        dsimp only
        rw [hencode, if_pos hlt]
      refine Result.bind_of_ok hbytes ?_
      rw [hlength, List.append_nil]
      rfl
    · rw [exists_contents_utf8_iff, Text.ModifiedUtf8.length_encode_of_decode hdecode,
        List.append_nil, hfront]
      exact ⟨fun hlt _ => hlt, fun hlt => hlt rfl⟩
    · have hform := Form.utf8 hlt hdecode
      rwa [hlength, ← List.append_nil contents] at hform

private theorem spells_one {kind : EntryKind} {make : UInt16 → RawEntry}
    (hkind : ∀ index, (make index).kind = kind) (hne : kind ≠ .utf8)
    (hsize : ∀ bytes, kind.size bytes = 2)
    (hcontents : ∀ index, (make index).contents = .ok (Bytes.ofUInt16 index)) :
    (do return make (← Reader.uint16) : Reader RawEntry).Spells (SpelledBy kind) := by
  refine .bind .uint16 ?_
  rintro index front rfl
  refine .pure (spelledBy_of_contents (hkind index) hne (fun rest => ?_) ?_)
  · rw [hsize, List.append_nil, Bytes.length_ofUInt16]
  · rw [hcontents, List.append_nil]

private theorem spells_two {kind : EntryKind} {make : UInt16 → UInt16 → RawEntry}
    (hkind : ∀ first second, (make first second).kind = kind) (hne : kind ≠ .utf8)
    (hsize : ∀ bytes, kind.size bytes = 4)
    (hcontents : ∀ first second, (make first second).contents =
      .ok (Bytes.ofUInt16 first ++ Bytes.ofUInt16 second)) :
    (do return make (← Reader.uint16) (← Reader.uint16) : Reader RawEntry).Spells
      (SpelledBy kind) := by
  refine .bind .uint16 ?_
  rintro first front rfl
  refine .bind .uint16 ?_
  rintro second back rfl
  refine .pure (spelledBy_of_contents (hkind first second) hne (fun rest => ?_) ?_)
  · rw [hsize]
    simp
  · rw [hcontents, List.append_nil]

theorem spells_readContents (kind : EntryKind) : (readContents kind).Spells (SpelledBy kind) := by
  cases kind with
  | utf8 => exact spells_utf8
  | integer =>
    refine .bind .int32 ?_
    rintro value front rfl
    exact .pure (spelledBy_of_contents rfl (by decide) (fun rest => by simp [EntryKind.size])
      (by simp [contents]))
  | float =>
    refine .bind .uint32 ?_
    rintro value front rfl
    exact .pure (spelledBy_of_contents rfl (by decide) (fun rest => by simp [EntryKind.size])
      (by simp [contents]))
  | long =>
    refine .bind .int64 ?_
    rintro value front rfl
    exact .pure (spelledBy_of_contents rfl (by decide)
      (fun rest => by simp [EntryKind.size, Bytes.ofInt64, Bytes.ofUInt64]) (by simp [contents]))
  | double =>
    refine .bind .uint64 ?_
    rintro value front rfl
    exact .pure (spelledBy_of_contents rfl (by decide)
      (fun rest => by simp [EntryKind.size, Bytes.ofUInt64]) (by simp [contents]))
  | methodHandle =>
    refine .bind .uint8 ?_
    rintro reference front rfl
    refine .bind .uint16 ?_
    rintro index back rfl
    exact .pure (spelledBy_of_contents rfl (by decide) (fun rest => by simp [EntryKind.size])
      (by simp [contents]))
  | classRef | string | methodType | moduleRef | packageRef =>
    exact spells_one (fun _ => rfl) (by decide) (fun _ => rfl) fun _ => rfl
  | fieldRef | methodRef | interfaceMethodRef | nameAndType | dynamic | invokeDynamic =>
    exact spells_two (fun _ _ => rfl) (by decide) (fun _ => rfl) fun _ _ => rfl

/-! ### Entries one after the other -/

/-- Entries as they are written, each behind its tag. -/
inductive StoredAs : List RawEntry → Bytes → Prop
  | nil : StoredAs [] []
  | cons {entry : RawEntry} {entries : List RawEntry} {contents bytes : Bytes}
      (hcontents : entry.contents = .ok contents) (hrest : StoredAs entries bytes) :
      StoredAs (entry :: entries) (entry.kind.tag :: (contents ++ bytes))

inductive Forms : List RawEntry → Bytes → Prop
  | nil : Forms [] []
  | cons {entry : RawEntry} {entries : List RawEntry} {front bytes : Bytes}
      (hform : Form entry front) (hrest : Forms entries bytes) :
      Forms (entry :: entries) (front ++ bytes)

theorem StoredAs.forms {entries : List RawEntry} {bytes : Bytes}
    (hstored : StoredAs entries bytes) : Forms entries bytes := by
  induction hstored with
  | nil => exact .nil
  | cons hcontents _ ih => exact .cons (form_of_contents hcontents) ih

end RawEntry

/-! ### Constants one after the other -/

namespace Pool

theorem map_raw_slotsOf {entry : Entry} {raw : RawEntry} (hkind : entry.kind = raw.kind) :
    (slotsOf entry raw).map Slot.raw? = raw.slots := by
  unfold slotsOf RawEntry.slots
  rw [hkind]
  split <;> rfl

theorem map_raw_flatMap {items : List (Entry × RawEntry)}
    (hkinds : ∀ item ∈ items, item.1.kind = item.2.kind) :
    (items.flatMap fun item => slotsOf item.1 item.2).map Slot.raw? =
      items.flatMap fun item => item.2.slots := by
  rw [List.map_flatMap, List.flatMap_def, List.flatMap_def]
  congr 1
  exact List.map_congr_left fun item hmem => map_raw_slotsOf (hkinds item hmem)

/-- What constants are written as are their stored entries. -/
theorem storedAs_of_writeSlots {items : List (Entry × RawEntry)} {written : Array UInt8}
    {bytes : Bytes}
    (hwrite : writeSlots (items.flatMap fun item => slotsOf item.1 item.2) written =
      ⟨bytes, none⟩) :
    ∃ added, bytes = written.toList ++ added ∧ RawEntry.StoredAs (items.map Prod.snd) added := by
  induction items generalizing written with
  | nil =>
    cases hwrite
    exact ⟨[], (List.append_nil _).symm, .nil⟩
  | cons item items ih =>
    obtain ⟨entry, raw⟩ := item
    rw [List.flatMap_cons] at hwrite
    -- The upper half of a wide constant writes nothing.
    have hcontents : ∃ contents, raw.contents = .ok contents ∧
        writeSlots (items.flatMap fun item => slotsOf item.1 item.2)
          (written.push raw.kind.tag ++ contents) = ⟨bytes, none⟩ := by
      unfold slotsOf at hwrite
      rw [List.cons_append, writeSlots] at hwrite
      dsimp only at hwrite
      split at hwrite
      · rename_i contents hcontents
        refine ⟨contents, hcontents, ?_⟩
        split at hwrite <;> exact hwrite
      · cases hwrite
    obtain ⟨contents, hcontents, hitems⟩ := hcontents
    obtain ⟨added, rfl, hstored⟩ := ih hitems
    exact ⟨raw.kind.tag :: (contents ++ added), by simp, .cons hcontents hstored⟩

theorem writeSlots_of_storedAs {items : List (Entry × RawEntry)} {bytes : Bytes}
    (hstored : RawEntry.StoredAs (items.map Prod.snd) bytes) (written : Array UInt8) :
    writeSlots (items.flatMap fun item => slotsOf item.1 item.2) written =
      ⟨written.toList ++ bytes, none⟩ := by
  induction items generalizing written bytes with
  | nil =>
    cases hstored
    rw [List.append_nil]
    rfl
  | cons item items ih =>
    obtain ⟨entry, raw⟩ := item
    cases hstored with
    | @cons _ _ contents bytes hcontents hrest =>
      have hstep : writeSlots (slotsOf entry raw ++ items.flatMap fun item => slotsOf item.1 item.2)
          written = writeSlots (items.flatMap fun item => slotsOf item.1 item.2)
            (written.push raw.kind.tag ++ contents) := by
        unfold slotsOf
        rw [List.cons_append, writeSlots, hcontents]
        dsimp only
        split <;> rfl
      rw [List.flatMap_cons, hstep, ih hrest]
      simp

end Pool

namespace RawPool

theorem readSlots_of_forms {raws : List RawEntry} {bytes : Bytes}
    (hforms : RawEntry.Forms raws bytes) (slots : Array (Option RawEntry)) (position : Nat)
    (rest : Bytes) :
    readSlots (raws.flatMap RawEntry.slots).length slots ⟨position, bytes ++ rest⟩ =
      .ok (⟨slots ++ raws.flatMap RawEntry.slots⟩, ⟨position + bytes.length, rest⟩) := by
  induction hforms generalizing slots position with
  | nil => simp [readSlots]
  | @cons raw raws front bytes hform _ ih =>
    obtain ⟨contents, rfl, hcontents⟩ := hform.exists_reads
    have hread : (RawEntry.read raw.kind.tag).Reads contents raw := by
      unfold RawEntry.read
      rwa [EntryKind.ofTag?_tag]
    have htag := Reader.Reads.uint8 raw.kind.tag position (contents ++ (bytes ++ rest))
    have hentry := Reader.Reads.during (.readingEntry slots.size) hread (position + 1)
      (bytes ++ rest)
    rw [List.singleton_append, List.length_singleton] at htag
    rw [List.flatMap_cons]
    by_cases hwide : raw.kind.isWide = true
    · rw [RawEntry.slots_of_isWide hwide, List.length_append, List.length_cons,
        List.length_singleton, Nat.add_comm 2, readSlots, List.cons_append, List.cons_append,
        List.append_assoc, htag]
      dsimp only
      rw [hentry]
      dsimp only
      rw [if_pos hwide, ih]
      simp [Nat.add_assoc, Nat.add_comm 1]
    · rw [RawEntry.slots_of_not_isWide hwide, List.length_append, List.length_singleton,
        Nat.add_comm 1, readSlots, List.cons_append, List.cons_append, List.append_assoc, htag]
      dsimp only
      rw [hentry]
      dsimp only
      rw [if_neg hwide, ih]
      simp [Nat.add_assoc, Nat.add_comm 1]

def ofEntries (raws : List RawEntry) : RawPool :=
  ⟨(none :: raws.flatMap RawEntry.slots).toArray⟩

/-- Index zero is not stored, so one slot less is read than the count says. -/
theorem reads_of_forms {raws : List RawEntry} {bytes : Bytes} (hforms : RawEntry.Forms raws bytes)
    {count : Nat} (hcount : count = (raws.flatMap RawEntry.slots).length + 1)
    (hlt : count < 65536) :
    RawPool.read.Reads (Bytes.bigEndian 2 count ++ bytes) (ofEntries raws) := by
  refine .bind (.count16 hlt) ?_
  have hnonzero : (UInt16.ofNat count == 0) = false := by
    rw [beq_eq_false_iff_ne]
    intro hzero
    have htoNat := congrArg UInt16.toNat hzero
    rw [UInt16.toNat_ofNat_of_lt' hlt, hcount] at htoNat
    cases htoNat
  rw [hnonzero, if_neg Bool.false_ne_true, UInt16.toNat_ofNat_of_lt' hlt, hcount,
    Nat.add_sub_cancel]
  intro position rest
  change readSlots _ _ _ = _
  rw [readSlots_of_forms hforms]
  simp [ofEntries]

/-- The contents of the texts among the entries that fill `missing` slots. -/
def textsIn : (missing : Nat) → Bytes → List Bytes
  | 0, _ => []
  | _ + 1, [] => []
  | missing + 1, tag :: bytes =>
    match EntryKind.ofTag? tag with
    | none => []
    | some kind =>
      let rest := bytes.drop (kind.size bytes)
      if kind.isWide then
        match missing with
        | 0 => []
        | missing + 1 => textsIn missing rest
      else if kind = .utf8 then
        (bytes.take (kind.size bytes)).drop 2 :: textsIn missing rest
      else
        textsIn missing rest

/-- The entries were read from the bytes between two inputs, and fill the missing slots. If the texts
among them were stored as they are written, so were all entries. -/
structure ReadFrom (missing : Nat) (input rest : Input) (raws : List RawEntry) (bytes : Bytes) :
    Prop where
  length_eq : (raws.flatMap RawEntry.slots).length = missing
  rest_eq : input.rest = bytes ++ rest.rest
  position_eq : rest.position = input.position + bytes.length
  forms : RawEntry.Forms raws bytes
  storedAs (hplain : ∀ contents ∈ textsIn missing input.rest, Text.ModifiedUtf8.IsPlain contents) :
    RawEntry.StoredAs raws bytes
  /-- The entries can be written unless one of the texts gets too long. -/
  writable_iff : (∀ raw ∈ raws, ∃ contents, raw.contents = .ok contents) ↔
    ∀ contents ∈ textsIn missing input.rest, Text.ModifiedUtf8.rewrittenSize contents < 65536

theorem textsIn_cons {tag : UInt8} {kind : EntryKind} {entry : RawEntry} {contents : Bytes}
    (hkind : EntryKind.ofTag? tag = some kind) (hspelled : RawEntry.SpelledBy kind entry contents)
    (missing : Nat) (others : Bytes) :
    textsIn (missing + kind.width) (tag :: (contents ++ others)) =
      (if kind = .utf8 then [contents.drop 2] else []) ++ textsIn missing others := by
  by_cases hwide : kind.isWide = true
  · have hother : kind ≠ .utf8 := by
      rintro rfl
      cases hwide
    rw [EntryKind.width, if_pos hwide, textsIn, hkind]
    dsimp only
    rw [hspelled.size_eq, List.drop_left, if_pos hwide, if_neg hother, List.nil_append]
  · rw [EntryKind.width, if_neg hwide, textsIn, hkind]
    dsimp only
    rw [hspelled.size_eq, List.drop_left, List.take_left, if_neg hwide]
    split <;> rfl

theorem tag_of_ofTag? {tag : UInt8} {kind : EntryKind} (hkind : EntryKind.ofTag? tag = some kind) :
    kind.tag = tag := by
  unfold EntryKind.ofTag? at hkind
  split at hkind <;> cases hkind <;> rfl

theorem ReadFrom.cons {missing : Nat} {input between rest : Input} {raws : List RawEntry}
    {bytes contents : Bytes} {tag : UInt8} {kind : EntryKind} {entry : RawEntry}
    (hkind : EntryKind.ofTag? tag = some kind) (hspelled : RawEntry.SpelledBy kind entry contents)
    (hinput : input.rest = tag :: (contents ++ between.rest))
    (hbetween : between.position = input.position + 1 + contents.length)
    (hrest : ReadFrom missing between rest raws bytes) :
    ReadFrom (missing + kind.width) input rest (entry :: raws) (tag :: (contents ++ bytes)) where
  length_eq := by
    have hslots : entry.slots.length = kind.width := by
      unfold RawEntry.slots EntryKind.width
      rw [hspelled.kind_eq]
      split <;> rfl
    rw [List.flatMap_cons, List.length_append, hslots, hrest.length_eq, Nat.add_comm]
  rest_eq := by
    rw [hinput, hrest.rest_eq]
    simp
  position_eq := by
    rw [hrest.position_eq, hbetween, List.length_cons, List.length_append]
    omega
  forms := by
    rw [← tag_of_ofTag? hkind]
    exact .cons hspelled.form hrest.forms
  storedAs := by
    intro hplain
    rw [hinput, textsIn_cons hkind hspelled] at hplain
    obtain ⟨hfirst, hothers⟩ := List.forall_mem_append.1 hplain
    have hcontents := hspelled.contents_eq fun hutf8 => hfirst _ (by rw [if_pos hutf8]; simp)
    have htag : entry.kind.tag = tag := by
      rw [hspelled.kind_eq]
      exact tag_of_ofTag? hkind
    rw [← htag]
    exact .cons hcontents (hrest.storedAs hothers)
  writable_iff := by
    rw [hinput, textsIn_cons hkind hspelled, List.forall_mem_cons, List.forall_mem_append,
      hspelled.writable_iff, hrest.writable_iff]
    refine and_congr_left' ?_
    split
    · rename_i hutf8
      exact ⟨fun hlt => List.forall_mem_singleton.2 (hlt hutf8),
        fun hlt _ => hlt _ (List.mem_singleton_self _)⟩
    · rename_i hother
      exact ⟨fun _ => List.forall_mem_nil _, fun _ hutf8 => absurd hutf8 hother⟩

theorem exists_of_readEntry {tag : UInt8} {entry : RawEntry} {input after between : Input}
    {activity : Activity} (htag : Reader.uint8 input = .ok (tag, after))
    (hentry : Reader.during activity (RawEntry.read tag) after = .ok (entry, between)) :
    ∃ kind contents, EntryKind.ofTag? tag = some kind ∧ RawEntry.SpelledBy kind entry contents ∧
      input.rest = tag :: (contents ++ between.rest) ∧
      between.position = input.position + 1 + contents.length := by
  obtain ⟨front, hinput, hposition, rfl⟩ := Reader.Spells.uint8 input tag after htag
  have hread : RawEntry.read tag after = .ok (entry, between) := Result.during_eq_ok_iff.1 hentry
  unfold RawEntry.read at hread
  cases hkind : EntryKind.ofTag? tag with
  | none =>
    rw [hkind] at hread
    cases hread
  | some kind =>
    rw [hkind] at hread
    obtain ⟨contents, hafter, hend, hspelled⟩ :=
      RawEntry.spells_readContents kind after entry between hread
    refine ⟨kind, contents, rfl, hspelled, ?_, ?_⟩
    · rw [hinput, hafter]
      rfl
    · rw [hend, hposition]
      rfl

theorem exists_of_readSlots {missing : Nat} {slots : Array (Option RawEntry)} {input rest : Input}
    {raw : RawPool} (hread : readSlots missing slots input = .ok (raw, rest)) :
    ∃ raws bytes, raw.slots.toList = slots.toList ++ raws.flatMap RawEntry.slots ∧
      ReadFrom missing input rest raws bytes := by
  fun_induction readSlots missing slots input with
  | case1 slots input =>
    cases hread
    exact ⟨[], [], (List.append_nil _).symm, rfl, rfl, rfl, .nil, fun _ => .nil,
      iff_of_true (List.forall_mem_nil _) (List.forall_mem_nil _)⟩
  | case5 slots input tag after htag entry between hentry hwide missing ih =>
    obtain ⟨raws, bytes, hraws, hrest⟩ := ih hread
    obtain ⟨kind, contents, hkind, hspelled, hinput, hbetween⟩ := exists_of_readEntry htag hentry
    refine ⟨entry :: raws, tag :: (contents ++ bytes), ?_, ?_⟩
    · rw [hraws, List.flatMap_cons, RawEntry.slots_of_isWide hwide]
      simp
    · have hcons := ReadFrom.cons hkind hspelled hinput hbetween hrest
      rwa [EntryKind.width, ← hspelled.kind_eq, if_pos hwide] at hcons
  | case6 slots input missing tag after htag entry between hentry hnarrow ih =>
    obtain ⟨raws, bytes, hraws, hrest⟩ := ih hread
    obtain ⟨kind, contents, hkind, hspelled, hinput, hbetween⟩ := exists_of_readEntry htag hentry
    refine ⟨entry :: raws, tag :: (contents ++ bytes), ?_, ?_⟩
    · rw [hraws, List.flatMap_cons, RawEntry.slots_of_not_isWide hnarrow]
      simp
    · have hcons := ReadFrom.cons hkind hspelled hinput hbetween hrest
      rwa [EntryKind.width, ← hspelled.kind_eq, if_neg hnarrow] at hcons
  | _ => cases hread

end RawPool

namespace Pool

theorem resolveSlots_slots_append {raw : RawPool} {stored : RawEntry} {entry : Entry}
    (hresolve : stored.resolve raw = .ok entry) (rest : List (Option RawEntry)) (pool : Pool) :
    resolveSlots raw (stored.slots ++ rest) pool =
      resolveSlots raw rest (pool.appended entry stored) := by
  unfold RawEntry.slots appended
  rw [RawEntry.kind_of_resolve hresolve, List.cons_append, resolveSlots,
    Result.during_eq_ok_iff.2 hresolve]
  dsimp only
  split <;> rfl

theorem resolveSlots_eq_ok {raw : RawPool} {items : List (Entry × RawEntry)}
    (hresolve : ∀ item ∈ items, item.2.resolve raw = .ok item.1) (pool : Pool) :
    resolveSlots raw (items.flatMap fun item => item.2.slots) pool = .ok (pool.addAll items) := by
  induction items generalizing pool with
  | nil => rfl
  | cons item items ih =>
    rw [List.flatMap_cons, resolveSlots_slots_append (hresolve item List.mem_cons_self),
      ih fun other hmem => hresolve other (List.mem_cons_of_mem _ hmem)]
    rfl

theorem exists_of_resolveSlots {raw : RawPool} {raws : List RawEntry} {pool final : Pool}
    (hresolve : resolveSlots raw (raws.flatMap RawEntry.slots) pool = .ok final) :
    ∃ items : List (Entry × RawEntry), items.map Prod.snd = raws ∧ pool.addAll items = final ∧
      ∀ item ∈ items, item.2.resolve raw = .ok item.1 := by
  induction raws generalizing pool with
  | nil =>
    cases hresolve
    exact ⟨[], rfl, rfl, fun _ hmem => (List.not_mem_nil hmem).elim⟩
  | cons stored raws ih =>
    rw [List.flatMap_cons] at hresolve
    have hstored : ∃ entry, stored.resolve raw = .ok entry := by
      cases hentry : stored.resolve raw with
      | ok entry => exact ⟨entry, rfl⟩
      | error error =>
        unfold RawEntry.slots at hresolve
        rw [List.cons_append, resolveSlots, hentry] at hresolve
        cases hresolve
    obtain ⟨entry, hentry⟩ := hstored
    rw [resolveSlots_slots_append hentry] at hresolve
    obtain ⟨items, rfl, hfinal, hitems⟩ := ih hresolve
    exact ⟨(entry, stored) :: items, rfl, hfinal, List.forall_mem_cons.2 ⟨hentry, hitems⟩⟩

/-! ### Valid pools as lists of constants -/

theorem toList_empty_addAll (items : List (Entry × RawEntry)) :
    (Pool.empty.addAll items).slots.toList =
      .unused :: items.flatMap fun item => slotsOf item.1 item.2 :=
  Pool.empty.toList_addAll items

theorem toList_stored_addAll {items : List (Entry × RawEntry)}
    (hkinds : ∀ item ∈ items, item.1.kind = item.2.kind) :
    (Pool.empty.addAll items).stored.slots.toList =
      none :: items.flatMap fun item => item.2.slots := by
  rw [stored, Array.toList_map, toList_empty_addAll, List.map_cons, map_raw_flatMap hkinds]
  rfl

theorem stored_addAll {items : List (Entry × RawEntry)}
    (hkinds : ∀ item ∈ items, item.1.kind = item.2.kind) :
    (Pool.empty.addAll items).stored = RawPool.ofEntries (items.map Prod.snd) := by
  have hslots : (Pool.empty.addAll items).stored.slots =
      (RawPool.ofEntries (items.map Prod.snd)).slots := by
    rw [← Array.toList_inj, toList_stored_addAll hkinds, RawPool.ofEntries, List.flatMap_map]
  exact congrArg RawPool.mk hslots

theorem count_addAll {items : List (Entry × RawEntry)}
    (hkinds : ∀ item ∈ items, item.1.kind = item.2.kind) :
    (Pool.empty.addAll items).count =
      ((items.map Prod.snd).flatMap RawEntry.slots).length + 1 := by
  have hsize : (Pool.empty.addAll items).count =
      (Pool.empty.addAll items).stored.slots.size := by
    simp [count, stored]
  rw [hsize, stored_addAll hkinds]
  rfl

theorem Valid.exists_items {pool : Pool} (hvalid : pool.Valid) :
    ∃ items : List (Entry × RawEntry), Pool.empty.addAll items = pool ∧
      ∀ item ∈ items, item.2.resolve pool.stored = .ok item.1 := by
  obtain ⟨items, rfl⟩ := hvalid.built
  refine ⟨items, rfl, fun item hmem => ?_⟩
  have hslot : Slot.entry item.1 item.2 ∈ (Pool.empty.addAll items).slots.toList := by
    rw [toList_empty_addAll]
    exact List.mem_cons_of_mem _ (List.mem_flatMap.2 ⟨item, hmem, List.mem_cons_self⟩)
  obtain ⟨index, hindex⟩ := List.mem_iff_getElem?.1 hslot
  rw [Array.getElem?_toList] at hindex
  exact hvalid.resolves hindex

/-- Constants that resolve in the pool they make up make up a valid pool. -/
theorem valid_addAll {items : List (Entry × RawEntry)}
    (hcount : (Pool.empty.addAll items).count ≤ maxCount)
    (hresolve : ∀ item ∈ items, item.2.resolve (Pool.empty.addAll items).stored = .ok item.1) :
    (Pool.empty.addAll items).Valid where
  built := ⟨items, rfl⟩
  count_le := hcount
  resolves := by
    intro index entry raw hslot
    rw [← Array.getElem?_toList, toList_empty_addAll] at hslot
    have hmem := List.mem_of_getElem? hslot
    rw [List.mem_cons, List.mem_flatMap] at hmem
    rcases hmem with hunused | ⟨item, hitem, hmem⟩
    · cases hunused
    · obtain ⟨rfl, rfl⟩ := eq_of_mem_slotsOf hmem
      exact hresolve item hitem

/-! ### Writing and reading -/

open Reader

/-- A valid pool is read back from what it is written as. -/
theorem Valid.reads {pool : Pool} (hvalid : pool.Valid) {bytes : Bytes}
    (hwrite : pool.write = ⟨bytes, none⟩) : Pool.read.Reads bytes pool := by
  obtain ⟨items, rfl, hresolve⟩ := hvalid.exists_items
  have hkinds : ∀ item ∈ items, item.1.kind = item.2.kind :=
    fun item hmem => RawEntry.kind_of_resolve (hresolve item hmem)
  have hstored := stored_addAll hkinds
  have hlength := count_addAll hkinds
  generalize hpool : Pool.empty.addAll items = pool at *
  have hcount : pool.count < 256 ^ 2 := Nat.lt_of_le_of_lt hvalid.count_le (by decide)
  unfold write Bytes.ofCount at hwrite
  rw [show Nat.pow 256 2 = 256 ^ 2 from rfl, if_pos hcount, ← hpool, toList_empty_addAll, hpool]
    at hwrite
  dsimp only at hwrite
  rw [writeSlots] at hwrite
  obtain ⟨added, rfl, hentries⟩ := storedAs_of_writeSlots hwrite
  refine .last (RawPool.reads_of_forms hentries.forms hlength hcount) ?_
  rw [← hstored]
  refine .lift ?_
  have htail : pool.stored.slots.toList.tail = items.flatMap fun item => item.2.slots := by
    rw [hstored]
    exact List.flatMap_map ..
  rw [htail, resolveSlots_eq_ok hresolve, hpool]

private theorem exists_writeSlots {slots : List Slot}
    (hslots : ∀ entry raw, Slot.entry entry raw ∈ slots → ∃ contents, raw.contents = .ok contents)
    (written : Array UInt8) : ∃ bytes, writeSlots slots written = ⟨bytes, none⟩ := by
  induction slots generalizing written with
  | nil => exact ⟨written.toList, rfl⟩
  | cons slot slots ih =>
    have hrest := fun entry raw hmem => hslots entry raw (List.mem_cons_of_mem _ hmem)
    cases slot with
    | unused | upperHalf => exact ih hrest written
    | entry entry raw =>
      obtain ⟨contents, hcontents⟩ := hslots entry raw List.mem_cons_self
      rw [writeSlots, hcontents]
      exact ih hrest _

theorem Writable.exists_write {pool : Pool} (hwritable : pool.Writable)
    (hcount : pool.count ≤ maxCount) : ∃ bytes, pool.write = ⟨bytes, none⟩ := by
  have hcountBytes : Bytes.ofCount 2 pool.count = .ok (Bytes.bigEndian 2 pool.count) :=
    if_pos (Nat.lt_of_le_of_lt hcount (by decide))
  unfold write
  rw [hcountBytes]
  refine exists_writeSlots (fun entry raw hmem => ?_) _
  obtain ⟨index, hindex⟩ := List.mem_iff_getElem?.1 hmem
  rw [Array.getElem?_toList] at hindex
  exact hwritable index entry raw hindex

/-- A pool that was read holds constants that resolve in it, and was read from their stored
entries. -/
theorem exists_of_read {pool : Pool} {input rest : Input}
    (hread : Pool.read input = .ok (pool, rest)) :
    ∃ (count : UInt16) (items : List (Entry × RawEntry)) (after : Input) (bytes : Bytes),
      input.rest = Bytes.ofUInt16 count ++ after.rest ∧ after.position = input.position + 2 ∧
      RawPool.ReadFrom (count.toNat - 1) after rest (items.map Prod.snd) bytes ∧
      pool = Pool.empty.addAll items ∧ pool.count = count.toNat ∧
      ∀ item ∈ items, item.2.resolve pool.stored = .ok item.1 := by
  obtain ⟨raw, between, hraw, hresolve⟩ := Reader.exists_of_bind hread
  obtain ⟨count, after, hcount, hslots⟩ := Reader.exists_of_bind hraw
  obtain ⟨front, hinput, hposition, rfl⟩ := Reader.Spells.uint16 input count after hcount
  split at hslots
  · cases hslots
  rename_i hnonzero
  obtain ⟨raws, bytes, hraws, hfrom⟩ := RawPool.exists_of_readSlots hslots
  have hresolved : resolveSlots raw raw.slots.toList.tail Pool.empty = .ok pool ∧ between = rest := by
    cases hpool : resolveSlots raw raw.slots.toList.tail Pool.empty with
    | ok found =>
      rw [hpool] at hresolve
      cases hresolve
      exact ⟨rfl, rfl⟩
    | error error =>
      rw [hpool] at hresolve
      cases hresolve
  obtain ⟨hresolved, rfl⟩ := hresolved
  rw [hraws] at hresolved
  obtain ⟨items, rfl, rfl, hitems⟩ := exists_of_resolveSlots hresolved
  have hkinds : ∀ item ∈ items, item.1.kind = item.2.kind :=
    fun item hmem => RawEntry.kind_of_resolve (hitems item hmem)
  have hstored : (Pool.empty.addAll items).stored = raw := by
    rw [stored_addAll hkinds]
    exact congrArg RawPool.mk (Array.toList_inj.1 hraws.symm)
  have hsize : (Pool.empty.addAll items).count = count.toNat - 1 + 1 := by
    rw [count_addAll hkinds, hfrom.length_eq]
  have hpos : 0 < count.toNat := by
    refine Nat.pos_of_ne_zero fun hzero => hnonzero ?_
    rw [beq_iff_eq]
    exact UInt16.toNat_inj.1 hzero
  refine ⟨count, items, after, bytes, ?_, ?_, hfrom, rfl, by omega,
    fun item hmem => hstored ▸ hitems item hmem⟩
  · rw [hinput]
  · rw [hposition, Bytes.length_ofUInt16]

theorem valid_of_read {pool : Pool} {input rest : Input} (hread : Pool.read input = .ok (pool, rest)) :
    pool.Valid := by
  obtain ⟨count, items, -, -, -, -, -, rfl, hcount, hitems⟩ := exists_of_read hread
  refine valid_addAll ?_ hitems
  have hlt : count.toNat < 65536 := count.toNat_lt
  unfold maxCount
  omega

/-! ### Pools in use -/

/-- The pools that can come about: the empty one and those that were read, and what they become
when constants are looked for in them, whether or not that goes well. -/
inductive Built : Pool → Prop
  | empty : Built Pool.empty
  | read {pool : Pool} {input rest : Input} (hread : Pool.read input = .ok (pool, rest)) :
      Built pool
  | find {pool : Pool} (hbuilt : Built pool) (entry : Entry) : Built ((find entry).run pool).2

theorem Built.valid {pool : Pool} (hbuilt : pool.Built) : pool.Valid := by
  induction hbuilt with
  | empty => exact valid_empty
  | read hread => exact valid_of_read hread
  | find _ entry ih => exact PoolM.valid_run (Pool.find entry) ih

/-! ### Both ways -/

/-- The contents of all texts in a stored pool, which starts with its count. -/
def storedTexts (bytes : Bytes) : List Bytes :=
  RawPool.textsIn (Bytes.toNat (bytes.take 2) - 1) (bytes.drop 2)

/-- A pool whose texts were stored as they are written is written as what it was read from. -/
theorem write_of_read {pool : Pool} {input rest : Input}
    (hread : Pool.read input = .ok (pool, rest))
    (hplain : ∀ contents ∈ storedTexts input.rest, Text.ModifiedUtf8.IsPlain contents) :
    ∃ bytes, pool.write = ⟨bytes, none⟩ ∧ input.rest = bytes ++ rest.rest ∧
      rest.position = input.position + bytes.length := by
  obtain ⟨count, items, after, bytes, hinput, hafter, hfrom, rfl, hcount, -⟩ := exists_of_read hread
  have htake : input.rest.take 2 = Bytes.ofUInt16 count := by
    rw [hinput]
    exact List.take_left' (Bytes.length_ofUInt16 count)
  have hdrop : input.rest.drop 2 = after.rest := by
    rw [hinput]
    exact List.drop_left' (Bytes.length_ofUInt16 count)
  have htoNat : Bytes.toNat (Bytes.ofUInt16 count) = count.toNat :=
    Bytes.toNat_bigEndian_of_lt count.toNat_lt
  unfold storedTexts at hplain
  rw [htake, hdrop, htoNat] at hplain
  have hwritten := writeSlots_of_storedAs (hfrom.storedAs hplain)
  have hcountBytes : Bytes.ofCount 2 count.toNat = .ok (Bytes.ofUInt16 count) :=
    if_pos count.toNat_lt
  refine ⟨Bytes.ofUInt16 count ++ bytes, ?_, ?_, ?_⟩
  · unfold write
    rw [hcount, hcountBytes, toList_empty_addAll]
    dsimp only
    rw [writeSlots, hwritten]
  · rw [hinput, hfrom.rest_eq, List.append_assoc]
  · rw [hfrom.position_eq, hafter, List.length_append, Bytes.length_ofUInt16, Nat.add_assoc]

/-- **Pools and bytes.** What a pool in use is written as is read, to its end, as that pool with all
it remembers; and a pool that was read is written as the very bytes that were read, if no text among
them is standard UTF-8 with a zero or a sequence of four bytes in it. -/
theorem read_write_and_write_read (pool : Pool) (bytes : Bytes) :
    (pool.Built → pool.write = ⟨bytes, none⟩ →
      Pool.read (.ofBytes bytes) = .ok (pool, ⟨bytes.length, []⟩)) ∧
    ∀ rest, Pool.read (.ofBytes bytes) = .ok (pool, rest) →
      (∀ contents ∈ storedTexts bytes, Text.ModifiedUtf8.IsPlain contents) →
        pool.write = ⟨bytes.take rest.position, none⟩ ∧ rest.rest = bytes.drop rest.position := by
  constructor
  · intro hbuilt hwrite
    have hread := hbuilt.valid.reads hwrite 0 []
    rwa [List.append_nil, Nat.zero_add] at hread
  · intro rest hread hplain
    obtain ⟨written, hwrite, hbytes, hposition⟩ := write_of_read hread hplain
    have hsplit : bytes = written ++ rest.rest := hbytes
    have hlength : rest.position = written.length := hposition.trans (Nat.zero_add _)
    rw [hlength, hsplit, List.take_left, List.drop_left]
    exact ⟨hwrite, rfl⟩

theorem isClassName_letter : (Text.ofString "A").isClassName = true := by decide

/-- A class that is stored before its name, the name twice, and a long. -/
def classBeforeName : Bytes :=
  [0, 6, 7, 0, 2, 1, 0, 1, 65, 1, 0, 1, 65, 5, 0, 0, 0, 0, 0, 0, 0, 9]

def classBeforeNameItems : List (Entry × RawEntry) :=
  let name : Text := .ofString "A"
  [(.classRef ⟨name, isClassName_letter⟩, .classRef 2), (.utf8 name, .utf8 name),
    (.utf8 name, .utf8 name), (.long 9, .long 9)]

/-- The bytes are written back without the one behind them, and then read once more. -/
theorem read_write_classBeforeName :
    let pool := Pool.empty.addAll classBeforeNameItems
    Pool.read (.ofBytes (classBeforeName ++ [255])) = .ok (pool, ⟨22, [255]⟩) ∧
      (∀ contents ∈ storedTexts (classBeforeName ++ [255]),
        Text.ModifiedUtf8.IsPlain contents) ∧
      pool.write = ⟨classBeforeName, none⟩ ∧ pool.Built ∧
      Pool.read (.ofBytes classBeforeName) = .ok (pool, ⟨22, []⟩) := by
  intro pool
  have hread : Pool.read (.ofBytes (classBeforeName ++ [255])) = .ok (pool, ⟨22, [255]⟩) := rfl
  have hletter : Text.ModifiedUtf8.IsPlain [65] := fun _ => List.forall_mem_singleton.2 (by decide)
  have htexts : storedTexts (classBeforeName ++ [255]) = [[65], [65]] := rfl
  have hplain : ∀ contents ∈ storedTexts (classBeforeName ++ [255]),
      Text.ModifiedUtf8.IsPlain contents := by
    rw [htexts]
    exact List.forall_mem_cons.2 ⟨hletter, List.forall_mem_singleton.2 hletter⟩
  have hwrite : pool.write = ⟨classBeforeName, none⟩ :=
    ((read_write_and_write_read pool _).2 _ hread hplain).1
  exact ⟨hread, hplain, hwrite, .read hread,
    (read_write_and_write_read pool classBeforeName).1 (.read hread) hwrite⟩

end Pool

end JvmClass
