import JvmClass.Proofs.Code.NamedOffsets

/-!
# Faithful disassembly

What a list of instructions has to do with the bytecode that it was disassembled from, whatever that
bytecode is. The instructions are those encoded in the bytecode, one after the other and nothing else;
an offset has a label exactly if something in the bytecode names it, and everything that names an
offset has its label instead. Bytecode that names an offset where no instruction starts is refused as
malformed.
-/

namespace JvmClass

/-! ### Faithful lists of instructions -/

/-- A list of instructions is what bytecode stands for, with its lines at the given offsets and with
`name` for the labels of offsets. -/
structure Code.Disassembled (code : Code) (pool : Pool) (bytecode : CodeAttribute)
    (offsets : Nat → Nat) (name : Int → Label) : Prop where
  offsets_zero : offsets 0 = 0
  offsets_lt : ∀ index < code.lines.length, offsets index < offsets (index + 1)
  offsets_length : offsets code.lines.length = bytecode.code.length
  instruction : ∀ index line, code.lines[index]? = some line → ∃ instruction,
    EncodedAt pool bytecode.code (offsets index) instruction (offsets (index + 1)) ∧
      line.instruction = instruction.map name
  /-- There are no other instructions in the bytecode. -/
  complete : ∀ start instruction, InstructionAt pool bytecode.code start instruction →
    ∃ index line, code.lines[index]? = some line ∧ offsets index = start ∧
      line.instruction = instruction.map name
  /-- Different offsets have different labels. -/
  name_inj : ∀ first second, bytecode.Names pool first → bytecode.Names pool second →
    name first = name second → first = second
  label : ∀ index line, code.lines[index]? = some line → ∀ label, line.label = some label ↔
    bytecode.Names pool (offsets index) ∧ name (offsets index) = label
  endLabel : ∀ label, code.endLabel = some label ↔
    bytecode.Names pool bytecode.code.length ∧ name bytecode.code.length = label
  handlers : code.handlers = bytecode.exceptionTable.map (·.labeled name)
  lineNumbers : code.lineNumbers =
    joined (bytecode.attributes.filterMap fun other => other.value.lineNumbers? name)
  localVariables : code.localVariables =
    joined (bytecode.attributes.filterMap fun other => other.value.variables? name)
  /-- There is at most one table of frames, and its frames are at the lines that start at their
  offsets: each of them, in order, and no other. -/
  frames : bytecode.frameTables.length ≤ 1 ∧
    (code.framedLines.map fun (index, frame) => (offsets index, frame)) =
      (bytecode.frameTables.flatMap (StackMapFrame.placed none)).map fun (offset, frame) =>
        (offset, frame.map fun origin => name origin.toNat)
  maxStack : code.maxStack = bytecode.maxStack
  maxLocals : code.maxLocals = bytecode.maxLocals
  attributes : code.attributes = bytecode.attributes.filter fun other => !other.value.isCodeTable

/-! ### What was read -/

namespace Code

variable {pool : Pool} {bytecode : CodeAttribute} {length : UInt16}
  {swept : List (Nat × Instruction UInt16)} {labels : OffsetLabels}

/-- The list of instructions that is made of what both passes found, where `labels` are the labels
of offsets. -/
def ofSwept (bytecode : CodeAttribute) (labels : OffsetLabels)
    (swept : List (Nat × Instruction UInt16)) : Code :=
  ofRead bytecode (bytecode.exceptionTable.map (·.labeled (nameAt labels.name)))
    (bytecode.attributes.foldl (CodeTables.noted (nameAt labels.name)) CodeTables.empty)
    ((StackMapFrame.placed none bytecode.frames).map fun frame =>
      (UInt16.ofNat frame.1, frame.2.map labels.name)) labels
    (swept.map fun entry => (UInt16.ofNat entry.1, entry.2.map labels.name))

/-- The offsets that get labels: those of targets, and those in tables. -/
def sweptOffsets (bytecode : CodeAttribute) (swept : List (Nat × Instruction UInt16)) :
    List UInt16 :=
  swept.flatMap (fun entry => entry.2.targets) ++ bytecode.tableOffsets

/-- All that both passes and the tables say, and that it fits together. -/
structure IsSwept (pool : Pool) (bytecode : CodeAttribute) (length : UInt16) (labels : OffsetLabels)
    (swept : List (Nat × Instruction UInt16)) : Prop where
  length_eq : length.toNat = bytecode.code.length
  found : Swept pool bytecode.code 0 swept
  fit : bytecode.TablesFit length
  labels_eq : labels = (OffsetLabels.empty length).addAll (sweptOffsets bytecode swept)
  places : ∀ offset ∈ sweptOffsets bytecode swept, (∃ entry ∈ swept, entry.1 = offset.toNat) ∨
    offset = length
  targets : ∀ entry ∈ swept, ∀ target ∈ entry.2.targets, target < length
  frames : ∀ frame ∈ StackMapFrame.placed none bytecode.frames, ∃ entry ∈ swept, entry.1 = frame.1

namespace IsSwept

theorem lt_size (hswept : IsSwept pool bytecode length labels swept) :
    bytecode.code.length < 65536 :=
  hswept.length_eq ▸ length.toNat_lt

theorem names_iff (hswept : IsSwept pool bytecode length labels swept) {offset : Int} :
    bytecode.Names pool offset ↔
      ∃ asked ∈ sweptOffsets bytecode swept, (asked.toNat : Int) = offset := by
  constructor
  · intro hnames
    cases hnames with
    | target hinstruction htarget =>
      obtain ⟨entry, hentry, -, rfl⟩ :=
        hswept.found.exists_of_instructionAt hswept.lt_size hinstruction
      rw [Instruction.located, Instruction.targets_map] at htarget
      obtain ⟨target, hmem, rfl⟩ := List.mem_map.1 htarget
      exact ⟨target, List.mem_append_left _ (List.mem_flatMap.2 ⟨entry, hentry, hmem⟩), rfl⟩
    | inner hoffset =>
      obtain ⟨asked, hasked, rfl⟩ := hswept.fit.mem_tableOffsets.1 (.inl hoffset)
      exact ⟨asked, List.mem_append_right _ hasked, rfl⟩
    | stop hoffset =>
      obtain ⟨asked, hasked, rfl⟩ := hswept.fit.mem_tableOffsets.1 (.inr hoffset)
      exact ⟨asked, List.mem_append_right _ hasked, rfl⟩
  · rintro ⟨asked, hasked, rfl⟩
    obtain htarget | htable := List.mem_append.1 hasked
    · obtain ⟨entry, hentry, htarget⟩ := List.mem_flatMap.1 htarget
      refine .target (hswept.found.instructionAt .zero entry hentry) ?_
      rw [Instruction.located, Instruction.targets_map]
      exact List.mem_map_of_mem htarget
    · obtain hinner | hstop := hswept.fit.mem_tableOffsets.2 ⟨asked, htable, rfl⟩
      · exact .inner hinner
      · exact .stop hstop

theorem getElem?_labels (hswept : IsSwept pool bytecode length labels swept) {offset : Nat}
    (hoffset : offset ≤ bytecode.code.length) (label : Label) :
    labels.labels[UInt16.ofNat offset]? = some label ↔
      bytecode.Names pool offset ∧ nameAt labels.name offset = label := by
  have hnat : (UInt16.ofNat offset).toNat = offset :=
    UInt16.toNat_ofNat_of_lt' (Nat.lt_of_le_of_lt hoffset hswept.lt_size)
  have hmem : UInt16.ofNat offset ∈ labels.labels ↔ bytecode.Names pool offset := by
    rw [hswept.names_iff, hswept.labels_eq, OffsetLabels.mem_addAll]
    constructor
    · rintro (hasked | hempty)
      · exact ⟨_, hasked, by rw [hnat]⟩
      · simp [OffsetLabels.empty] at hempty
    · rintro ⟨asked, hasked, heq⟩
      obtain rfl : asked.toNat = offset := Int.ofNat.inj heq
      rw [UInt16.ofNat_toNat]
      exact .inl hasked
  by_cases hnamed : UInt16.ofNat offset ∈ labels.labels
  · rw [OffsetLabels.getElem?_eq_some_name hnamed, Option.some.injEq, ← hmem,
      and_iff_right hnamed]
    rfl
  · rw [OffsetLabels.getElem?_eq_none hnamed, ← hmem]
    simp [hnamed]

theorem name_inj (hswept : IsSwept pool bytecode length labels swept) {first second : Int}
    (hfirst : bytecode.Names pool first) (hsecond : bytecode.Names pool second)
    (hname : nameAt labels.name first = nameAt labels.name second) : first = second := by
  obtain ⟨left, -, rfl⟩ := hswept.names_iff.1 hfirst
  obtain ⟨right, -, rfl⟩ := hswept.names_iff.1 hsecond
  rw [nameAt_toNat, nameAt_toNat] at hname
  have hnumbered := (OffsetLabels.isNumbered_empty length).addAll (sweptOffsets bytecode swept)
  rw [← hswept.labels_eq] at hnumbered
  rw [hnumbered.name_injective hname]

theorem getElem?_frames (hswept : IsSwept pool bytecode length labels swept) {offset : Nat}
    (hoffset : offset < 65536) (frame : Frame Label) :
    (Std.HashMap.ofList ((StackMapFrame.placed none bytecode.frames).map fun placed =>
      (UInt16.ofNat placed.1, placed.2.map labels.name)))[UInt16.ofNat offset]? = some frame ↔
      ∃ stored, (offset, stored) ∈ StackMapFrame.placed none bytecode.frames ∧
        stored.map labels.name = frame := by
  have hnat : ∀ {n : Nat}, n < 65536 → (UInt16.ofNat n).toNat = n := UInt16.toNat_ofNat_of_lt'
  have hdistinct : ((StackMapFrame.placed none bytecode.frames).map fun placed =>
      (UInt16.ofNat placed.1, placed.2.map labels.name)).Pairwise fun first second =>
        (first.1 == second.1) = false := by
    rw [List.pairwise_map]
    refine (StackMapFrame.placed_pairwise none bytecode.frames).imp_of_mem ?_
    intro first second hfirst hsecond hlt
    refine beq_eq_false_iff_ne.2 fun heq => Nat.ne_of_lt hlt ?_
    have := congrArg UInt16.toNat heq
    rwa [hnat (hswept.fit.frames first hfirst).1, hnat (hswept.fit.frames second hsecond).1] at this
  have hfound : ∀ {stored : Frame UInt16},
      (offset, stored) ∈ StackMapFrame.placed none bytecode.frames →
      (Std.HashMap.ofList ((StackMapFrame.placed none bytecode.frames).map fun placed =>
        (UInt16.ofNat placed.1, placed.2.map labels.name)))[UInt16.ofNat offset]? =
          some (stored.map labels.name) := by
    intro stored hstored
    exact Std.HashMap.getElem?_ofList_of_mem (beq_self_eq_true _) hdistinct
      (List.mem_map.2 ⟨_, hstored, rfl⟩)
  constructor
  · intro hframe
    by_cases hplaced : ∃ stored, (offset, stored) ∈ StackMapFrame.placed none bytecode.frames
    · obtain ⟨stored, hstored⟩ := hplaced
      rw [hfound hstored] at hframe
      exact ⟨stored, hstored, Option.some.inj hframe⟩
    · rw [Std.HashMap.getElem?_ofList_of_contains_eq_false] at hframe
      · cases hframe
      · rw [List.map_map, List.contains_eq_mem, decide_eq_false_iff_not]
        intro hmem
        obtain ⟨⟨other, stored⟩, hstored, heq⟩ := List.mem_map.1 hmem
        have hother := congrArg UInt16.toNat heq
        rw [Function.comp_apply, hnat (hswept.fit.frames _ hstored).1, hnat hoffset] at hother
        exact hplaced ⟨stored, hother ▸ hstored⟩
  · rintro ⟨stored, hstored, rfl⟩
    exact hfound hstored

/-- A line is made of the instruction that was found, with the label and the frame at its offset. -/
theorem lines_eq : (ofSwept bytecode labels swept).lines = swept.map fun entry =>
    ⟨labels.labels[UInt16.ofNat entry.1]?,
      (Std.HashMap.ofList ((StackMapFrame.placed none bytecode.frames).map fun placed =>
        (UInt16.ofNat placed.1, placed.2.map labels.name)))[UInt16.ofNat entry.1]?,
      entry.2.map labels.name⟩ := by
  rw [ofSwept, ofRead, List.map_map]
  rfl

theorem located_map (instruction : Instruction UInt16) :
    instruction.located.map (nameAt labels.name) = instruction.map labels.name := by
  rw [Instruction.located, Instruction.map_map]
  simp

/-- **Frames.** Frames stand with the instructions at their offsets, in order. -/
theorem framedLines_eq (hswept : IsSwept pool bytecode length labels swept) :
    ((ofSwept bytecode labels swept).framedLines.map fun (index, frame) =>
      (offsetsOf bytecode.code.length swept index, frame)) =
      (StackMapFrame.placed none bytecode.frames).map fun (offset, frame) =>
        (offset, frame.map fun origin => nameAt labels.name origin.toNat) := by
  have hlines : ∀ {framed : Nat × Frame Label},
      framed ∈ (ofSwept bytecode labels swept).framedLines ↔
      ∃ entry, swept[framed.1]? = some entry ∧ ∃ stored,
        (entry.1, stored) ∈ StackMapFrame.placed none bytecode.frames ∧
          stored.map labels.name = framed.2 := by
    intro framed
    rw [mem_framedLines_iff, lines_eq]
    simp only [List.getElem?_map, Option.map_eq_some_iff]
    constructor
    · rintro ⟨_, ⟨entry, hentry, rfl⟩, hframe⟩
      have hbounds := hswept.found.bounds entry (List.mem_of_getElem? hentry)
      exact ⟨entry, hentry, (hswept.getElem?_frames
        (Nat.lt_trans hbounds.2 hswept.lt_size) framed.2).1 hframe⟩
    · rintro ⟨entry, hentry, hstored⟩
      have hbounds := hswept.found.bounds entry (List.mem_of_getElem? hentry)
      exact ⟨_, ⟨entry, hentry, rfl⟩, (hswept.getElem?_frames
        (Nat.lt_trans hbounds.2 hswept.lt_size) framed.2).2 hstored⟩
  refine eq_of_pairwise_lt ?_ ?_ ?_
  · rw [List.pairwise_map]
    refine (framedLines_pairwise _).imp_of_mem ?_
    intro first second hfirst hsecond hlt
    obtain ⟨left, hleft, -⟩ := hlines.1 hfirst
    obtain ⟨right, hright, -⟩ := hlines.1 hsecond
    dsimp only
    rw [offsetsOf_of_getElem? hleft, offsetsOf_of_getElem? hright]
    obtain ⟨hfirstLt, rfl⟩ := List.getElem?_eq_some_iff.1 hleft
    obtain ⟨hsecondLt, rfl⟩ := List.getElem?_eq_some_iff.1 hright
    exact List.pairwise_iff_getElem.1 hswept.found.pairwise_lt _ _ hfirstLt hsecondLt hlt
  · rw [List.pairwise_map]
    exact StackMapFrame.placed_pairwise none bytecode.frames
  · rintro ⟨offset, frame⟩
    simp only [List.mem_map, Prod.mk.injEq, Prod.exists, nameAt_toNat]
    constructor
    · rintro ⟨index, _, hframed, rfl, rfl⟩
      obtain ⟨entry, hentry, stored, hstored, hframe⟩ := hlines.1 hframed
      rw [offsetsOf_of_getElem? hentry]
      exact ⟨entry.1, stored, hstored, rfl, hframe⟩
    · rintro ⟨_, stored, hstored, rfl, rfl⟩
      obtain ⟨entry, hmem, hoffset⟩ := hswept.frames _ hstored
      obtain ⟨index, hentry⟩ := List.getElem?_of_mem hmem
      refine ⟨index, _, hlines.2 ⟨entry, hentry, stored, ?_, rfl⟩, ?_, rfl⟩
      · rwa [hoffset]
      · rw [offsetsOf_of_getElem? hentry, hoffset]

/-- **Fidelity.** What was found is what the bytecode stands for. -/
theorem disassembled (hswept : IsSwept pool bytecode length labels swept) :
    (ofSwept bytecode labels swept).Disassembled pool bytecode
      (offsetsOf bytecode.code.length swept) (nameAt labels.name) := by
  have hlength : (ofSwept bytecode labels swept).lines.length = swept.length := by
    rw [lines_eq, List.length_map]
  have hline : ∀ {index : Nat} {line : CodeLine},
      (ofSwept bytecode labels swept).lines[index]? = some line →
      ∃ entry, swept[index]? = some entry ∧ line.label = labels.labels[UInt16.ofNat entry.1]? ∧
        line.instruction = entry.2.located.map (nameAt labels.name) := by
    intro index line hline
    rw [lines_eq, List.getElem?_map] at hline
    obtain ⟨entry, hentry, rfl⟩ := Option.map_eq_some_iff.1 hline
    exact ⟨entry, hentry, rfl, (located_map entry.2).symm⟩
  have htables := CodeTables.foldl_noted (nameAt labels.name) bytecode.attributes CodeTables.empty
  exact {
    offsets_zero := hswept.found.offsetsOf_zero
    offsets_lt := by
      intro index hindex
      exact hswept.found.offsetsOf_lt (hlength ▸ hindex)
    offsets_length := by
      rw [hlength]
      exact offsetsOf_length _ _
    instruction := by
      intro index line hcodeLine
      obtain ⟨entry, hentry, -, hinstruction⟩ := hline hcodeLine
      refine ⟨entry.2.located, ?_, hinstruction⟩
      rw [offsetsOf_of_getElem? hentry]
      exact (hswept.found.encodedAt hentry).2
    complete := by
      intro start instruction hinstruction
      obtain ⟨entry, hmem, rfl, rfl⟩ :=
        hswept.found.exists_of_instructionAt hswept.lt_size hinstruction
      obtain ⟨index, hentry⟩ := List.getElem?_of_mem hmem
      have hcodeLine := List.getElem?_eq_getElem
        (hlength.symm ▸ (List.getElem?_eq_some_iff.1 hentry).1 :
          index < (ofSwept bytecode labels swept).lines.length)
      obtain ⟨found, hfound, -, hinstruction⟩ := hline hcodeLine
      rw [hentry] at hfound
      cases hfound
      exact ⟨index, _, hcodeLine, offsetsOf_of_getElem? hentry, hinstruction⟩
    name_inj := fun first second => hswept.name_inj
    label := by
      intro index line hcodeLine label
      obtain ⟨entry, hentry, hlabel, -⟩ := hline hcodeLine
      have hbounds := hswept.found.bounds entry (List.mem_of_getElem? hentry)
      rw [hlabel, offsetsOf_of_getElem? hentry]
      exact hswept.getElem?_labels (Nat.le_of_lt hbounds.2) label
    endLabel := fun label => hswept.getElem?_labels (Nat.le_refl _) label
    handlers := rfl
    lineNumbers := by
      rw [ofSwept, ofRead, htables]
      exact CodeTables.withParts_none _
    localVariables := by
      rw [ofSwept, ofRead, htables]
      exact CodeTables.withParts_none _
    frames := by
      rw [hswept.fit.flatMap_placed]
      exact ⟨hswept.fit.oneTable, hswept.framedLines_eq⟩
    maxStack := rfl
    maxLocals := rfl
    attributes := by
      rw [ofSwept, ofRead, htables]
      simp [CodeTables.empty] }

/-- **Places.** An instruction starts wherever one has to. -/
theorem exists_of_needs (hswept : IsSwept pool bytecode length labels swept) {offset : Int}
    (hneeds : bytecode.Needs pool offset) :
    ∃ start instruction, InstructionAt pool bytecode.code start instruction ∧
      (start : Int) = offset := by
  have hfound : ∀ {offset : Nat}, (∃ entry ∈ swept, entry.1 = offset) → ∃ start instruction,
      InstructionAt pool bytecode.code start instruction ∧ (start : Int) = offset := by
    rintro offset ⟨entry, hentry, rfl⟩
    exact ⟨entry.1, entry.2.located, hswept.found.instructionAt .zero entry hentry, rfl⟩
  have hasked : ∀ {asked : UInt16}, asked ∈ sweptOffsets bytecode swept →
      asked.toNat ≠ bytecode.code.length → ∃ entry ∈ swept, entry.1 = asked.toNat := by
    intro asked hasked hne
    obtain hplace | rfl := hswept.places asked hasked
    · exact hplace
    · exact absurd hswept.length_eq hne
  cases hneeds with
  | target hinstruction htarget =>
    obtain ⟨entry, hentry, -, rfl⟩ :=
      hswept.found.exists_of_instructionAt hswept.lt_size hinstruction
    rw [Instruction.located, Instruction.targets_map] at htarget
    obtain ⟨target, hmem, rfl⟩ := List.mem_map.1 htarget
    have hlt := UInt16.lt_iff_toNat_lt.1 (hswept.targets entry hentry target hmem)
    rw [hswept.length_eq] at hlt
    exact hfound (hasked (List.mem_append_left _ (List.mem_flatMap.2 ⟨entry, hentry, hmem⟩))
      (Nat.ne_of_lt hlt))
  | inner hoffset =>
    have hlt := hswept.fit.inner_lt hoffset
    rw [hswept.length_eq] at hlt
    obtain ⟨asked, hmem, rfl⟩ := hswept.fit.mem_tableOffsets.1 (.inl hoffset)
    exact hfound (hasked (List.mem_append_right _ hmem) (Nat.ne_of_lt hlt))
  | stop hoffset hinner =>
    obtain ⟨asked, hmem, rfl⟩ := hswept.fit.mem_tableOffsets.1 (.inr hoffset)
    exact hfound (hasked (List.mem_append_right _ hmem) hinner)
  | frame hframes hframe =>
    obtain htables | htables := CodeAttribute.frameTables_eq hswept.fit.oneTable
    · rw [htables] at hframes
      cases hframes
    · rw [htables] at hframes
      obtain rfl := List.mem_singleton.1 hframes
      exact hfound (hswept.frames _ hframe)

end IsSwept

theorem forall_of_firstMisplaced {starts : Std.HashSet UInt16} {offsets : List UInt16}
    (hnone : firstMisplaced starts offsets = none) : ∀ offset ∈ offsets, offset ∈ starts := by
  rw [firstMisplaced, List.min?_eq_none_iff, List.filter_eq_nil_iff] at hnone
  intro offset hoffset
  rw [Std.HashSet.mem_iff_contains]
  simpa using hnone offset hoffset

theorem forall_of_checkPlaces {starts : Std.HashSet UInt16} {labeled framed : List UInt16}
    (hplaces : checkPlaces length starts labeled framed = .ok ()) :
    (∀ offset ∈ labeled, offset ∈ starts ∨ offset = length) ∧ ∀ offset ∈ framed, offset ∈ starts := by
  unfold checkPlaces at hplaces
  cases hlabeled : firstMisplaced (starts.insert length) labeled with
  | some offset =>
    rw [hlabeled] at hplaces
    cases hplaces
  | none =>
    cases hframed : firstMisplaced starts framed with
    | some offset =>
      rw [hlabeled, hframed] at hplaces
      cases hplaces
    | none =>
      refine ⟨fun offset hoffset => ?_, forall_of_firstMisplaced hframed⟩
      have hmem := forall_of_firstMisplaced hlabeled offset hoffset
      rw [Std.HashSet.mem_insert, beq_iff_eq] at hmem
      exact hmem.symm.imp id Eq.symm

theorem size_lt (hlength : (bytecode.code.isEmpty ||
      CodeAttribute.maxLength < bytecode.code.length) = false) :
    bytecode.code.length < 65536 := by
  have hle := decide_eq_false_iff_not.1 (Bool.or_eq_false_iff.1 hlength).2
  exact Nat.lt_succ_of_le (Nat.le_of_not_lt hle)

theorem targets_labeled {outline : Outline} (asked : List UInt16) :
    ∀ entry ∈ outline, ∀ target ∈ entry.2, target ∈
      (((OffsetLabels.empty length).addAll outline.targets).addAll asked).labels := by
  intro entry hentry target htarget
  rw [OffsetLabels.mem_addAll, OffsetLabels.mem_addAll]
  exact .inr (.inl (List.mem_flatMap.2 ⟨entry, hentry, htarget⟩))

/-- Disassembling that goes well finds instructions and tables that fit together. -/
theorem exists_isSwept_of_disassemble {code : Code}
    (hdisassemble : disassemble pool bytecode = .ok code) :
    ∃ length labels swept, IsSwept pool bytecode length labels swept ∧
      code = ofSwept bytecode labels swept := by
  obtain ⟨hlength, outline, houtline, handlers, tables, frames, labels, htables, hplaces,
    instructions, hsweep, rfl⟩ := disassemble_eq_ok_iff.1 hdisassemble
  have hsize := size_lt hlength
  have hnat : (UInt16.ofNat bytecode.code.length).toNat = bytecode.code.length :=
    UInt16.toNat_ofNat_of_lt' hsize
  obtain ⟨hfit, hfound⟩ := ((Labeling.Asks.allTables bytecode _).run _
    (OffsetLabels.length_addAll _) _).1 htables
  cases hfound
  obtain ⟨swept, hswept, houtlined, rfl⟩ := (sweepFrom_readLabeled hsize (Nat.zero_le _)
    (Nat.le_add_left ..) houtline (targets_labeled _) []).2 _ hsweep
  rw [List.reverse_nil, List.nil_append] at houtlined
  subst houtlined
  have hasked : Outline.targets (swept.map fun entry => (UInt16.ofNat entry.1, entry.2.targets)) =
      swept.flatMap fun entry => entry.2.targets := by
    rw [Outline.targets, List.flatMap_map]
  rw [hasked, ← OffsetLabels.addAll_append] at hplaces ⊢
  obtain ⟨hlabeled, hframed⟩ := forall_of_checkPlaces hplaces
  have hstart : ∀ offset : UInt16, offset ∈ Std.HashSet.ofList ((swept.map fun entry =>
      (UInt16.ofNat entry.1, entry.2.targets)).map Prod.fst) →
      ∃ entry ∈ swept, entry.1 = offset.toNat := by
    intro offset hoffset
    rw [Std.HashSet.mem_ofList, List.contains_eq_mem, decide_eq_true_iff,
      List.map_map] at hoffset
    obtain ⟨entry, hentry, rfl⟩ := List.mem_map.1 hoffset
    refine ⟨entry, hentry, (UInt16.toNat_ofNat_of_lt' ?_).symm⟩
    exact Nat.lt_trans (hswept.bounds entry hentry).2 hsize
  refine ⟨_, _, swept, ⟨hnat, hswept, hfit, rfl, ?_, ?_, ?_⟩, rfl⟩
  · intro offset hoffset
    have hmem : offset ∈ ((OffsetLabels.empty (UInt16.ofNat bytecode.code.length)).addAll
        (sweptOffsets bytecode swept)).offsets := by
      rw [((OffsetLabels.isNumbered_empty _).addAll _).mem_iff, OffsetLabels.mem_addAll]
      exact .inl hoffset
    exact (hlabeled offset hmem).imp (hstart offset) id
  · intro entry hentry
    refine forall_of_sweepFrom (Outline.ensures_readInstruction _) houtline (by simp)
      (UInt16.ofNat entry.1, entry.2.targets) ?_
    exact List.mem_map.2 ⟨entry, hentry, rfl⟩
  · intro frame hframe
    obtain ⟨entry, hentry, hoffset⟩ := hstart (UInt16.ofNat frame.1)
      (hframed _ (List.mem_map.2 ⟨_, List.mem_map_of_mem hframe, rfl⟩))
    rw [UInt16.toNat_ofNat_of_lt' (hfit.frames frame hframe).1] at hoffset
    exact ⟨entry, hentry, hoffset⟩

/-- **Refusals.** Bytecode that cannot be disassembled is malformed. -/
instance (pool : Pool) (bytecode : CodeAttribute) :
    Result.BlamesInput (disassemble pool bytecode) := by
  unfold disassemble
  cases hlength : bytecode.code.isEmpty || CodeAttribute.maxLength < bytecode.code.length with
  | true => exact .error rfl
  | false =>
    have hsize := size_lt hlength
    refine .bind inferInstance fun outline houtline => .bind inferInstance fun found htables => ?_
    obtain ⟨⟨handlers, tables, frames⟩, labels⟩ := found
    obtain ⟨-, hfound⟩ := ((Labeling.Asks.allTables bytecode _).run _
      (OffsetLabels.length_addAll _) _).1 htables
    cases hfound
    refine .bind inferInstance fun _ _ => .bind ?_ fun _ _ => ?_
    swap
    · exact inferInstanceAs (Result.BlamesInput (.ok _))
    exact (sweepFrom_readLabeled hsize (Nat.zero_le _) (Nat.le_add_left ..) houtline
      (targets_labeled _) []).1

/-- **Fidelity.** What bytecode is disassembled to is what it stands for, and bytecode that names a
place where no instruction starts is malformed. -/
theorem disassembled_or_malformed (pool : Pool) (bytecode : CodeAttribute) :
    (∀ code, disassemble pool bytecode = .ok code →
      ∃ offsets name, code.Disassembled pool bytecode offsets name) ∧
    ((∃ offset, bytecode.Needs pool offset ∧ ∀ start instruction,
        InstructionAt pool bytecode.code start instruction → (start : Int) ≠ offset) →
      ∃ error, disassemble pool bytecode = .error error ∧ error.kind = .format) := by
  constructor
  · intro code hdisassemble
    obtain ⟨length, labels, swept, hswept, rfl⟩ := exists_isSwept_of_disassemble hdisassemble
    exact ⟨_, _, hswept.disassembled⟩
  · rintro ⟨offset, hneeds, hnone⟩
    cases hdisassemble : disassemble pool bytecode with
    | error error => exact ⟨error, rfl, Result.BlamesInput.kind_eq error hdisassemble⟩
    | ok code =>
      obtain ⟨length, labels, swept, hswept, -⟩ := exists_isSwept_of_disassemble hdisassemble
      obtain ⟨start, instruction, hinstruction, hstart⟩ := hswept.exists_of_needs hneeds
      exact absurd hstart (hnone start instruction hinstruction)

/-- A jump to the middle of itself. -/
def jumpIntoItself : CodeAttribute where
  maxStack := 0
  maxLocals := 0
  code := [0xa7, 0x00, 0x01]
  exceptionTable := []
  attributes := []

theorem reached_jumpIntoItself {start : Nat}
    (hreached : Reached Pool.empty jumpIntoItself.code start) : start = 0 ∨ start = 3 := by
  induction hreached with
  | zero => exact .inl rfl
  | next _ hencoded ih =>
    obtain rfl | rfl := ih
    · have hreads : ReadsAt Pool.empty jumpIntoItself.code 0 (.jump .goto 1) 3 :=
        @readsAt_of_bytes _ _ 0 3 false ⟨0, 0⟩ (.jump .goto 1) (by decide) trivial
          (fun _ => by decide) (fun _ => rfl) rfl rfl (by decide)
      exact .inr (hencoded.eq_of_readsAt hreads (by decide)).2
    · exact absurd (Nat.lt_of_lt_of_le hencoded.lt hencoded.le) (by decide)

theorem needs_jumpIntoItself : jumpIntoItself.Needs Pool.empty 1 := by
  have hencoded : EncodedAt Pool.empty jumpIntoItself.code 0 (.jump .goto 1) 3 :=
    ⟨by decide, by decide, .jump .goto 1⟩
  exact .target ⟨.zero, 3, hencoded⟩ (List.mem_singleton.2 rfl)

/-- The code that counts down can be read, and a jump into itself cannot. -/
theorem disassembled_countdown_and_malformed_jumpIntoItself :
    (∃ code, disassemble Pool.empty countdownBytecode = .ok code ∧
      ∃ offsets name, code.Disassembled Pool.empty countdownBytecode offsets name) ∧
    ∃ error, disassemble Pool.empty jumpIntoItself = .error error ∧ error.kind = .format := by
  constructor
  · obtain ⟨code, hdisassemble⟩ := exists_disassemble_countdown (assemble_countdown Pool.empty)
    exact ⟨code, hdisassemble, (disassembled_or_malformed _ _).1 _ hdisassemble⟩
  · refine (disassembled_or_malformed _ _).2 ⟨1, needs_jumpIntoItself, ?_⟩
    rintro start instruction ⟨hreached, -⟩ hstart
    obtain rfl | rfl := reached_jumpIntoItself hreached <;> cases hstart

end Code

end JvmClass
