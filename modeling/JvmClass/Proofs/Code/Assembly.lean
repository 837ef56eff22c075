import JvmClass.Proofs.Code.Assembled

/-!
# Assembly

Code with all labels in place is laid out, unless it gets too long, and what is laid out stands for
the code. A loop with padding in it shows the forms that a branch can have.
-/

namespace JvmClass.Code

variable {code : Code}

/-! ### Layouts of code -/

/-- How code was assembled: the operands of its lines, the lines that are wide, their offsets, and
the last attempt to lay them out. -/
structure LaidOut (code : Code) (pool : Pool) (bytecode : CodeAttribute) (operands : List Operand)
    (wide : Std.HashSet Nat) (offsets : Nat → Nat) (layout : Layout) : Prop where
  operandsIn : List.Forall₂ (fun line operand => line.instruction.OperandIn pool operand)
    code.lines operands
  settled : Layout.Settled wide (code.lines.zip operands) code.endLabel offsets layout
  handlers : code.HandlersPlaced layout.placement
  tables : code.TablesPlaced layout
  length_pos : 0 < offsets code.lines.length
  length_le : offsets code.lines.length ≤ CodeAttribute.maxLength
  bytecode_eq : bytecode = { code.bytecodeOf layout with
    code := Layout.codeOf wide (code.lines.zip operands) code.marks offsets layout.placement.final
      code.lines.length }

theorem length_zip_operands {operands : List Operand}
    (hoperands : code.lines.length = operands.length) :
    (code.lines.zip operands).length = code.lines.length := by
  rw [List.length_zip, ← hoperands, Nat.min_self]

theorem marksOf_zip {operands : List Operand} (hoperands : code.lines.length = operands.length) :
    Layout.marksOf (code.lines.zip operands) code.endLabel = code.marks := by
  rw [Layout.marksOf, marks]
  congr 1
  rw [← List.map_fst_zip (Nat.le_of_eq hoperands), List.map_map]
  rw [List.map_fst_zip (Nat.le_of_eq hoperands)]
  rfl

theorem size_filled {operands : List Operand} {wide : Std.HashSet Nat} {offsets : Nat → Nat}
    {layout : Layout} {filled : Array UInt8} (hlength : code.lines.length = operands.length)
    (hsettled : Layout.Settled wide (code.lines.zip operands) code.endLabel offsets layout)
    (hfilled : filled.toList = Layout.codeOf wide (code.lines.zip operands) code.marks offsets
      layout.placement.final code.lines.length) :
    filled.size = offsets code.lines.length := by
  rw [← Array.length_toList, hfilled, ← marksOf_zip hlength]
  exact (hsettled.hasOffsets.filled hsettled.final_of_offsetOf?
    (Nat.le_of_eq (length_zip_operands hlength).symm)).2

/-- Code is laid out as its last attempt says. -/
theorem laidOut_of_layOut {pool : Pool} {bytecode : CodeAttribute} {operands : List Operand}
    {wide : Std.HashSet Nat} {offsets : Nat → Nat} {last : Layout} {filled : Array UInt8}
    (hoperands : List.Forall₂ (fun line operand => line.instruction.OperandIn pool operand)
      code.lines operands)
    (hlayOut : code.layOut operands = .ok bytecode)
    (hsettle : Layout.settle (code.lines.zip operands) code.endLabel ∅ =
      .ok { last with code := filled })
    (hsettled : Layout.Settled wide (code.lines.zip operands) code.endLabel offsets last)
    (hcode : filled.toList = Layout.codeOf wide (code.lines.zip operands)
      (Layout.marksOf (code.lines.zip operands) code.endLabel) offsets last.placement.final
      (code.lines.zip operands).length) :
    code.LaidOut pool bytecode operands wide offsets last := by
  obtain ⟨layout, hlayout, hempty, hsize, hhandlers, htables, rfl⟩ := layOut_eq_ok_iff.1 hlayOut
  cases hsettle.symm.trans hlayout
  have hlength := hoperands.length_eq
  have hlines := length_zip_operands hlength
  rw [hlines, marksOf_zip hlength] at hcode
  have hfilled := size_filled hlength hsettled hcode
  refine ⟨hoperands, hsettled, hhandlers,
    ⟨htables.lineNumbers, htables.localVariables, htables.frames⟩, ?_, ?_, ?_⟩
  · rw [← hfilled]
    exact Array.size_pos_iff.2 fun h => by simp [h] at hempty
  · rw [← hfilled]
    exact hsize
  · rw [← hcode]
    rfl

theorem exists_laidOut_of_layOut {pool : Pool} {bytecode : CodeAttribute} {operands : List Operand}
    (hoperands : List.Forall₂ (fun line operand => line.instruction.OperandIn pool operand)
      code.lines operands)
    (hlayOut : code.layOut operands = .ok bytecode) :
    ∃ wide offsets layout, Layout.Attempted (code.lines.zip operands) code.endLabel wide ∧
      code.LaidOut pool bytecode operands wide offsets layout := by
  obtain ⟨layout, hsettle, -⟩ := layOut_eq_ok_iff.1 hlayOut
  obtain ⟨wide, offsets, last, filled, hattempted, hsettled, hcode, rfl⟩ :=
    Layout.exists_attempted_of_settle .first hsettle
  exact ⟨wide, offsets, last, hattempted,
    laidOut_of_layOut hoperands hlayOut hsettle hsettled hcode⟩

theorem exists_attempted_of_assemble {pool final : Pool} {bytecode : CodeAttribute}
    (hassemble : code.assemble.run pool = (.ok bytecode, final)) :
    ∃ operands wide offsets layout, Layout.Attempted (code.lines.zip operands) code.endLabel wide ∧
      code.LaidOut final bytecode operands wide offsets layout := by
  obtain ⟨operands, between, hput, hlayOut⟩ := PoolM.exists_of_run_bind hassemble
  rw [PoolM.run_lift] at hlayOut
  obtain ⟨hbytecode, rfl⟩ := Prod.mk.inj hlayOut
  exact ⟨operands, exists_laidOut_of_layOut (operandsIn_of_putOperands hput) hbytecode⟩

theorem exists_laidOut_of_assemble {pool final : Pool} {bytecode : CodeAttribute}
    (hassemble : code.assemble.run pool = (.ok bytecode, final)) :
    ∃ operands wide offsets layout,
      code.LaidOut final bytecode operands wide offsets layout := by
  obtain ⟨operands, wide, offsets, layout, -, hlaid⟩ := exists_attempted_of_assemble hassemble
  exact ⟨operands, wide, offsets, layout, hlaid⟩

/-- What code needs to be laid out, apart from being short enough: labels are at one place each,
targets are lines, what tables refer to is at a place, and no variable ends before it starts. -/
structure IsPlaced (code : Code) : Prop where
  distinct : code.marks.IsDistinct
  target : ∀ label ∈ code.targets,
    ∃ place < code.lines.length, code.marks.placeOf? label = some place
  table : ∀ label ∈ code.tableReferences, some label ∈ code.marks
  range : ∀ source ∈ code.localVariables.getD [],
    (source.descriptor.isSome ∨ source.signature.isSome) ∧ ∃ first last,
      code.marks.placeOf? source.range.start = some first ∧
      code.marks.placeOf? source.range.stop = some last ∧ first ≤ last

/-- Wherever the lines come to lie, no variable ends before it starts. -/
theorem IsPlaced.range_le (hplaced : code.IsPlaced) {operands : List Operand}
    {wide : Std.HashSet Nat} {offsets : Nat → Nat} {layout : Layout}
    (hlength : code.lines.length = operands.length)
    (hsettled : Layout.Settled wide (code.lines.zip operands) code.endLabel offsets layout)
    {source : Variable} (hsource : source ∈ code.localVariables.getD []) :
    layout.placement.final source.range.start ≤ layout.placement.final source.range.stop := by
  obtain ⟨-, first, last, hfirst, hlast, hle⟩ := hplaced.range source hsource
  rw [← marksOf_zip hlength] at hfirst hlast
  rw [UInt16.le_iff_toNat_le, hsettled.toNat_final hfirst, hsettled.toNat_final hlast]
  exact hsettled.hasOffsets.offsets_le hle
    (Layout.le_of_getElem?_marksOf (Marks.getElem?_of_placeOf? hlast))

theorem IsPlaced.laidOut_of_settled (hplaced : code.IsPlaced) {pool : Pool}
    {operands : List Operand} {wide : Std.HashSet Nat} {offsets : Nat → Nat} {layout : Layout}
    (hoperands : List.Forall₂ (fun line operand => line.instruction.OperandIn pool operand)
      code.lines operands)
    (hsettled : Layout.Settled wide (code.lines.zip operands) code.endLabel offsets layout)
    (hpos : 0 < offsets code.lines.length)
    (hle : offsets code.lines.length ≤ CodeAttribute.maxLength) :
    code.LaidOut pool { code.bytecodeOf layout with
      code := Layout.codeOf wide (code.lines.zip operands) code.marks offsets layout.placement.final
        code.lines.length } operands wide offsets layout := by
  have hlength := hoperands.length_eq
  have hmem : ∀ label ∈ code.tableReferences, label ∈ layout.placement := by
    intro label hlabel
    rw [hsettled.mem_placement_iff, marksOf_zip hlength]
    exact hplaced.table label hlabel
  simp only [tableReferences, List.mem_append, or_imp, forall_and] at hmem
  obtain ⟨⟨⟨hhandlers, hlines⟩, hranges⟩, horigins⟩ := hmem
  refine ⟨hoperands, hsettled, ?_, ⟨?_, ?_, ?_⟩, hpos, hle, rfl⟩
  · intro handler hhandler
    have hlabels := fun label hlabel =>
      hhandlers label (List.mem_flatMap.2 ⟨handler, hhandler, hlabel⟩)
    exact ⟨hlabels _ (by simp), hlabels _ (by simp), hlabels _ (by simp)⟩
  · exact fun line hline => hlines line.1 (List.mem_map_of_mem hline)
  · intro source hsource
    have hlabels := fun label hlabel =>
      hranges label (List.mem_flatMap.2 ⟨source, hsource, hlabel⟩)
    exact ⟨(hplaced.range source hsource).1, ⟨hlabels _ (by simp), hlabels _ (by simp)⟩,
      hplaced.range_le hlength hsettled hsource⟩
  · intro framed hframed origin horigin
    rw [Code.framed_eq hlength hsettled.frameOffsets] at hframed
    obtain ⟨⟨index, frame⟩, hmem, rfl⟩ := List.mem_map.1 hframed
    obtain ⟨line, hline, hframe⟩ := mem_framedLines_iff.1 hmem
    refine horigins origin (List.mem_flatMap.2 ⟨line, List.mem_of_getElem? hline, ?_⟩)
    rw [hframe]
    exact horigin

theorem layOut_of_laidOut {pool : Pool} {bytecode : CodeAttribute} {operands : List Operand}
    {wide : Std.HashSet Nat} {offsets : Nat → Nat} {layout : Layout} {filled : Array UInt8}
    (hsettle : Layout.settle (code.lines.zip operands) code.endLabel ∅ =
      .ok { layout with code := filled })
    (hfilled : filled.toList = Layout.codeOf wide (code.lines.zip operands) code.marks offsets
      layout.placement.final code.lines.length)
    (hlaid : code.LaidOut pool bytecode operands wide offsets layout) :
    code.layOut operands = .ok bytecode := by
  have hsize := size_filled hlaid.operandsIn.length_eq hlaid.settled hfilled
  refine layOut_eq_ok_iff.2 ⟨_, hsettle, ?_, ?_, hlaid.handlers,
    ⟨hlaid.tables.lineNumbers, hlaid.tables.localVariables, hlaid.tables.frames⟩, ?_⟩
  · have hpos := hlaid.length_pos
    rw [← hsize] at hpos
    simpa [Array.isEmpty_iff_size_eq_zero] using Nat.ne_of_gt hpos
  · exact hsize ▸ hlaid.length_le
  · rw [hlaid.bytecode_eq, ← hfilled]
    rfl

theorem run_assemble {pool final : Pool} {operands : List Operand}
    (hput : (putOperands code.lines).run pool = (.ok operands, final)) :
    code.assemble.run pool = (code.layOut operands, final) := by
  rw [assemble, PoolM.run_bind, hput]
  simp only [PoolM.run_lift]

namespace IsPlaced

theorem targetsPlaced (hplaced : code.IsPlaced) {operands : List Operand}
    (hlength : code.lines.length = operands.length) :
    Layout.TargetsPlaced (code.lines.zip operands) code.endLabel := by
  intro line hline label hlabel
  rw [marksOf_zip hlength, length_zip_operands hlength]
  exact hplaced.target label (List.mem_flatMap.2 ⟨line.1, (List.of_mem_zip hline).1, hlabel⟩)

/-- **Layouts.** Code can be laid out with any operands in the pool, unless it gets too long. -/
theorem layOut_cases (hplaced : code.IsPlaced) {pool : Pool} {operands : List Operand}
    (hpos : 0 < code.lines.length)
    (hoperands : List.Forall₂ (fun line operand => line.instruction.OperandIn pool operand)
      code.lines operands) :
    (∃ bytecode wide offsets layout, code.layOut operands = .ok bytecode ∧
      code.LaidOut pool bytecode operands wide offsets layout) ∨
    ∃ fault, code.layOut operands = .error (.ofFault fault) ∧
      (fault = .bytecodeOverflow ∨ ∃ size, fault = .bytecodeTooLong size) ∧
      Layout.GetsTooLong (code.lines.zip operands) code.endLabel := by
  have hlength := hoperands.length_eq
  have hzip := length_zip_operands hlength
  have hmarks := marksOf_zip hlength
  cases hsettle : Layout.settle (code.lines.zip operands) code.endLabel ∅ with
  | error error =>
    obtain ⟨rfl, hlong⟩ := Layout.overflow_of_settle (hmarks ▸ hplaced.distinct)
      (hplaced.targetsPlaced hlength) .first hsettle
    refine .inr ⟨_, ?_, .inl rfl, hlong⟩
    rw [layOut, hsettle]
    rfl
  | ok settled =>
    obtain ⟨wide, offsets, layout, filled, hattempted, hsettled, hfilled, rfl⟩ :=
      Layout.exists_attempted_of_settle .first hsettle
    rw [hmarks, hzip] at hfilled
    have hend : 0 < offsets code.lines.length := by
      have hlt := hsettled.hasOffsets.offsets_lt_of_lt hsettled.final_of_offsetOf? hpos
        (Nat.le_of_eq hzip.symm)
      rwa [hsettled.hasOffsets.zero] at hlt
    by_cases hle : offsets code.lines.length ≤ CodeAttribute.maxLength
    · have hlaid := hplaced.laidOut_of_settled hoperands hsettled hend hle
      exact .inl ⟨_, wide, offsets, layout, layOut_of_laidOut hsettle hfilled hlaid, hlaid⟩
    · have hsize := size_filled hlength hsettled hfilled
      have hempty : filled.isEmpty = false := by
        rw [← hsize] at hend
        simpa [Array.isEmpty_iff_size_eq_zero] using Nat.ne_of_gt hend
      refine .inr ⟨.bytecodeTooLong filled.size, ?_, .inr ⟨_, rfl⟩, wide, offsets, hattempted,
        hsettled.hasOffsets, ?_⟩
      · rw [layOut, hsettle]
        change (if filled.isEmpty then _ else if CodeAttribute.maxLength < filled.size then _
          else _) = _
        rw [if_neg (Bool.eq_false_iff.1 hempty), if_pos (hsize ▸ Nat.not_le.1 hle)]
        rfl
      · rw [hzip]
        exact Nat.not_le.1 hle

/-- Code is laid out if there is room for each line in its longest form. -/
theorem exists_layOut (hplaced : code.IsPlaced) {pool : Pool} {operands : List Operand}
    (hpos : 0 < code.lines.length)
    (hoperands : List.Forall₂ (fun line operand => line.instruction.OperandIn pool operand)
      code.lines operands)
    (hsize : (code.lines.map fun line => line.instruction.maxSize).sum ≤ CodeAttribute.maxLength) :
    ∃ bytecode, code.layOut operands = .ok bytecode := by
  obtain ⟨bytecode, -, -, -, hlayOut, -⟩ | ⟨-, -, -, hlong⟩ :=
    hplaced.layOut_cases hpos hoperands
  · exact ⟨bytecode, hlayOut⟩
  · refine absurd hlong (Layout.not_getsTooLong ?_)
    rwa [← List.map_fst_zip (Nat.le_of_eq hoperands.length_eq), List.map_map] at hsize

theorem exists_assemble_of_pure (hplaced : code.IsPlaced) (hpos : 0 < code.lines.length)
    (hpure : ∀ line ∈ code.lines, line.instruction.putOperand = pure ⟨0, 0⟩)
    (hsize : (code.lines.map fun line => line.instruction.maxSize).sum ≤ CodeAttribute.maxLength) :
    ∃ bytecode, code.layOut (List.replicate code.lines.length ⟨0, 0⟩) = .ok bytecode ∧
      ∀ pool, code.assemble.run pool = (.ok bytecode, pool) := by
  have hput := run_putOperands_of_pure hpure
  obtain ⟨bytecode, hlayOut⟩ :=
    hplaced.exists_layOut hpos (operandsIn_of_putOperands (hput Pool.empty)) hsize
  exact ⟨bytecode, hlayOut, fun pool => by rw [run_assemble (hput pool), hlayOut]⟩

end IsPlaced

namespace LaidOut

variable {pool : Pool} {bytecode : CodeAttribute} {operands : List Operand}
  {wide : Std.HashSet Nat} {offsets : Nat → Nat} {layout : Layout}

theorem length_zip (hlaid : code.LaidOut pool bytecode operands wide offsets layout) :
    (code.lines.zip operands).length = code.lines.length :=
  length_zip_operands hlaid.operandsIn.length_eq

theorem marks_eq (hlaid : code.LaidOut pool bytecode operands wide offsets layout) :
    Layout.marksOf (code.lines.zip operands) code.endLabel = code.marks :=
  marksOf_zip hlaid.operandsIn.length_eq

theorem length_code (hlaid : code.LaidOut pool bytecode operands wide offsets layout) :
    bytecode.code.length = offsets code.lines.length := by
  rw [hlaid.bytecode_eq, ← hlaid.marks_eq, ← hlaid.length_zip]
  exact (hlaid.settled.hasOffsets.filled hlaid.settled.final_of_offsetOf? (Nat.le_refl _)).2

theorem exists_operand (hlaid : code.LaidOut pool bytecode operands wide offsets layout)
    {index : Nat} {line : CodeLine} (hline : code.lines[index]? = some line) :
    ∃ operand, (code.lines.zip operands)[index]? = some (line, operand) ∧
      line.instruction.OperandIn pool operand := by
  obtain ⟨hlt, rfl⟩ := List.getElem?_eq_some_iff.1 hline
  have hoperand : index < operands.length := hlaid.operandsIn.length_eq ▸ hlt
  refine ⟨operands[index], ?_, hlaid.operandsIn.get hlt hoperand⟩
  rw [List.getElem?_zip_eq_some]
  exact ⟨List.getElem?_eq_getElem hlt, List.getElem?_eq_getElem hoperand⟩

/-- The bytes of a line stand at its offset. -/
theorem drop_code (hlaid : code.LaidOut pool bytecode operands wide offsets layout) {index : Nat}
    {line : CodeLine} {operand : Operand}
    (hline : (code.lines.zip operands)[index]? = some (line, operand)) :
    bytecode.code.drop (offsets index) =
      (line.instruction.map layout.placement.final).bytesAt (offsets index)
        ((Layout.siteAt wide code.marks offsets index).takesWide line.instruction) operand ++
      bytecode.code.drop (offsets (index + 1)) ∧
    offsets index + ((line.instruction.map layout.placement.final).bytesAt (offsets index)
      ((Layout.siteAt wide code.marks offsets index).takesWide line.instruction) operand).length =
      offsets (index + 1) := by
  have hindex := (List.getElem?_eq_some_iff.1 hline).1
  have hdrop := hlaid.settled.hasOffsets.drop_codeOf hlaid.settled.final_of_offsetOf? hindex
  have hnext := hlaid.settled.hasOffsets.succ_eq hlaid.settled.final_of_offsetOf? hindex
  simp only [Layout.bytesOf, hline, hlaid.marks_eq, hlaid.length_zip] at hdrop hnext
  rw [hlaid.bytecode_eq]
  exact ⟨hdrop, hnext⟩

theorem offsets_lt (hlaid : code.LaidOut pool bytecode operands wide offsets layout) {index : Nat}
    (hindex : index < code.lines.length) : offsets index < offsets (index + 1) := by
  obtain ⟨operand, hline, -⟩ := hlaid.exists_operand (List.getElem?_eq_getElem hindex)
  rw [← (hlaid.drop_code hline).2]
  exact Nat.lt_add_of_pos_right (Instruction.length_bytesAt_pos _ _ _ _)

theorem offsets_lt_of_lt (hlaid : code.LaidOut pool bytecode operands wide offsets layout)
    {first second : Nat} (hlt : first < second) (hsecond : second ≤ code.lines.length) :
    offsets first < offsets second := by
  have hnext : offsets first < offsets (first + 1) := hlaid.offsets_lt (by omega)
  exact Nat.lt_of_lt_of_le hnext
    (hlaid.settled.hasOffsets.offsets_le hlt (hlaid.length_zip.symm ▸ hsecond))

theorem framed_eq (hlaid : code.LaidOut pool bytecode operands wide offsets layout) :
    code.framed layout =
      code.framedLines.map fun (index, frame) => (frame, UInt16.ofNat (offsets index)) :=
  Code.framed_eq hlaid.operandsIn.length_eq hlaid.settled.frameOffsets

/-- **Lines.** A line reads as its instruction, unless it is a branch that has become wide. -/
theorem instruction (hlaid : code.LaidOut pool bytecode operands wide offsets layout)
    {index : Nat} {line : CodeLine} (hline : code.lines[index]? = some line) :
    ReadsAt pool bytecode.code (offsets index) (line.instruction.map layout.placement.final)
      (offsets (index + 1)) ∨
    ∃ condition target, line.instruction = .branch condition target ∧
      FarBranchAt pool bytecode.code (offsets index) condition (layout.placement.final target)
        (offsets (index + 1)) := by
  have hindex : index < code.lines.length := (List.getElem?_eq_some_iff.1 hline).1
  have hstop : offsets (index + 1) < 65536 := Nat.lt_succ_of_le (Nat.le_trans
    (hlaid.settled.hasOffsets.offsets_le hindex (Nat.le_of_eq hlaid.length_zip.symm))
    hlaid.length_le)
  obtain ⟨operand, hoperand, hin⟩ := hlaid.exists_operand hline
  obtain ⟨hdrop, hnext⟩ := hlaid.drop_code hoperand
  have hreaches := hlaid.settled.reaches hoperand
  rw [hlaid.marks_eq] at hreaches
  generalize (Layout.siteAt wide code.marks offsets index).takesWide line.instruction = far
    at hdrop hnext hreaches
  by_cases hfar : line.instruction.isBranch ∧ far = true
  · obtain ⟨hbranch, rfl⟩ := hfar
    cases hinstruction : line.instruction with
    | branch condition target =>
      rw [hinstruction] at hdrop hnext
      have height : offsets (index + 1) = offsets index + 8 := hnext.symm
      rw [height] at hdrop hstop ⊢
      exact .inr ⟨condition, target, rfl, farBranchAt_of_bytes hstop hdrop⟩
    | _ =>
      rw [hinstruction] at hbranch
      cases hbranch
  · refine .inl (readsAt_of_bytes (by omega) (Instruction.operandIn_map.2 hin) hreaches ?_
      hdrop hnext (by omega))
    intro hbranch
    rw [Instruction.isBranch_map] at hbranch
    exact Bool.eq_false_iff.2 fun hwide => hfar ⟨hbranch, hwide⟩

theorem placed (hlaid : code.LaidOut pool bytecode operands wide offsets layout) {label : Label}
    (hlabel : label ∈ layout.placement) :
    code.marks.count (some label) = 1 ∧
      ∃ place, code.marks[place]? = some (some label) ∧
        (layout.placement.final label).toNat = offsets place := by
  obtain ⟨offset, hoffset⟩ :=
    Option.isSome_iff_exists.1 (Std.HashMap.mem_iff_isSome_getElem?.1 hlabel)
  obtain ⟨-, place, hplace⟩ := hlaid.settled.exists_place hoffset
  rw [← hlaid.marks_eq]
  exact ⟨Marks.count_eq_one hlaid.settled.distinct hplace, place,
    Marks.getElem?_of_placeOf? hplace, hlaid.settled.toNat_final hplace⟩

theorem target_placed (hlaid : code.LaidOut pool bytecode operands wide offsets layout)
    {label : Label} (hlabel : label ∈ code.targets) :
    label ∈ layout.placement ∧ ∃ index line, code.lines[index]? = some line ∧
      line.label = some label ∧ (layout.placement.final label).toNat = offsets index := by
  obtain ⟨line, hline, hlabel⟩ := List.mem_flatMap.1 hlabel
  obtain ⟨index, hindex⟩ := List.getElem?_of_mem hline
  obtain ⟨operand, hoperand, -⟩ := hlaid.exists_operand hindex
  obtain ⟨place, hlt, hplace⟩ := hlaid.settled.exists_place_of_target hoperand hlabel
  refine ⟨?_, place, ?_⟩
  · rw [Std.HashMap.mem_iff_isSome_getElem?, hlaid.settled.placement,
      Marks.offsetOf?_eq_some_iff.2 ⟨place, hplace, Nat.lt_succ_of_lt hlt, rfl⟩]
    rfl
  · rw [hlaid.length_zip] at hlt
    refine ⟨code.lines[place], List.getElem?_eq_getElem hlt, ?_, hlaid.settled.toNat_final hplace⟩
    have hmark := Marks.getElem?_of_placeOf? hplace
    rw [hlaid.marks_eq, marks, List.getElem?_append_left (by simpa using hlt), List.getElem?_map,
      List.getElem?_eq_getElem hlt] at hmark
    exact Option.some.inj hmark

theorem reference_placed (hlaid : code.LaidOut pool bytecode operands wide offsets layout)
    {label : Label} (hlabel : label ∈ code.references) : label ∈ layout.placement := by
  simp only [references, tableReferences, List.mem_append] at hlabel
  obtain htarget | ((hhandler | hline) | hvariable) | horigin := hlabel
  · exact (hlaid.target_placed htarget).1
  · obtain ⟨handler, hmem, hlabel⟩ := List.mem_flatMap.1 hhandler
    obtain ⟨hstart, hstop, hcatch⟩ := hlaid.handlers handler hmem
    simp only [List.mem_cons, List.not_mem_nil, or_false] at hlabel
    obtain rfl | rfl | rfl := hlabel <;> assumption
  · obtain ⟨line, hmem, rfl⟩ := List.mem_map.1 hline
    exact hlaid.tables.lineNumbers line hmem
  · obtain ⟨source, hmem, hlabel⟩ := List.mem_flatMap.1 hvariable
    obtain ⟨-, ⟨hstart, hstop⟩, -⟩ := hlaid.tables.localVariables source hmem
    simp only [List.mem_cons, List.not_mem_nil, or_false] at hlabel
    obtain rfl | rfl := hlabel <;> assumption
  · obtain ⟨line, hmem, horigin⟩ := List.mem_flatMap.1 horigin
    cases hframe : line.frame with
    | none =>
      rw [hframe] at horigin
      cases horigin
    | some frame =>
      rw [hframe] at horigin
      obtain ⟨index, hindex⟩ := List.getElem?_of_mem hmem
      have hframed : (frame, UInt16.ofNat (offsets index)) ∈ code.framed layout := by
        rw [hlaid.framed_eq]
        exact List.mem_map.2 ⟨(index, frame), mem_framedLines_iff.2 ⟨line, hindex, hframe⟩, rfl⟩
      exact hlaid.tables.frames _ hframed label horigin

theorem placed_frames (hlaid : code.LaidOut pool bytecode operands wide offsets layout) :
    StackMapFrame.placed none
      (Placement.storedFrames layout.placement.final none (code.framed layout)) =
      code.framedLines.map fun (index, frame) =>
        (offsets index, frame.map layout.placement.final) := by
  have hindex : ∀ framed ∈ code.framedLines, framed.1 < code.lines.length := by
    intro framed hframed
    obtain ⟨line, hline, -⟩ := mem_framedLines_iff.1 hframed
    exact (List.getElem?_eq_some_iff.1 hline).1
  have hoffset : ∀ framed ∈ code.framedLines,
      (UInt16.ofNat (offsets framed.1)).toNat = offsets framed.1 := by
    intro framed hframed
    have hle := hlaid.settled.start_le framed.1 (hlaid.length_zip.symm ▸ hindex framed hframed)
    exact UInt16.toNat_ofNat_of_lt' (Nat.lt_succ_of_le hle)
  have hincreasing : (code.framed layout).Pairwise fun first second => first.2 < second.2 := by
    rw [hlaid.framed_eq, List.pairwise_map]
    refine (framedLines_pairwise code).imp_of_mem fun hfirst hsecond hlt => ?_
    rw [UInt16.lt_iff_toNat_lt, hoffset _ hfirst, hoffset _ hsecond]
    exact hlaid.offsets_lt_of_lt hlt (Nat.le_of_lt (hindex _ hsecond))
  have hplaced := placed_storedFrames layout.placement.final none (fun _ hnone => by cases hnone)
    hincreasing
  rw [Option.map_none] at hplaced
  rw [hplaced, hlaid.framed_eq, List.map_map]
  refine List.map_congr_left fun framed hframed => ?_
  exact Prod.ext (hoffset framed hframed) rfl

theorem assembled (hlaid : code.LaidOut pool bytecode operands wide offsets layout) :
    code.Assembled pool bytecode offsets layout.placement.final where
  offsets_zero := hlaid.settled.hasOffsets.zero
  offsets_lt index hindex := hlaid.offsets_lt hindex
  offsets_length := hlaid.length_code.symm
  length_pos := hlaid.length_code.symm ▸ hlaid.length_pos
  length_le := hlaid.length_code.symm ▸ hlaid.length_le
  placed label hlabel := hlaid.placed (hlaid.reference_placed hlabel)
  target label hlabel := (hlaid.target_placed hlabel).2
  instruction index line hline := hlaid.instruction hline
  maxStack := by rw [hlaid.bytecode_eq]; rfl
  maxLocals := by rw [hlaid.bytecode_eq]; rfl
  exceptionTable := by rw [hlaid.bytecode_eq]; rfl
  variables_le source hsource := (hlaid.tables.localVariables source hsource).2.2
  attributes := by
    refine ⟨_, hlaid.placed_frames, ?_⟩
    rw [hlaid.bytecode_eq]
    rfl

end LaidOut

namespace Assembled

variable {pool : Pool} {bytecode : CodeAttribute} {offsets : Nat → Nat} {offsetOf : Label → UInt16}

/-- A line takes at least one byte. -/
theorem add_sub_le_offsets (hassembled : code.Assembled pool bytecode offsets offsetOf)
    {first last : Nat} (hfirst : first ≤ last) (hlast : last ≤ code.lines.length) :
    offsets first + (last - first) ≤ offsets last := by
  induction hfirst with
  | refl => simp
  | @step last hfirst ih =>
    have hbefore := ih (Nat.le_of_lt hlast)
    have hlt := hassembled.offsets_lt last hlast
    rw [Nat.succ_eq_add_one]
    omega

theorem offsets_lt_of_lt (hassembled : code.Assembled pool bytecode offsets offsetOf)
    {first second : Nat} (hlt : first < second) (hsecond : second ≤ code.lines.length) :
    offsets first < offsets second := by
  have hgap := hassembled.add_sub_le_offsets (Nat.le_of_lt hlt) hsecond
  omega

theorem offsets_inj (hassembled : code.Assembled pool bytecode offsets offsetOf)
    {first second : Nat} (hfirst : first ≤ code.lines.length) (hsecond : second ≤ code.lines.length)
    (heq : offsets first = offsets second) : first = second := by
  rcases Nat.lt_trichotomy first second with hlt | heq | hlt
  · have := hassembled.offsets_lt_of_lt hlt hsecond
    omega
  · exact heq
  · have := hassembled.offsets_lt_of_lt hlt hfirst
    omega

theorem offsets_le (hassembled : code.Assembled pool bytecode offsets offsetOf) {place : Nat}
    (hplace : place ≤ code.lines.length) : offsets place ≤ bytecode.code.length := by
  rw [← hassembled.offsets_length]
  rcases Nat.lt_or_eq_of_le hplace with hlt | rfl
  · exact Nat.le_of_lt (hassembled.offsets_lt_of_lt hlt (Nat.le_refl _))
  · exact Nat.le_refl _

theorem toNat_offset (hassembled : code.Assembled pool bytecode offsets offsetOf) {place : Nat}
    (hplace : place ≤ code.lines.length) :
    (UInt16.ofNat (offsets place)).toNat = offsets place :=
  UInt16.toNat_ofNat_of_lt' (Nat.lt_succ_of_le
    (Nat.le_trans (hassembled.offsets_le hplace) hassembled.length_le))

theorem toNat_offsetOf (hassembled : code.Assembled pool bytecode offsets offsetOf)
    (hdistinct : code.marks.IsDistinct) {label : Label} (hlabel : label ∈ code.references)
    {place : Nat} (hmark : code.marks[place]? = some (some label)) :
    (offsetOf label).toNat = offsets place := by
  obtain ⟨-, other, hother, hat⟩ := hassembled.placed label hlabel
  rw [hat, Option.some.inj ((hdistinct _ _ hother).symm.trans (hdistinct _ _ hmark))]

/-- A branch that is too far from its target is taken apart. -/
theorem farBranchAt (hassembled : code.Assembled pool bytecode offsets offsetOf) {index : Nat}
    {line : CodeLine} {condition : Condition} {target : Label}
    (hline : code.lines[index]? = some line) (hbranch : line.instruction = .branch condition target)
    (hfar : fitsShort (((offsetOf target).toNat : Int) - offsets index) = false) :
    FarBranchAt pool bytecode.code (offsets index) condition (offsetOf target)
      (offsets (index + 1)) := by
  have hindex := (List.getElem?_eq_some_iff.1 hline).1
  have hstart : offsets index < 65536 := Nat.lt_succ_of_le
    (Nat.le_trans (hassembled.offsets_le (Nat.le_of_lt hindex)) hassembled.length_le)
  obtain hreads | ⟨other, label, hother, hfarBranch⟩ := hassembled.instruction index line hline
  · rw [hbranch] at hreads
    rw [hreads.fitsShort_of_branch hstart] at hfar
    cases hfar
  · rw [hbranch] at hother
    cases hother
    exact hfarBranch

end Assembled

/-! ### A loop -/

/-- Counts a variable down to zero, and does nothing for some time after each step. -/
def countdown (padding : Nat) : Code where
  maxStack := 1
  maxLocals := 1
  lines := [
      ⟨some ⟨0⟩, some .same, .onVariable .iLoad 0⟩,
      ⟨none, none, .branch .ifEq ⟨1⟩⟩,
      ⟨none, none, .increment 0 (-1)⟩]
    ++ List.replicate padding ⟨none, none, .plain .nop⟩
    ++ [⟨none, none, .jump .goto ⟨0⟩⟩,
      ⟨some ⟨1⟩, some .same, .plain .voidReturn⟩]
  handlers := [⟨⟨0⟩, ⟨2⟩, ⟨1⟩, none⟩]
  endLabel := some ⟨2⟩
  lineNumbers := some [(⟨0⟩, 7)]
  localVariables := none
  attributes := []

section

variable {padding : Nat}

theorem length_lines_countdown : (countdown padding).lines.length = padding + 5 := by
  simp [countdown]

/-- What goes for these six lines goes for all. -/
theorem forall_lines_countdown {property : CodeLine → Prop}
    (hlines : ∀ line ∈ (countdown 1).lines, property line) :
    ∀ line ∈ (countdown padding).lines, property line := by
  intro line hline
  apply hlines
  simp only [countdown, List.mem_append, List.mem_replicate] at hline ⊢
  tauto

theorem marks_countdown : (countdown padding).marks =
    [some ⟨0⟩, none, none] ++ List.replicate padding none ++ [none, some ⟨1⟩, some ⟨2⟩] := by
  simp [marks, countdown]

theorem isDistinct_countdown : (countdown padding).marks.IsDistinct := by
  apply Marks.isDistinct_of_nodup
  simp [marks_countdown]

theorem getElem?_marks_countdown :
    (countdown padding).marks[0]? = some (some ⟨0⟩) ∧
      (countdown padding).marks[padding + 4]? = some (some ⟨1⟩) := by
  simp [marks_countdown]

theorem eq_of_mem_targets_countdown {label : Label} (hlabel : label ∈ (countdown padding).targets) :
    label = ⟨0⟩ ∨ label = ⟨1⟩ := by
  have htargets : ∀ line ∈ (countdown padding).lines, ∀ label ∈ line.instruction.targets,
      label = ⟨0⟩ ∨ label = ⟨1⟩ := forall_lines_countdown (by decide)
  obtain ⟨line, hline, hlabel⟩ := List.mem_flatMap.1 hlabel
  exact htargets line hline label hlabel

theorem origins_countdown : (countdown padding).origins = [] :=
  List.flatMap_eq_nil_iff.2 (forall_lines_countdown (by decide))

theorem tableReferences_countdown :
    (countdown padding).tableReferences = [⟨0⟩, ⟨2⟩, ⟨1⟩, ⟨0⟩] := by
  rw [tableReferences, origins_countdown]
  rfl

theorem isPlaced_countdown : (countdown padding).IsPlaced where
  distinct := isDistinct_countdown
  target label hlabel := by
    obtain ⟨hzero, hone⟩ := @getElem?_marks_countdown padding
    rw [length_lines_countdown]
    obtain rfl | rfl := eq_of_mem_targets_countdown hlabel
    · exact ⟨0, by omega, isDistinct_countdown _ _ hzero⟩
    · exact ⟨padding + 4, by omega, isDistinct_countdown _ _ hone⟩
  table := by
    rw [tableReferences_countdown, marks_countdown]
    simp
  range source hsource := by cases hsource

theorem exists_assemble_countdown (hpadding : padding ≤ 65000) :
    ∃ bytecode, ∀ pool, (countdown padding).assemble.run pool = (.ok bytecode, pool) := by
  have hpure : ∀ line ∈ (countdown padding).lines,
      line.instruction.putOperand = pure ⟨0, 0⟩ := by
    apply forall_lines_countdown
    simp only [countdown, List.replicate_one, List.cons_append, List.nil_append,
      List.forall_mem_cons]
    exact ⟨rfl, rfl, rfl, rfl, rfl, rfl, fun _ hline => by cases hline⟩
  have hsize : ((countdown padding).lines.map fun line => line.instruction.maxSize).sum =
      padding + 24 := by
    simp only [countdown, List.map_append, List.map_cons, List.map_nil, List.map_replicate,
      List.sum_append, List.sum_cons, List.sum_nil, List.sum_replicate_nat, Instruction.maxSize]
    omega
  obtain ⟨bytecode, -, hassemble⟩ := (@isPlaced_countdown padding).exists_assemble_of_pure
    (by rw [length_lines_countdown]; omega) hpure (by rw [hsize, CodeAttribute.maxLength]; omega)
  exact ⟨bytecode, hassemble⟩

/-- With much padding the branch is too far from where the loop ends. -/
theorem farBranchAt_countdown (hpadding : 32768 ≤ padding) {pool : Pool} {bytecode : CodeAttribute}
    {offsets : Nat → Nat} {offsetOf : Label → UInt16}
    (hassembled : (countdown padding).Assembled pool bytecode offsets offsetOf) :
    FarBranchAt pool bytecode.code (offsets 1) .ifEq (offsetOf ⟨1⟩) (offsets 2) := by
  have hlabel : ⟨1⟩ ∈ (countdown padding).references := by
    simp [references, tableReferences_countdown]
  have hbranch : (countdown padding).lines[1]? = some ⟨none, none, .branch .ifEq ⟨1⟩⟩ := rfl
  refine hassembled.farBranchAt hbranch rfl ?_
  have hgap : offsets 1 + (padding + 4 - 1) ≤ offsets (padding + 4) :=
    hassembled.add_sub_le_offsets (by omega) (by rw [length_lines_countdown]; omega)
  rw [hassembled.toNat_offsetOf isDistinct_countdown hlabel getElem?_marks_countdown.2,
    fitsShort_eq_false_iff]
  omega

end

/-- What the countdown without padding is assembled to. -/
def countdownBytecode : CodeAttribute where
  maxStack := 1
  maxLocals := 1
  code := [0x1a, 0x99, 0x00, 0x09, 0x84, 0x00, 0xff, 0xa7, 0xff, 0xf9, 0xb1]
  exceptionTable := [⟨0, 11, 10, none⟩]
  attributes := [
    ⟨.ofString "LineNumberTable", .lineNumberTable [⟨0, 7⟩]⟩,
    ⟨.ofString "StackMapTable", .stackMapTable [⟨0, .same⟩, ⟨9, .same⟩]⟩]

def countdownOffsets (index : Nat) : Nat :=
  [0, 1, 4, 7, 10].getD index 11

theorem fits_countdown : Layout.Fits ∅ ((countdown 0).lines.zip (List.replicate 5 ⟨0, 0⟩))
    (countdown 0).endLabel countdownOffsets := by
  have hsucc : ∀ index < 5, countdownOffsets (index + 1) = countdownOffsets index +
      (Layout.encodedAt ∅ ((countdown 0).lines.zip (List.replicate 5 ⟨0, 0⟩)) (countdown 0).marks
        countdownOffsets index).bytes.length := by
    simp only [Layout.encodedAt, Layout.siteAt, Std.HashSet.contains_empty]
    decide
  have hdistinct : (Layout.marksOf ((countdown 0).lines.zip (List.replicate 5 ⟨0, 0⟩))
      (countdown 0).endLabel).IsDistinct := @isDistinct_countdown 0
  refine ⟨⟨rfl, hsucc⟩, hdistinct, by decide, by decide, ?_⟩
  intro index line operand hline label hlabel
  rcases index with _ | _ | _ | _ | _ | index <;> cases hline
  · cases hlabel
  · obtain rfl := List.mem_singleton.1 hlabel
    exact ⟨4, by decide, rfl, fun _ _ _ => rfl⟩
  · cases hlabel
  · obtain rfl := List.mem_singleton.1 hlabel
    exact ⟨0, by decide, rfl, fun _ _ hlt => by omega⟩
  · cases hlabel

theorem codeOf_countdown {final : Label → UInt16} (hzero : final ⟨0⟩ = 0) (hone : final ⟨1⟩ = 10) :
    Layout.codeOf ∅ ((countdown 0).lines.zip (List.replicate 5 ⟨0, 0⟩)) (countdown 0).marks
      countdownOffsets final 5 = countdownBytecode.code := by
  have hbytes : ∀ index ∈ List.range 5,
      Layout.bytesOf ∅ ((countdown 0).lines.zip (List.replicate 5 ⟨0, 0⟩)) (countdown 0).marks
        countdownOffsets final index =
      countdownBytecode.code.extract (countdownOffsets index) (countdownOffsets (index + 1)) := by
    intro index hindex
    simp only [Layout.bytesOf, Layout.siteAt, Std.HashSet.contains_empty]
    rcases index with _ | _ | _ | _ | _ | index
    · rfl
    · change Instruction.bytesAt 1 _ _ (.branch .ifEq (final ⟨1⟩)) = _
      rw [hone]
      rfl
    · rfl
    · change Instruction.bytesAt 7 _ _ (.jump .goto (final ⟨0⟩)) = _
      rw [hzero]
      rfl
    · rfl
    · have := List.mem_range.1 hindex
      omega
  rw [Layout.codeOf, List.flatMap_def, List.map_congr_left hbytes]
  decide

theorem assemble_countdown (pool : Pool) :
    (countdown 0).assemble.run pool = (.ok countdownBytecode, pool) := by
  have hput : (putOperands (countdown 0).lines).run pool =
      (.ok (List.replicate 5 ⟨0, 0⟩), pool) := rfl
  obtain ⟨layout, filled, hsettle, hsettled, hfilled⟩ := fits_countdown.exists_settle
  have hlaid := isPlaced_countdown.laidOut_of_settled (operandsIn_of_putOperands hput) hsettled
    (by decide) (by decide)
  have hfinal : ∀ label place, (countdown 0).marks.placeOf? label = some place →
      layout.placement.final label = UInt16.ofNat (countdownOffsets place) :=
    fun _ _ hplace => hsettled.final_eq hplace
  have hzero := hfinal ⟨0⟩ 0 rfl
  have hone := hfinal ⟨1⟩ 4 rfl
  have htwo := hfinal ⟨2⟩ 5 rfl
  rw [run_assemble hput, layOut_of_laidOut hsettle hfilled hlaid, bytecodeOf, tablesIn,
    hlaid.framed_eq]
  generalize layout.placement.final = final at hzero hone htwo
  change (Except.ok (CodeAttribute.mk 1 1 (Layout.codeOf ∅ _ _ countdownOffsets final 5)
    [⟨final ⟨0⟩, final ⟨2⟩, final ⟨1⟩, none⟩]
    [⟨_, .lineNumberTable [⟨final ⟨0⟩, 7⟩]⟩, ⟨_, .stackMapTable [⟨0, .same⟩, ⟨9, .same⟩]⟩]), _) = _
  rw [codeOf_countdown hzero hone, hzero, hone, htwo]
  rfl

/-! ### Correct assembly -/

/-- **Correct assembly.** What code is assembled to stands for it, with its lines at some
offsets. -/
theorem exists_assembled_of_assemble {pool final : Pool} {bytecode : CodeAttribute}
    (hassemble : code.assemble.run pool = (.ok bytecode, final)) :
    ∃ offsets offsetOf, code.Assembled final bytecode offsets offsetOf := by
  obtain ⟨operands, wide, offsets, layout, hlaid⟩ := exists_laidOut_of_assemble hassemble
  exact ⟨offsets, layout.placement.final, hlaid.assembled⟩

theorem exists_assembled_countdown :
    ∃ bytecode, (countdown 40000).assemble.run Pool.empty = (.ok bytecode, Pool.empty) ∧
      ∃ offsets offsetOf, (countdown 40000).Assembled Pool.empty bytecode offsets offsetOf ∧
        FarBranchAt Pool.empty bytecode.code (offsets 1) .ifEq (offsetOf ⟨1⟩) (offsets 2) := by
  obtain ⟨bytecode, hassemble⟩ := @exists_assemble_countdown 40000 (by decide)
  obtain ⟨offsets, offsetOf, hassembled⟩ := exists_assembled_of_assemble (hassemble Pool.empty)
  exact ⟨bytecode, hassemble _, offsets, offsetOf, hassembled,
    farBranchAt_countdown (by decide) hassembled⟩

end JvmClass.Code
