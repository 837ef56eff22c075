import JvmClass.Proofs.Code.Splitting

/-!
# Assembling what was disassembled

Code that was assembled and disassembled is assembled to the same bytecode again: its instructions
need the constants that they needed before and are laid out where they were, and its tables refer to
the offsets that their labels were made of.
-/

namespace JvmClass

/-! ### Operands -/

/-- The constants of lines are added one after the other, and all are there in a later pool. -/
theorem forall₂_of_putOperandsOf {index : Nat} {lines : List CodeLine} {operands : List Operand}
    {pool final later : Pool}
    (hrun : (putOperandsOf index lines).run pool = (.ok operands, final))
    (hlater : final.Extends later) :
    List.Forall₂ (fun line operand => line.instruction.putOperand.run later = (.ok operand, later))
      lines operands := by
  induction lines generalizing index pool operands with
  | nil =>
    cases hrun
    exact .nil
  | cons line lines ih =>
    obtain ⟨operand, between, hput, hrun⟩ := PoolM.exists_of_run_bind hrun
    obtain ⟨others, last, hothers, hrun⟩ := PoolM.exists_of_run_bind hrun
    cases hrun
    refine .cons ?_ (ih hothers)
    exact PoolM.Lawful.replays (PoolM.run_of_run_during hput)
      ((PoolM.extends_of_run hothers).trans hlater)

theorem run_putOperandsOf {pool : Pool} {lines : List CodeLine} {operands : List Operand}
    (hoperands : List.Forall₂ (fun line operand =>
      line.instruction.putOperand.run pool = (.ok operand, pool)) lines operands) (index : Nat) :
    (putOperandsOf index lines).run pool = (.ok operands, pool) := by
  induction hoperands generalizing index with
  | nil => rfl
  | @cons line operand lines operands hput _ ih =>
    have hfirst : (PoolM.during (.instruction index) line.instruction.putOperand).run pool =
        (.ok operand, pool) := by
      rw [PoolM.run_during, hput]
      rfl
    rw [putOperandsOf, PoolM.run_bind, hfirst]
    dsimp only
    rw [PoolM.run_bind, ih]
    rfl

namespace Code.ReadBack

variable {code : Code} {pool : Pool} {bytecode : CodeAttribute} {operands : List Operand}
  {wide : Std.HashSet Nat} {offsets : Nat → Nat} {layout : Layout} {length : UInt16}
  {labels : OffsetLabels} {pieces : List Piece}

/-- The pieces of a line need the constant that the line needs. -/
theorem run_putOperand
    (hback : code.ReadBack pool bytecode operands wide offsets layout length labels pieces)
    (hoperands : List.Forall₂ (fun line operand =>
      line.instruction.putOperand.run pool = (.ok operand, pool)) code.lines operands)
    {piece : Piece} (hpiece : piece ∈ pieces) :
    piece.instruction.putOperand.run pool = (.ok piece.operand, pool) := by
  obtain ⟨hlaid, rfl, -⟩ := hback
  obtain ⟨index, hindex⟩ := List.getElem?_of_mem hpiece
  obtain ⟨place, line, operand, hline, hpiece⟩ := hlaid.exists_isPieceOf hindex
  have hput : line.instruction.putOperand.run pool = (.ok operand, pool) := by
    exact List.forall₂_zip hoperands (List.mem_of_getElem? hline)
  cases hpiece with
  | whole =>
    rw [Instruction.putOperand_map]
    exact hput
  | skip hinstruction =>
    rw [hinstruction] at hput
    exact hput
  | far hinstruction =>
    rw [hinstruction] at hput
    exact hput

theorem run_putOperands
    (hback : code.ReadBack pool bytecode operands wide offsets layout length labels pieces)
    (hoperands : List.Forall₂ (fun line operand =>
      line.instruction.putOperand.run pool = (.ok operand, pool)) code.lines operands) :
    (putOperands (ofPieces bytecode labels pieces).lines).run pool =
      (.ok (pieces.map Piece.operand), pool) := by
  rw [putOperands_eq]
  refine run_putOperandsOf ?_ 0
  rw [IsSwept.lines_eq, List.map_map, List.forall₂_map_left_iff, List.forall₂_map_right_iff,
    List.forall₂_same]
  intro piece hpiece
  have hput := hback.run_putOperand hoperands hpiece
  rwa [← Instruction.putOperand_map labels.name] at hput

end Code.ReadBack

/-! ### Tables -/

theorem VerificationType.map_id {τ : Type} (type : VerificationType τ) :
    type.map (fun origin => origin) = type := by
  cases type <;> rfl

theorem Frame.map_eq_self {τ : Type} {f : τ → τ} {frame : Frame τ}
    (hf : ∀ origin ∈ frame.origins, f origin = origin) : frame.map f = frame := by
  rw [Frame.map_congr hf]
  cases frame with
  | same | chop => rfl
  | sameWithStack stack => exact congrArg sameWithStack stack.map_id
  | append added => simp [funext VerificationType.map_id]
  | full locals stack => simp [funext VerificationType.map_id]

namespace LocalVariable

def labeled (name : Int → Label) (row : LocalVariable) (descriptor signature : Option Text) :
    Variable :=
  ⟨⟨name row.startOffset.toNat, name (row.startOffset.toNat + row.length.toNat)⟩, row.name,
    descriptor, signature, row.index⟩

def labeledRows (name : Int → Label) (described signed : List LocalVariable) : List Variable :=
  described.map (fun row => row.labeled name (some row.descriptor) none) ++
    signed.map fun row => row.labeled name none (some row.descriptor)

/-- The tables of rows by descriptor and rows by signature. There is always one, and no other that is
empty. -/
def tables : List LocalVariable → List LocalVariable → List Attribute
  | described, [] => [⟨.ofString "LocalVariableTable", .localVariableTable described⟩]
  | [], signed => [⟨.ofString "LocalVariableTypeTable", .localVariableTypeTable signed⟩]
  | described, signed => [⟨.ofString "LocalVariableTable", .localVariableTable described⟩,
      ⟨.ofString "LocalVariableTypeTable", .localVariableTypeTable signed⟩]

theorem joined_variables (name : Int → Label) (described signed : List LocalVariable) :
    joined ((tables described signed).filterMap fun table => table.value.variables? name) =
      some (labeledRows name described signed) := by
  cases signed with
  | nil => simp [tables, joined, AttributeValue.variables?, labeledRows, labeled]
  | cons second signed =>
    cases described with
    | nil => simp [tables, joined, AttributeValue.variables?, labeledRows, labeled]
    | cons first described => simp [tables, joined, AttributeValue.variables?, labeledRows, labeled]

theorem exists_of_mem_rows {described signed : List LocalVariable} {row : LocalVariable}
    (hrow : row ∈ described ++ signed) :
    ∃ table ∈ tables described signed, row ∈ table.value.variableRows?.getD [] := by
  cases signed with
  | nil =>
    rw [List.append_nil] at hrow
    exact ⟨_, List.mem_singleton_self _, hrow⟩
  | cons second signed =>
    cases described with
    | nil => exact ⟨_, List.mem_singleton_self _, hrow⟩
    | cons first described =>
      obtain hrow | hrow := List.mem_append.1 hrow
      · exact ⟨_, List.mem_cons_self, hrow⟩
      · exact ⟨_, List.mem_cons_of_mem _ (List.mem_singleton_self _), hrow⟩

end LocalVariable

namespace Code

variable {code : Code} {final : Label → UInt16}

theorem lineNumberTables_cases (code : Code) (final : Label → UInt16) :
    code.lineNumberTables final = [] ∨
      ∃ rows, code.lineNumberTables final =
        [⟨.ofString "LineNumberTable", .lineNumberTable rows⟩] := by
  unfold lineNumberTables
  cases code.lineNumbers with
  | none => exact .inl rfl
  | some lines => exact .inr ⟨_, rfl⟩

theorem variableTables_cases (code : Code) (final : Label → UInt16) :
    code.variableTables final = [] ∨
      ∃ described signed, code.variableTables final = LocalVariable.tables described signed := by
  unfold variableTables
  cases code.localVariables with
  | none => exact .inl rfl
  | some sources => exact .inr ⟨_, _, rfl⟩

section

variable {β : Type} {f : AttributeValue → Option β}

theorem filterMap_lineNumberTables (hf : ∀ rows, f (.lineNumberTable rows) = none) :
    (code.lineNumberTables final).filterMap (fun table => f table.value) = [] := by
  obtain hnone | ⟨rows, hrows⟩ := code.lineNumberTables_cases final
  · rw [hnone, List.filterMap_nil]
  · rw [hrows]
    exact List.filterMap_eq_nil_iff.2 (List.forall_mem_singleton.2 (hf rows))

theorem filterMap_variableTables (hdescribed : ∀ rows, f (.localVariableTable rows) = none)
    (hsigned : ∀ rows, f (.localVariableTypeTable rows) = none) :
    (code.variableTables final).filterMap (fun table => f table.value) = [] := by
  obtain hnone | ⟨described, signed, hrows⟩ := code.variableTables_cases final
  · rw [hnone, List.filterMap_nil]
  · rw [hrows]
    cases signed with
    | nil => simp [LocalVariable.tables, hdescribed]
    | cons second signed => cases described <;> simp [LocalVariable.tables, hdescribed, hsigned]

theorem filterMap_frameTables {frames : List StackMapFrame}
    (hf : ∀ frames, f (.stackMapTable frames) = none) :
    (frameTables frames).filterMap (fun table => f table.value) = [] := by
  cases frames with
  | nil => rfl
  | cons frame frames => exact List.filterMap_eq_nil_iff.2 (List.forall_mem_singleton.2 (hf _))

end

section

variable {back : Code} {name : UInt16 → Label} {placed : Label → UInt16}
  {tables : List Attribute}

theorem lineNumberTables_eq
    (htables : tables = [] ∨
      ∃ rows, tables = [⟨.ofString "LineNumberTable", .lineNumberTable rows⟩])
    (hlines : back.lineNumbers =
      joined (tables.filterMap fun table => table.value.lineNumbers? (nameAt name)))
    (hplaced : ∀ table ∈ tables, ∀ offset ∈ table.value.askedOffsets,
      placed (name offset) = offset) :
    back.lineNumberTables placed = tables := by
  obtain rfl | ⟨rows, rfl⟩ := htables
  · rw [lineNumberTables, hlines]
    rfl
  · have hrows : ∀ row ∈ rows, placed (name row.startOffset) = row.startOffset := fun row hrow =>
      hplaced _ (List.mem_singleton_self _) _
        (List.mem_append_left _ (List.mem_map_of_mem hrow))
    have hlines : back.lineNumbers = some (rows.map fun row => (name row.startOffset, row.line)) := by
      rw [hlines]
      simp [joined, AttributeValue.lineNumbers?, AttributeValue.lineRows?]
    rw [lineNumberTables, hlines]
    dsimp only
    rw [List.map_map, (List.map_congr_left fun row hrow => ?_ : _ = rows.map id), List.map_id]
    simp only [Function.comp_apply, hrows row hrow, id]

theorem row_labeled {row : LocalVariable} (hstart : placed (name row.startOffset) = row.startOffset)
    (hstop : placed (name (UInt16.ofNat (row.startOffset.toNat + row.length.toNat))) =
      UInt16.ofNat (row.startOffset.toNat + row.length.toNat))
    (descriptor signature : Option Text) :
    (row.labeled (nameAt name) descriptor signature).row placed row.descriptor = row := by
  have hlength : UInt16.ofNat (row.startOffset.toNat + row.length.toNat) - row.startOffset =
      row.length := by
    rw [UInt16.ofNat_add, UInt16.ofNat_toNat, UInt16.ofNat_toNat, UInt16.add_comm,
      UInt16.add_sub_cancel]
  simp only [LocalVariable.labeled, Variable.row, nameAt_toNat, nameAt_add, hstart, hstop, hlength]

theorem tables_labeledRows {described signed : List LocalVariable}
    (hrows : ∀ row ∈ described ++ signed, ∀ descriptor signature,
      (row.labeled (nameAt name) descriptor signature).row placed row.descriptor = row) :
    Variable.tables placed (LocalVariable.labeledRows (nameAt name) described signed) =
      LocalVariable.tables described signed := by
  obtain ⟨hdescribed, hsigned⟩ := List.forall_mem_append.1 hrows
  have hfirst : (LocalVariable.labeledRows (nameAt name) described signed).filterMap
      (fun source => source.descriptor.map (source.row placed)) = described := by
    have hnone : signed.filterMap (fun _ => (none : Option LocalVariable)) = [] := by simp
    have hsome : described.filterMap _ = described.filterMap some :=
      List.filterMap_congr fun row hrow =>
        congrArg some (hdescribed row hrow (some row.descriptor) none)
    rw [LocalVariable.labeledRows, List.filterMap_append, List.filterMap_map, List.filterMap_map]
    refine (congrArg₂ (· ++ ·) (hsome.trans List.filterMap_some) hnone).trans (List.append_nil _)
  have hsecond : (LocalVariable.labeledRows (nameAt name) described signed).filterMap
      (fun source => source.signature.map (source.row placed)) = signed := by
    have hnone : described.filterMap (fun _ => (none : Option LocalVariable)) = [] := by simp
    have hsome : signed.filterMap _ = signed.filterMap some :=
      List.filterMap_congr fun row hrow =>
        congrArg some (hsigned row hrow none (some row.descriptor))
    rw [LocalVariable.labeledRows, List.filterMap_append, List.filterMap_map, List.filterMap_map]
    exact congrArg₂ (· ++ ·) hnone (hsome.trans List.filterMap_some)
  rw [Variable.tables, hfirst, hsecond]
  rfl

theorem variableTables_eq
    (htables : tables = [] ∨ ∃ described signed, tables = LocalVariable.tables described signed)
    (hvariables : back.localVariables =
      joined (tables.filterMap fun table => table.value.variables? (nameAt name)))
    (hplaced : ∀ table ∈ tables, ∀ offset ∈ table.value.askedOffsets,
      placed (name offset) = offset) :
    back.variableTables placed = tables := by
  obtain rfl | ⟨described, signed, rfl⟩ := htables
  · rw [variableTables, hvariables]
    rfl
  · rw [variableTables, hvariables, LocalVariable.joined_variables, Option.elim_some]
    refine tables_labeledRows fun row hrow => ?_
    obtain ⟨table, htable, hmem⟩ := LocalVariable.exists_of_mem_rows hrow
    have hoffsets := fun offset hoffset => hplaced table htable offset
      (List.mem_append_right _ (List.mem_flatMap.2 ⟨row, hmem, hoffset⟩))
    exact row_labeled (hoffsets _ (by simp)) (hoffsets _ (by simp))

/-- Frames are stored again with the deltas that they had. -/
theorem storedFrames_placed {frames : List StackMapFrame}
    (hframes : ∀ frame ∈ frames, ∀ origin ∈ frame.frame.origins, placed (name origin) = origin)
    {previous : Option UInt16}
    (hoffsets : ∀ frame ∈ StackMapFrame.placed (previous.map UInt16.toNat) frames,
      frame.1 < 65536) :
    Placement.storedFrames placed previous
      ((StackMapFrame.placed (previous.map UInt16.toNat) frames).map fun (offset, frame) =>
        (frame.map name, UInt16.ofNat offset)) = frames := by
  induction frames generalizing previous with
  | nil => rfl
  | cons first frames ih =>
    obtain ⟨delta, frame⟩ := first
    obtain ⟨hfirst, hrest⟩ := List.forall_mem_cons.1 hframes
    obtain ⟨hoffset, hoffsets⟩ := List.forall_mem_cons.1 hoffsets
    have hframe : (frame.map name).map placed = frame := by
      rw [Frame.map_map]
      exact Frame.map_eq_self hfirst
    generalize hat : (previous.map UInt16.toNat).elim delta.toNat
      (fun previous => previous + delta.toNat + 1) = offset at hoffset hoffsets
    have hnat : (UInt16.ofNat offset).toNat = offset := UInt16.toNat_ofNat_of_lt' hoffset
    have hothers := @ih hrest (some (UInt16.ofNat offset))
    rw [Option.map_some, hnat] at hothers
    have hdelta : previous.elim (UInt16.ofNat offset)
        (fun previous => UInt16.ofNat offset - previous - 1) = delta := by
      cases previous with
      | none => exact hat ▸ UInt16.ofNat_toNat
      | some previous =>
        subst hat
        simp only [Option.map_some, Option.elim_some, UInt16.ofNat_add, UInt16.ofNat_toNat]
        grind
    simp only [StackMapFrame.placed, hat, List.map_cons, Placement.storedFrames, hdelta, hframe,
      hothers hoffsets]

end

theorem isCodeTable_of_mem {layout : Layout} {table : Attribute}
    (htable : table ∈ code.tablesIn layout) : table.value.isCodeTable = true := by
  obtain ⟨_, rfl⟩ | ⟨_, rfl⟩ | ⟨_, rfl⟩ | ⟨_, rfl⟩ := cases_of_mem_tablesIn htable <;> rfl

namespace LaidOut

variable {pool : Pool} {bytecode : CodeAttribute} {operands : List Operand}
  {wide : Std.HashSet Nat} {offsets : Nat → Nat} {layout : Layout}

theorem attributes_eq (hlaid : code.LaidOut pool bytecode operands wide offsets layout) :
    bytecode.attributes = code.tablesIn layout ++ code.attributes := by
  rw [hlaid.bytecode_eq]
  rfl

/-- What only tables have is found in the tables that laid out code comes with. -/
theorem filterMap_attributes {β : Type}
    (hlaid : code.LaidOut pool bytecode operands wide offsets layout)
    (hothers : ∀ other ∈ code.attributes, other.value.isCodeTable = false)
    {f : AttributeValue → Option β} (hf : ∀ value, value.isCodeTable = false → f value = none) :
    bytecode.attributes.filterMap (fun other => f other.value) =
      (code.tablesIn layout).filterMap fun table => f table.value := by
  have hnone : code.attributes.filterMap (fun other => f other.value) = [] :=
    List.filterMap_eq_nil_iff.2 fun other hother => hf _ (hothers other hother)
  rw [hlaid.attributes_eq, List.filterMap_append, hnone, List.append_nil]

theorem filter_attributes (hlaid : code.LaidOut pool bytecode operands wide offsets layout)
    (hothers : ∀ other ∈ code.attributes, other.value.isCodeTable = false) :
    bytecode.attributes.filter (fun other => !other.value.isCodeTable) = code.attributes := by
  have htables : (code.tablesIn layout).filter (fun other => !other.value.isCodeTable) = [] :=
    List.filter_eq_nil_iff.2 fun other hother => by simp [isCodeTable_of_mem hother]
  rw [hlaid.attributes_eq, List.filter_append, htables, List.nil_append, List.filter_eq_self]
  exact fun other hother => by simp [hothers other hother]

theorem filterMap_tables (hlaid : code.LaidOut pool bytecode operands wide offsets layout)
    (hothers : ∀ other ∈ code.attributes, other.value.isCodeTable = false) (name : Int → Label) :
    bytecode.attributes.filterMap (fun other => other.value.lineNumbers? name) =
      (code.lineNumberTables layout.placement.final).filterMap
        (fun table => table.value.lineNumbers? name) ∧
    bytecode.attributes.filterMap (fun other => other.value.variables? name) =
      (code.variableTables layout.placement.final).filterMap
        (fun table => table.value.variables? name) ∧
    bytecode.frames =
      Placement.storedFrames layout.placement.final none (code.framed layout) := by
  refine ⟨?_, ?_, ?_⟩
  · rw [hlaid.filterMap_attributes hothers, tablesIn, List.filterMap_append, List.filterMap_append,
      filterMap_variableTables (fun _ => rfl) (fun _ => rfl), filterMap_frameTables fun _ => rfl,
      List.append_nil, List.append_nil]
    intro value hvalue
    cases value with
    | lineNumberTable => cases hvalue
    | _ => rfl
  · rw [hlaid.filterMap_attributes hothers, tablesIn, List.filterMap_append, List.filterMap_append,
      filterMap_lineNumberTables fun _ => rfl, filterMap_frameTables fun _ => rfl,
      List.append_nil, List.nil_append]
    intro value hvalue
    cases value with
    | localVariableTable | localVariableTypeTable => cases hvalue
    | _ => rfl
  · rw [CodeAttribute.frames, CodeAttribute.frameTables, hlaid.filterMap_attributes hothers,
      tablesIn, List.filterMap_append, List.filterMap_append,
      filterMap_lineNumberTables fun _ => rfl,
      filterMap_variableTables (fun _ => rfl) (fun _ => rfl), List.nil_append, List.nil_append]
    · cases Placement.storedFrames layout.placement.final none (code.framed layout) <;> rfl
    · intro value hvalue
      cases value with
      | stackMapTable => cases hvalue
      | _ => rfl

end LaidOut

/-! ### References -/

theorem getD_joined {α : Type} (parts : List (List α)) : (joined parts).getD [] = parts.flatten := by
  cases parts <;> rfl

theorem mem_tableOffsets_of_asked {bytecode : CodeAttribute} {other : Attribute}
    (hother : other ∈ bytecode.attributes) {offset : UInt16}
    (hoffset : offset ∈ other.value.askedOffsets) : offset ∈ bytecode.tableOffsets :=
  List.mem_append_right _ (List.mem_append_left _
    (List.mem_flatMap.2 ⟨other, hother, hoffset⟩))

namespace IsSwept

variable {pool : Pool} {bytecode : CodeAttribute} {length : UInt16} {labels : OffsetLabels}
  {swept : List (Nat × Instruction UInt16)}

theorem exists_of_mem_lineNumbers (hswept : IsSwept pool bytecode length labels swept)
    {line : Label × UInt16} (hline : line ∈ (ofSwept bytecode labels swept).lineNumbers.getD []) :
    ∃ offset ∈ bytecode.tableOffsets, labels.name offset = line.1 := by
  rw [hswept.disassembled.lineNumbers, getD_joined, mem_flatten_filterMap] at hline
  obtain ⟨other, hother, hline⟩ := hline
  rw [AttributeValue.lineNumbers?] at hline
  cases hrows : other.value.lineRows? with
  | none =>
    rw [hrows] at hline
    cases hline
  | some rows =>
    rw [hrows] at hline
    obtain ⟨row, hrow, rfl⟩ := List.mem_map.1 hline
    refine ⟨row.startOffset, mem_tableOffsets_of_asked hother (List.mem_append_left _ ?_),
      (nameAt_toNat _ _).symm⟩
    rw [hrows]
    exact List.mem_map_of_mem hrow

theorem exists_of_mem_localVariables (hswept : IsSwept pool bytecode length labels swept)
    {source : Variable}
    (hsource : source ∈ (ofSwept bytecode labels swept).localVariables.getD []) :
    ∃ (row : LocalVariable) (descriptor signature : Option Text),
      source = row.labeled (nameAt labels.name) descriptor signature ∧
      (descriptor.isSome ∨ signature.isSome) ∧ row.startOffset ∈ bytecode.tableOffsets ∧
      UInt16.ofNat (row.startOffset.toNat + row.length.toNat) ∈ bytecode.tableOffsets ∧
      row.startOffset.toNat + row.length.toNat ≤ length.toNat := by
  rw [hswept.disassembled.localVariables, getD_joined, mem_flatten_filterMap] at hsource
  obtain ⟨other, hother, hsource⟩ := hsource
  obtain ⟨row, hrow, descriptor, signature, rfl, htyped⟩ : ∃ row ∈ other.value.variableRows?.getD [],
      ∃ descriptor signature, source = row.labeled (nameAt labels.name) descriptor signature ∧
        (descriptor.isSome ∨ signature.isSome) := by
    cases hvalue : other.value with
    | localVariableTable rows =>
      rw [hvalue] at hsource
      obtain ⟨row, hrow, rfl⟩ := List.mem_map.1 hsource
      exact ⟨row, hrow, some row.descriptor, none, rfl, .inl rfl⟩
    | localVariableTypeTable rows =>
      rw [hvalue] at hsource
      obtain ⟨row, hrow, rfl⟩ := List.mem_map.1 hsource
      exact ⟨row, hrow, none, some row.descriptor, rfl, .inr rfl⟩
    | _ =>
      rw [hvalue] at hsource
      cases hsource
  have hoffsets := fun offset hoffset => mem_tableOffsets_of_asked hother
    (List.mem_append_right _ (List.mem_flatMap.2 ⟨row, hrow, hoffset⟩) :
      offset ∈ other.value.askedOffsets)
  exact ⟨row, descriptor, signature, rfl, htyped, hoffsets _ (by simp), hoffsets _ (by simp),
    ((hswept.fit.attributes other hother).ranges row hrow).2⟩

theorem exists_of_mem_origins (hswept : IsSwept pool bytecode length labels swept)
    {label : Label} (hlabel : label ∈ (ofSwept bytecode labels swept).origins) :
    ∃ offset ∈ bytecode.tableOffsets, labels.name offset = label := by
  obtain ⟨line, hline, hlabel⟩ := List.mem_flatMap.1 hlabel
  rw [lines_eq] at hline
  obtain ⟨entry, hentry, rfl⟩ := List.mem_map.1 hline
  have hbounds := hswept.found.bounds entry hentry
  have hframes := hswept.getElem?_frames (Nat.lt_trans hbounds.2 hswept.lt_size)
  dsimp only at hlabel
  generalize (Std.HashMap.ofList ((StackMapFrame.placed none bytecode.frames).map fun placed =>
    (UInt16.ofNat placed.1, placed.2.map labels.name)))[UInt16.ofNat entry.1]? = found
    at hlabel hframes
  cases found with
  | none => cases hlabel
  | some frame =>
    obtain ⟨stored, hstored, rfl⟩ := (hframes frame).1 rfl
    rw [Option.elim_some, Frame.origins_map] at hlabel
    obtain ⟨origin, horigin, rfl⟩ := List.mem_map.1 hlabel
    exact ⟨origin, List.mem_append_right _ (List.mem_append_right _
      (List.mem_flatMap.2 ⟨_, hstored, horigin⟩)), rfl⟩

theorem exists_of_mem_tableReferences (hswept : IsSwept pool bytecode length labels swept)
    {label : Label} (hlabel : label ∈ (ofSwept bytecode labels swept).tableReferences) :
    ∃ offset ∈ bytecode.tableOffsets, labels.name offset = label := by
  simp only [tableReferences, List.mem_append] at hlabel
  obtain ((hhandler | hline) | hvariable) | horigin := hlabel
  · obtain ⟨handler, hhandler, hlabel⟩ := List.mem_flatMap.1 hhandler
    obtain ⟨entry, hentry, rfl⟩ := List.mem_map.1 hhandler
    have hoffsets := fun offset hoffset => (List.mem_append_left _
      (List.mem_flatMap.2 ⟨entry, hentry, hoffset⟩) : offset ∈ bytecode.tableOffsets)
    simp only [ExceptionEntry.labeled, nameAt_toNat, List.mem_cons, List.not_mem_nil, or_false]
      at hlabel
    obtain rfl | rfl | rfl := hlabel
    · exact ⟨_, hoffsets _ (by simp), rfl⟩
    · exact ⟨_, hoffsets _ (by simp), rfl⟩
    · exact ⟨_, hoffsets _ (by simp), rfl⟩
  · obtain ⟨line, hmem, rfl⟩ := List.mem_map.1 hline
    exact hswept.exists_of_mem_lineNumbers hmem
  · obtain ⟨source, hsource, hlabel⟩ := List.mem_flatMap.1 hvariable
    obtain ⟨row, descriptor, signature, rfl, -, hstart, hstop, -⟩ :=
      hswept.exists_of_mem_localVariables hsource
    simp only [LocalVariable.labeled, nameAt_toNat, nameAt_add, List.mem_cons, List.not_mem_nil,
      or_false] at hlabel
    obtain rfl | rfl := hlabel
    · exact ⟨_, hstart, rfl⟩
    · exact ⟨_, hstop, rfl⟩
  · exact hswept.exists_of_mem_origins horigin

/-- Code that was read can be laid out again, apart from its length. -/
theorem isPlaced (hswept : IsSwept pool bytecode length labels swept) :
    (ofSwept bytecode labels swept).IsPlaced where
  distinct := hswept.isDistinct
  target label hlabel := by
    obtain ⟨line, hline, hlabel⟩ := List.mem_flatMap.1 hlabel
    rw [lines_eq] at hline
    obtain ⟨entry, hentry, rfl⟩ := List.mem_map.1 hline
    rw [Instruction.targets_map] at hlabel
    obtain ⟨target, htarget, rfl⟩ := List.mem_map.1 hlabel
    obtain ⟨place, hlt, -, hplace⟩ := hswept.exists_place_of_target hentry htarget
    exact ⟨place, length_lines.symm ▸ hlt, hplace⟩
  table label hlabel := by
    obtain ⟨offset, hoffset, rfl⟩ := hswept.exists_of_mem_tableReferences hlabel
    obtain ⟨place, -, -, hplace⟩ := hswept.exists_place (List.mem_append_right _ hoffset)
    exact List.mem_of_getElem? (Marks.getElem?_of_placeOf? hplace)
  range source hsource := by
    obtain ⟨row, descriptor, signature, rfl, htyped, hstart, hstop, hle⟩ :=
      hswept.exists_of_mem_localVariables hsource
    obtain ⟨first, hfirst, hfirstAt, hfirstPlace⟩ :=
      hswept.exists_place (List.mem_append_right _ hstart)
    obtain ⟨last, -, hlastAt, hlastPlace⟩ := hswept.exists_place (List.mem_append_right _ hstop)
    have hend : (UInt16.ofNat (row.startOffset.toNat + row.length.toNat)).toNat =
        row.startOffset.toNat + row.length.toNat :=
      UInt16.toNat_ofNat_of_lt' (Nat.lt_of_le_of_lt hle length.toNat_lt)
    simp only [LocalVariable.labeled, nameAt_toNat, nameAt_add]
    refine ⟨htyped, first, last, hfirstPlace, hlastPlace, ?_⟩
    -- the offsets in the bytecode order the places
    by_contra hlt
    have hoffsets := hswept.offsets_lt_of_lt (Nat.not_le.1 hlt) hfirst
    omega

end IsSwept

/-! ### The same bytecode -/

namespace ReadBack

variable {pool : Pool} {bytecode : CodeAttribute} {operands : List Operand}
  {wide final : Std.HashSet Nat} {offsets : Nat → Nat} {layout again : Layout} {length : UInt16}
  {labels : OffsetLabels} {pieces : List Piece}

theorem final_name
    (hback : code.ReadBack pool bytecode operands wide offsets layout length labels pieces)
    (hsettled : Layout.Settled final (relaid bytecode labels pieces)
      (ofPieces bytecode labels pieces).endLabel
      (offsetsOf bytecode.code.length (pieces.map Piece.found)) again) :
    ∀ offset ∈ sweptOffsets bytecode (pieces.map Piece.found),
      again.placement.final (labels.name offset) = offset := by
  intro offset hoffset
  obtain ⟨place, -, hat, hplace⟩ := hback.swept.exists_place hoffset
  rw [← marksOf_relaid] at hplace
  rw [hsettled.final_eq hplace, hat, UInt16.ofNat_toNat]

theorem handlers_eq {entries : List ExceptionEntry} {name : UInt16 → Label}
    {placed : Label → UInt16}
    (hplaced : ∀ offset ∈ entries.flatMap (fun entry =>
      [entry.startOffset, entry.endOffset, entry.handlerOffset]), placed (name offset) = offset) :
    (entries.map (·.labeled (nameAt name))).map (·.entry placed) = entries := by
  rw [List.map_map, (List.map_congr_left fun entry hentry => ?_ : _ = entries.map id), List.map_id]
  have hoffsets := fun offset hoffset => hplaced offset (List.mem_flatMap.2 ⟨entry, hentry, hoffset⟩)
  simp only [Function.comp_apply, ExceptionEntry.labeled, ExceptionHandler.entry, nameAt_toNat, id]
  rw [hoffsets _ (by simp), hoffsets _ (by simp), hoffsets _ (by simp)]

theorem storedFrames_eq
    (hback : code.ReadBack pool bytecode operands wide offsets layout length labels pieces)
    (hsettled : Layout.Settled final (relaid bytecode labels pieces)
      (ofPieces bytecode labels pieces).endLabel
      (offsetsOf bytecode.code.length (pieces.map Piece.found)) again) :
    Placement.storedFrames again.placement.final none
      ((ofPieces bytecode labels pieces).framed again) = bytecode.frames := by
  have hframed : (ofPieces bytecode labels pieces).framed again =
      (StackMapFrame.placed none bytecode.frames).map fun placed =>
        (placed.2.map labels.name, UInt16.ofNat placed.1) := by
    have hlines := congrArg (List.map fun placed => (placed.2, UInt16.ofNat placed.1))
      hback.swept.framedLines_eq
    rw [List.map_map, List.map_map] at hlines
    rw [Code.framed_eq length_operands hsettled.frameOffsets]
    refine hlines.trans (List.map_congr_left fun frame _ => ?_)
    simp
  rw [hframed]
  refine storedFrames_placed (fun frame hframe origin horigin => ?_) fun frame hframe =>
    (hback.swept.fit.frames frame hframe).1
  have hstored : frame.frame ∈ (StackMapFrame.placed none bytecode.frames).map Prod.snd := by
    rw [StackMapFrame.placed_map_snd]
    exact List.mem_map_of_mem hframe
  obtain ⟨found, hfound, hsame⟩ := List.mem_map.1 hstored
  rw [← hsame] at horigin
  exact hback.final_name hsettled origin (List.mem_append_right _ (List.mem_append_right _
    (List.mem_append_right _ (List.mem_flatMap.2 ⟨found, hfound, horigin⟩))))

/-- **Tables.** What was read comes with the tables that it was read with. -/
theorem bytecodeOf_eq
    (hback : code.ReadBack pool bytecode operands wide offsets layout length labels pieces)
    (hothers : ∀ other ∈ code.attributes, other.value.isCodeTable = false)
    (hsettled : Layout.Settled final (relaid bytecode labels pieces)
      (ofPieces bytecode labels pieces).endLabel
      (offsetsOf bytecode.code.length (pieces.map Piece.found)) again) :
    { (ofPieces bytecode labels pieces).bytecodeOf again with code := bytecode.code } =
      bytecode := by
  have hread := hback.swept.disassembled
  have hplaced : ∀ offset ∈ bytecode.tableOffsets,
      again.placement.final (labels.name offset) = offset := fun offset hoffset =>
    hback.final_name hsettled offset (List.mem_append_right _ hoffset)
  have hasked : ∀ table ∈ code.tablesIn layout, ∀ offset ∈ table.value.askedOffsets,
      again.placement.final (labels.name offset) = offset := by
    intro table htable offset hoffset
    have hmem : table ∈ bytecode.attributes := by
      rw [hback.laidOut.attributes_eq]
      exact List.mem_append_left _ htable
    exact hplaced offset (mem_tableOffsets_of_asked hmem hoffset)
  obtain ⟨hasked, -⟩ := List.forall_mem_append.1 hasked
  obtain ⟨hlinesAsked, hvariablesAsked⟩ := List.forall_mem_append.1 hasked
  obtain ⟨hlines, hvariables, hframes⟩ :=
    hback.laidOut.filterMap_tables hothers (nameAt labels.name)
  have hlineTables := lineNumberTables_eq (code.lineNumberTables_cases layout.placement.final)
    (hread.lineNumbers.trans (congrArg joined hlines)) hlinesAsked
  have hvariableTables := variableTables_eq (code.variableTables_cases layout.placement.final)
    (hread.localVariables.trans (congrArg joined hvariables)) hvariablesAsked
  have hattributes : (ofPieces bytecode labels pieces).attributes = code.attributes :=
    hread.attributes.trans (hback.laidOut.filter_attributes hothers)
  have hhandlers : (ofPieces bytecode labels pieces).handlers.map
      (·.entry again.placement.final) = bytecode.exceptionTable :=
    handlers_eq fun offset hoffset => hplaced offset (List.mem_append_left _ hoffset)
  rw [bytecodeOf, tablesIn, hlineTables, hvariableTables, hback.storedFrames_eq hsettled, hframes,
    hattributes, hhandlers]
  have hall := hback.laidOut.attributes_eq
  rw [tablesIn] at hall
  rw [← hall]
  change CodeAttribute.mk bytecode.maxStack bytecode.maxLocals bytecode.code bytecode.exceptionTable
    bytecode.attributes = bytecode
  cases bytecode
  rfl

theorem laidOut_again
    (hback : code.ReadBack pool bytecode operands wide offsets layout length labels pieces)
    (hoperands : List.Forall₂ (fun line operand =>
      line.instruction.putOperand.run pool = (.ok operand, pool)) code.lines operands)
    (hothers : ∀ other ∈ code.attributes, other.value.isCodeTable = false)
    (hformed : Piece.AreFormed pieces final)
    (hsettled : Layout.Settled final (relaid bytecode labels pieces)
      (ofPieces bytecode labels pieces).endLabel
      (offsetsOf bytecode.code.length (pieces.map Piece.found)) again) :
    (ofPieces bytecode labels pieces).LaidOut pool bytecode (pieces.map Piece.operand) final
      (offsetsOf bytecode.code.length (pieces.map Piece.found)) again := by
  have hpieces := hback.laidOut.pieces
  rw [hback.pieces_eq] at hpieces
  have hend : offsetsOf bytecode.code.length (pieces.map Piece.found)
      (ofPieces bytecode labels pieces).lines.length = bytecode.code.length := by
    rw [IsSwept.length_lines, offsetsOf_length]
  have hlaid := hback.swept.isPlaced.laidOut_of_settled
    (operandsIn_of_putOperands (hback.run_putOperands hoperands)) hsettled
    (by rw [hend, hback.laidOut.length_code]; exact hback.laidOut.length_pos)
    (by rw [hend, hback.laidOut.length_code]; exact hback.laidOut.length_le)
  have hcode : Layout.codeOf final
      ((ofPieces bytecode labels pieces).lines.zip (pieces.map Piece.operand))
      (ofPieces bytecode labels pieces).marks
      (offsetsOf bytecode.code.length (pieces.map Piece.found)) again.placement.final
      (ofPieces bytecode labels pieces).lines.length = bytecode.code := by
    rw [IsSwept.length_lines, List.length_map]
    exact hback.swept.codeOf_relaid hpieces hformed hsettled.toComplete
  rwa [hcode, hback.bytecodeOf_eq hothers hsettled] at hlaid

/-- **Assembling again.** What was read is assembled to the bytecode that it was read from, if its
instructions are laid out in the forms that they had. -/
theorem assemble_again
    (hback : code.ReadBack pool bytecode operands wide offsets layout length labels pieces)
    (hoperands : List.Forall₂ (fun line operand =>
      line.instruction.putOperand.run pool = (.ok operand, pool)) code.lines operands)
    (hothers : ∀ other ∈ code.attributes, other.value.isCodeTable = false)
    (hformed : Piece.AreFormed pieces final)
    (hsettle : Layout.settle (relaid bytecode labels pieces)
        (ofPieces bytecode labels pieces).endLabel ∅ =
      Layout.settle (relaid bytecode labels pieces) (ofPieces bytecode labels pieces).endLabel
        final) :
    (ofPieces bytecode labels pieces).assemble.run pool = (.ok bytecode, pool) := by
  have hpieces := hback.laidOut.pieces
  rw [hback.pieces_eq] at hpieces
  obtain ⟨again, filled, hok, hsettled, hfilled⟩ :=
    (hback.swept.fits_relaid hpieces hformed).exists_settle
  rw [marksOf_relaid, length_relaid, ← List.length_map Piece.found,
    ← IsSwept.length_lines] at hfilled
  rw [run_assemble (hback.run_putOperands hoperands), layOut_of_laidOut (hsettle.trans hok) hfilled
    (hback.laidOut_again hoperands hothers hformed hsettled)]

end ReadBack

/-- The first attempt to lay out code, with the operands from a pool, is the last one. -/
def LaidOutAtOnce (code : Code) (pool : Pool) : Prop :=
  ∃ operands layout filled, ((putOperands code.lines).run pool).1 = .ok operands ∧
    Layout.ofLines ∅ (code.lines.zip operands) code.endLabel = .ok layout ∧
    fillHoles layout.placement layout.code.size layout.holes.toList layout.code =
      .ok (.filled filled)

theorem LaidOut.exists_readBack {decoded : Code} {pool : Pool} {bytecode : CodeAttribute}
    {operands : List Operand} {wide : Std.HashSet Nat} {offsets : Nat → Nat} {layout : Layout}
    (hlaid : code.LaidOut pool bytecode operands wide offsets layout)
    (hdisassemble : disassemble pool bytecode = .ok decoded) :
    ∃ length labels pieces, decoded = ofPieces bytecode labels pieces ∧
      code.ReadBack pool bytecode operands wide offsets layout length labels pieces := by
  obtain ⟨length, labels, swept, hswept, rfl⟩ := exists_isSwept_of_disassemble hdisassemble
  cases hlaid.pieces.swept_eq hswept.found hswept.lt_size
  exact ⟨length, labels, _, rfl, hlaid, rfl, hswept⟩

/-- **Reassembly.** Code that was assembled and disassembled is assembled to the same bytecode, and
no constant is missing then. -/
theorem assemble_of_disassemble {decoded : Code} {pool final later : Pool}
    {bytecode : CodeAttribute} (hassemble : code.assemble.run pool = (.ok bytecode, final))
    (hlater : final.Extends later)
    (hothers : ∀ other ∈ code.attributes, other.value.isCodeTable = false)
    (hstable : (∀ line ∈ code.lines, line.instruction.isSwitch = false) ∨ code.LaidOutAtOnce pool)
    (hdisassemble : disassemble later bytecode = .ok decoded) :
    decoded.assemble.run later = (.ok bytecode, later) := by
  obtain ⟨operands, between, hput, hlayOut⟩ := PoolM.exists_of_run_bind hassemble
  rw [PoolM.run_lift] at hlayOut
  obtain ⟨hbytecode, rfl⟩ := Prod.mk.inj hlayOut
  have hfirst := congrArg Prod.fst hput
  rw [putOperands_eq] at hput
  have hoperands := forall₂_of_putOperandsOf hput hlater
  have hin := yields_putOperandsOf 0 code.lines pool operands between hput later hlater
  obtain hswitch | ⟨others, layout, filled, hothersPut, hlayout, hfilled⟩ := hstable
  · obtain ⟨wide, offsets, layout, hattempted, hlaid⟩ := exists_laidOut_of_layOut hin hbytecode
    obtain ⟨length, labels, pieces, rfl, hback⟩ := hlaid.exists_readBack hdisassemble
    obtain ⟨last, hformed, hsettle⟩ := hback.exists_settle_of_attempted hswitch hattempted
    exact hback.assemble_again hoperands hothers hformed hsettle
  · cases hfirst.symm.trans hothersPut
    obtain ⟨offsets, hsettled, hcode⟩ := Layout.exists_settled_of_fillHoles hlayout hfilled
    have hsettle : Layout.settle (code.lines.zip operands) code.endLabel ∅ =
        .ok { layout with code := filled } := by
      rw [Layout.settle, hlayout]
      simp only [hfilled]
    have hlaid := laidOut_of_layOut hin hbytecode hsettle hsettled hcode
    obtain ⟨length, labels, pieces, rfl, hback⟩ := hlaid.exists_readBack hdisassemble
    exact hback.assemble_again hoperands hothers hback.areFormed_of_empty rfl

end Code

end JvmClass
