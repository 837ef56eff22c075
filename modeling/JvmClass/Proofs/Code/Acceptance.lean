import JvmClass.Proofs.Code.Relaid

/-!
# Which assembled code can be read

Assembling takes some code whose bytecode disassembling refuses: with a table that has no targets,
with a far branch that has no line after it to skip to, or with a table that refers to the end of the
code where a line is wanted. All other code that is assembled can be disassembled.
-/

namespace JvmClass

/-- A table that was read has targets. -/
theorem Instruction.SpelledAt.isEmptyTable_eq {pool : Pool} {offset : Nat}
    {instruction : Instruction Int} {bytes : Bytes}
    (hspelled : instruction.SpelledAt pool offset true bytes) :
    instruction.isEmptyTable = false := by
  cases hspelled with
  | tableSwitch padding otherwise low high distances hpadding hcount hchecked =>
    have hle := Int32.le_iff_toInt_le.1 (hchecked rfl)
    cases distances with
    | nil =>
      rw [List.length_nil] at hcount
      omega
    | cons first rest => rfl
  | _ => rfl

theorem Variable.exists_mem_split {sources : List Variable} {source : Variable}
    (hsource : source ∈ sources) (htyped : source.descriptor.isSome ∨ source.signature.isSome) :
    ∃ other ∈ split sources, other.range = source.range := by
  obtain hdescriptor | hsignature := htyped
  · obtain ⟨type, htype⟩ := Option.isSome_iff_exists.1 hdescriptor
    refine ⟨{ source with descriptor := some type, signature := none }, ?_, rfl⟩
    exact List.mem_append_left _ (List.mem_filterMap.2 ⟨source, hsource, by rw [htype]; rfl⟩)
  · obtain ⟨type, htype⟩ := Option.isSome_iff_exists.1 hsignature
    refine ⟨{ source with descriptor := none, signature := some type }, ?_, rfl⟩
    exact List.mem_append_right _ (List.mem_filterMap.2 ⟨source, hsource, by rw [htype]; rfl⟩)

namespace Code

variable {code : Code} {pool : Pool} {bytecode : CodeAttribute} {operands : List Operand}
  {wide : Std.HashSet Nat} {offsets : Nat → Nat} {layout : Layout} {length : UInt16}
  {labels : OffsetLabels} {swept : List (Nat × Instruction UInt16)}

theorem innerReferences_subset (code : Code) : code.innerReferences ⊆ code.references := by
  intro label hlabel
  simp only [innerReferences, List.mem_append, List.mem_flatMap, List.mem_map] at hlabel
  simp only [references, tableReferences, List.mem_append, List.mem_flatMap, List.mem_map]
  obtain ((⟨handler, hmem, hlabel⟩ | hline) | ⟨source, hmem, rfl⟩) | horigin := hlabel
  · refine .inr (.inl (.inl (.inl ⟨handler, hmem, ?_⟩)))
    exact List.Sublist.subset (by simp) hlabel
  · exact .inr (.inl (.inl (.inr hline)))
  · exact .inr (.inl (.inr ⟨source, hmem, List.mem_cons_self⟩))
  · exact .inr (.inr horigin)

/-- Tables that can be read refer to offsets below the length, except where ranges end. -/
theorem TablesWithin.lt_of_mem {offsetOf : Label → UInt16}
    (hwithin : code.TablesWithin length offsetOf)
    (htyped : ∀ source ∈ code.localVariables.getD [],
      source.descriptor.isSome ∨ source.signature.isSome) {label : Label}
    (hlabel : label ∈ code.innerReferences) : offsetOf label < length := by
  simp only [innerReferences, List.mem_append, List.mem_flatMap, List.mem_map] at hlabel
  obtain ((⟨handler, hmem, hlabel⟩ | ⟨line, hmem, rfl⟩) | ⟨source, hmem, rfl⟩) | horigin := hlabel
  · obtain ⟨hstart, -, hcatch⟩ := hwithin.handlers handler hmem
    rcases List.mem_pair.1 hlabel with rfl | rfl
    · exact hstart
    · exact hcatch
  · exact hwithin.lineNumbers line hmem
  · cases hsources : code.localVariables with
    | none => simp [hsources] at hmem
    | some sources =>
      have hsource : source ∈ sources := by simpa [hsources] using hmem
      obtain ⟨other, hother, hrange⟩ := Variable.exists_mem_split hsource (htyped source hmem)
      have hsplit : other ∈ code.splitVariables.localVariables.getD [] := by
        rw [splitVariables, hsources]
        exact hother
      rw [← hrange]
      exact (hwithin.localVariables other hsplit).1
  · exact hwithin.origins label horigin

namespace LaidOut

theorem mem_allPieces {final : Label → UInt16} {index : Nat} {line : CodeLine} {operand : Operand}
    (hline : (code.lines.zip operands)[index]? = some (line, operand)) {piece : Piece}
    (hpiece : piece ∈ code.piecesOf wide offsets final ((line, operand), index)) :
    piece ∈ code.allPieces operands wide offsets final :=
  List.mem_flatMap.2 ⟨((line, operand), index), List.mem_zipIdx_iff_getElem?.2 hline, hpiece⟩

/-- The pieces of assembled code that was read are as they have to be. -/
theorem found_piece (hlaid : code.LaidOut pool bytecode operands wide offsets layout)
    (hswept : IsSwept pool bytecode length labels swept) {piece : Piece}
    (hpiece : piece ∈ code.allPieces operands wide offsets layout.placement.final) :
    piece.instruction.isEmptyTable = false ∧
      ∀ target ∈ piece.instruction.targets, target < length := by
  have hfound : swept = _ := hlaid.pieces.swept_eq hswept.found hswept.lt_size
  have hmem : piece.found ∈ swept := hfound ▸ List.mem_map_of_mem hpiece
  obtain ⟨index, hindex⟩ := List.getElem?_of_mem hmem
  have hempty := (hswept.found.encodedAt hindex).2.spelled.isEmptyTable_eq
  rw [Instruction.located, Instruction.isEmptyTable_map] at hempty
  exact ⟨hempty, hswept.targets piece.found hmem⟩

theorem lt_of_offset_lt (hlaid : code.LaidOut pool bytecode operands wide offsets layout)
    (hlength : length.toNat = bytecode.code.length) {place : Nat}
    (hplace : place ≤ code.lines.length) (hlt : offsets place < length.toNat) :
    place < code.lines.length := by
  rw [hlength, hlaid.length_code] at hlt
  apply Nat.lt_of_le_of_ne hplace
  rintro rfl
  exact Nat.lt_irrefl _ hlt

theorem isReadable (hlaid : code.LaidOut pool bytecode operands wide offsets layout)
    (hswept : IsSwept pool bytecode length labels swept) : code.IsReadable offsets where
  tables := by
    intro line hmem
    obtain ⟨index, hline⟩ := List.getElem?_of_mem hmem
    obtain ⟨operand, hzip, -⟩ := hlaid.exists_operand hline
    obtain ⟨condition, target, hbranch, -⟩ | ⟨_, hpieces, -⟩ :=
      hlaid.piecesOf_cases hzip ⟨0⟩ ⟨0⟩ id
    · rw [hbranch]
      rfl
    · have hfound := (hlaid.found_piece hswept
        (mem_allPieces hzip (hpieces ▸ List.mem_singleton_self _))).1
      rwa [Instruction.isEmptyTable_map] at hfound
  next := by
    intro index line hline hbranch hfar
    obtain ⟨operand, hzip, -⟩ := hlaid.exists_operand hline
    have hindex := (List.getElem?_eq_some_iff.1 hline).1
    have height : offsets (index + 1) = offsets index + 8 := beq_iff_eq.1 hfar
    obtain ⟨condition, target, -, -, -, hpieces⟩ | ⟨hthree, -⟩ := hlaid.piecesOf_eq hzip
    · -- The branch skips to the next place, and that is where a target can be.
      have hskip := (hlaid.found_piece hswept
        (mem_allPieces hzip (hpieces ▸ List.mem_cons_self))).2
        (UInt16.ofNat (offsets (index + 1))) (List.mem_singleton_self _)
      rw [UInt16.lt_iff_toNat_lt, hlaid.assembled.toNat_offset hindex] at hskip
      exact hlaid.lt_of_offset_lt hswept.length_eq hindex hskip
    · have := hthree hbranch
      omega

theorem exists_line_of_lt (hlaid : code.LaidOut pool bytecode operands wide offsets layout)
    (hlength : length.toNat = bytecode.code.length) {label : Label}
    (hlabel : label ∈ code.references) (hlt : layout.placement.final label < length) :
    ∃ line ∈ code.lines, line.label = some label := by
  obtain ⟨-, place, hmark, hat⟩ := hlaid.assembled.placed label hlabel
  have hbound := (List.getElem?_eq_some_iff.1 hmark).1
  rw [marks, List.length_append, List.length_map, List.length_singleton] at hbound
  rw [UInt16.lt_iff_toNat_lt, hat] at hlt
  have hplace := hlaid.lt_of_offset_lt hlength (Nat.le_of_lt_succ hbound) hlt
  rw [marks, List.getElem?_append_left (by simpa using hplace), List.getElem?_map] at hmark
  obtain ⟨line, hline, hlabel⟩ := Option.map_eq_some_iff.1 hmark
  exact ⟨line, List.mem_of_getElem? hline, hlabel⟩

/-- What assembled code can be read only if: no table is empty, no far branch is last, and no table
refers to the end of the code, except where ranges end. -/
theorem readable_of_disassemble
    (hlaid : code.LaidOut pool bytecode operands wide offsets layout)
    (hothers : ∀ other ∈ code.attributes, other.value.isCodeTable = false) {result : Code}
    (hdisassemble : disassemble pool bytecode = .ok result) :
    code.IsReadable offsets ∧
      ∀ label ∈ code.innerReferences, ∃ line ∈ code.lines, line.label = some label := by
  obtain ⟨length, labels, swept, hswept, -⟩ := exists_isSwept_of_disassemble hdisassemble
  refine ⟨hlaid.isReadable hswept, fun label hlabel => ?_⟩
  obtain ⟨-, outline, -, handlers, tables, frames, found, htables, -⟩ :=
    disassemble_eq_ok_iff.1 hdisassemble
  obtain ⟨stored, hasks⟩ :=
    Labeling.Asks.labelTables (UInt16.ofNat bytecode.code.length) hlaid.assembled hothers
  obtain ⟨hwithin, -⟩ := (hasks.run _ (OffsetLabels.length_addAll _) _).1 htables
  have htyped := fun source hmem => (hlaid.tables.localVariables source hmem).1
  refine hlaid.exists_line_of_lt ?_ (code.innerReferences_subset hlabel)
    (hwithin.lt_of_mem htyped hlabel)
  exact UInt16.toNat_ofNat_of_lt' hswept.lt_size

end LaidOut

/-- **Accepted code.** Assembled code can be disassembled exactly if no table is empty, no far branch
is last, and all labels in tables are at lines, except where ranges end. -/
theorem exists_disassemble_iff_of_assemble {pool final : Pool} {bytecode : CodeAttribute}
    (hassemble : code.assemble.run pool = (.ok bytecode, final))
    (hothers : ∀ other ∈ code.attributes, other.value.isCodeTable = false) :
    ∃ offsets offsetOf, code.Assembled final bytecode offsets offsetOf ∧
      ((∃ result, disassemble final bytecode = .ok result) ↔
        code.IsReadable offsets ∧
          ∀ label ∈ code.innerReferences, ∃ line ∈ code.lines, line.label = some label) := by
  obtain ⟨operands, wide, offsets, layout, hlaid⟩ := exists_laidOut_of_assemble hassemble
  refine ⟨offsets, layout.placement.final, hlaid.assembled, ?_, ?_⟩
  · rintro ⟨result, hdisassemble⟩
    exact hlaid.readable_of_disassemble hothers hdisassemble
  · rintro ⟨hreadable, hinner⟩
    exact ⟨_, hlaid.disassemble_eq hothers hreadable (hlaid.tablesWithin hinner) rfl⟩

/-- The countdown has what it takes, so it can be disassembled. -/
theorem exists_disassemble_iff_countdown :
    (countdown 0).assemble.run Pool.empty = (.ok countdownBytecode, Pool.empty) ∧
      ∃ offsets offsetOf, (countdown 0).Assembled Pool.empty countdownBytecode offsets offsetOf ∧
        (countdown 0).IsReadable offsets ∧
        (∀ label ∈ (countdown 0).innerReferences,
          ∃ line ∈ (countdown 0).lines, line.label = some label) ∧
        ∃ result, disassemble Pool.empty countdownBytecode = .ok result := by
  have hassemble := assemble_countdown Pool.empty
  obtain ⟨offsets, offsetOf, hassembled, hiff⟩ :=
    exists_disassemble_iff_of_assemble hassemble (by decide)
  have hreadable : (countdown 0).IsReadable offsets :=
    isReadable_of_getLast? isEmptyTable_countdown isBranch_getLast?_countdown offsets
  have hinner := @exists_line_of_innerReferences_countdown 0
  exact ⟨hassemble, offsets, offsetOf, hassembled, hreadable, hinner, hiff.2 ⟨hreadable, hinner⟩⟩

/-- A table without targets, which has only a default. -/
def emptyTable : Code where
  maxStack := 1
  maxLocals := 0
  lines := [
    ⟨none, none, .plain .iConst0⟩,
    ⟨none, none, .tableSwitch ⟨0⟩ 1 0 []⟩,
    ⟨some ⟨0⟩, none, .plain .voidReturn⟩]
  handlers := []
  endLabel := none
  lineNumbers := none
  localVariables := none
  attributes := []

theorem isPlaced_emptyTable : emptyTable.IsPlaced where
  distinct := Marks.isDistinct_of_nodup (by decide)
  target label hlabel := by
    obtain rfl := List.mem_singleton.1 hlabel
    exact ⟨2, by decide, rfl⟩
  table := by decide
  range _ hsource := by cases hsource

/-- A table without targets is assembled, but what it is assembled to cannot be disassembled. -/
theorem emptyTable_refused :
    ∃ bytecode, emptyTable.assemble.run Pool.empty = (.ok bytecode, Pool.empty) ∧
      (∀ other ∈ emptyTable.attributes, other.value.isCodeTable = false) ∧
      ∀ result, disassemble Pool.empty bytecode ≠ .ok result := by
  have hpure : ∀ line ∈ emptyTable.lines, line.instruction.putOperand = pure ⟨0, 0⟩ := by
    simp only [emptyTable, List.forall_mem_cons]
    exact ⟨rfl, rfl, rfl, fun _ hline => by cases hline⟩
  obtain ⟨bytecode, -, hassemble⟩ :=
    isPlaced_emptyTable.exists_assemble_of_pure (by decide) hpure (by decide)
  refine ⟨bytecode, hassemble _, by decide, fun result hresult => ?_⟩
  obtain ⟨operands, wide, offsets, layout, hlaid⟩ :=
    exists_laidOut_of_assemble (hassemble Pool.empty)
  have hreadable := (hlaid.readable_of_disassemble (by decide) hresult).1
  have hempty := hreadable.tables ⟨none, none, .tableSwitch ⟨0⟩ 1 0 []⟩ (by decide)
  cases hempty

end Code

end JvmClass
