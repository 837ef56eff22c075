import JvmClass.Proofs.Code.Tables

/-!
# Disassembled code

Disassembling what was assembled. The code is read in the pieces that it was written in, so the
list of instructions is the same up to the names of labels and a few things that bytecode does not
tell: labels that nothing refers to are gone, a variable has one form of its type, and a far branch
is the two instructions that it was written as.
-/

namespace JvmClass

/-! ### What bytecode does not tell -/

/-- A far branch as the opposite branch to the next line and a jump. -/
def CodeLine.spellOut (line : CodeLine) (opposite : Condition → Condition) (far : Bool)
    (next : Label) : List CodeLine :=
  match far, line.instruction with
  | true, .branch condition target =>
    [⟨line.label, line.frame, .branch (opposite condition) next⟩,
      ⟨none, none, .jump .goto target⟩]
  | _, _ => [line]

theorem CodeLine.spellOut_of_not_far {line : CodeLine} {far : Bool}
    (hnear : line.instruction.isBranch → far = false) (opposite : Condition → Condition)
    (next : Label) : line.spellOut opposite far next = [line] := by
  unfold spellOut
  split
  · rename_i hbranch
    rw [hbranch] at hnear
    cases hnear rfl
  · rfl

def CodeLine.relabel (label : Label) (rename : Label → Label) (line : CodeLine) : CodeLine :=
  ⟨some label, line.frame.map (Frame.map rename), line.instruction.map rename⟩

namespace Code

/-- Code with the labels renamed and with a label at every place, those by `rename` and these by
`name`. -/
def relabel (code : Code) (name : Nat → Label) (rename : Label → Label) : Code :=
  { code with
    lines := code.lines.zipIdx.map fun (line, index) => line.relabel (name index) rename
    handlers := code.handlers.map (ExceptionHandler.rename rename)
    endLabel := some (name code.lines.length)
    lineNumbers := code.lineNumbers.map (List.map fun (label, line) => (rename label, line))
    localVariables := code.localVariables.map (List.map (Variable.rename rename)) }

def spellOut (code : Code) (opposite : Condition → Condition) (far : Nat → Bool)
    (name : Nat → Label) : Code :=
  { code with
    lines := code.lines.zipIdx.flatMap fun (line, index) =>
      line.spellOut opposite (far index) (name (index + 1)) }

/-- Whether a branch at an index takes the space of a far one. -/
def isFar (offsets : Nat → Nat) (index : Nat) : Bool :=
  offsets (index + 1) == offsets index + 8

/-- Code as it is spelled out in bytecode, with a label at every place. -/
def spelled (code : Code) (opposite : Condition → Condition) (offsets : Nat → Nat)
    (name : Nat → Label) (rename : Label → Label) : Code :=
  ((code.relabel name rename).spellOut opposite (isFar offsets) name).splitVariables

/-- Code whose bytecode can be read: no table is empty, and a far branch has a line after it that it
can skip to. -/
structure IsReadable (code : Code) (offsets : Nat → Nat) : Prop where
  tables : ∀ line ∈ code.lines, line.instruction.isEmptyTable = false
  next : ∀ index line, code.lines[index]? = some line → line.instruction.isBranch →
    isFar offsets index → index + 1 < code.lines.length

/-- The labels that have to be at lines: all in tables, except where ranges end. -/
def innerReferences (code : Code) : List Label :=
  code.handlers.flatMap (fun handler => [handler.start, handler.handler])
    ++ (code.lineNumbers.getD []).map Prod.fst
    ++ (code.localVariables.getD []).map (fun source => source.range.start)
    ++ code.origins

def dropUnused (code : Code) : Code :=
  { code with
    lines := code.lines.map fun line =>
      { line with label := line.label.filter (· ∈ code.references) }
    endLabel := code.endLabel.filter (· ∈ code.references) }

/-! ### References of code as it is spelled out -/

variable {code : Code}

theorem zipIdx_map_zipIdx {α β : Type} (f : α × Nat → β) (values : List α) :
    (values.zipIdx.map f).zipIdx = values.zipIdx.map fun value => (f value, value.2) := by
  refine List.ext_getElem? fun index => ?_
  simp only [List.getElem?_zipIdx, List.getElem?_map, Option.map_map, Nat.zero_add]
  rfl

theorem spelled_lines (opposite : Condition → Condition) (offsets : Nat → Nat) (name : Nat → Label)
    (rename : Label → Label) :
    (code.spelled opposite offsets name rename).lines =
      code.lines.zipIdx.flatMap fun (line, index) =>
        (line.relabel (name index) rename).spellOut opposite (isFar offsets index)
          (name (index + 1)) := by
  change ((code.lines.zipIdx.map _).zipIdx.flatMap _) = _
  rw [zipIdx_map_zipIdx, List.flatMap_map]

theorem spelled_origins (opposite : Condition → Condition) (offsets : Nat → Nat)
    (name : Nat → Label) (rename : Label → Label) :
    (code.spelled opposite offsets name rename).origins = code.origins.map rename := by
  have hspell : ∀ (line : CodeLine) (far : Bool) (next : Label),
      (line.spellOut opposite far next).flatMap (fun line => line.frame.elim [] Frame.origins) =
        line.frame.elim [] Frame.origins := by
    intro line far next
    unfold CodeLine.spellOut
    split <;> simp
  have horigins : code.origins =
      code.lines.zipIdx.flatMap fun line => line.1.frame.elim [] Frame.origins := by
    rw [origins]
    nth_rewrite 1 [← List.zipIdx_map_fst 0 code.lines]
    rw [List.flatMap_map]
  rw [horigins, origins, spelled_lines, List.flatMap_assoc, List.map_flatMap]
  simp only [hspell]
  refine List.flatMap_congr fun line _ => ?_
  cases hframe : line.1.frame with
  | none => simp [CodeLine.relabel, hframe]
  | some frame => simp [CodeLine.relabel, hframe, Frame.origins_map]

theorem spelled_tableReferences (opposite : Condition → Condition) (offsets : Nat → Nat)
    (name : Nat → Label) (rename : Label → Label) :
    (code.spelled opposite offsets name rename).tableReferences =
      code.splitVariables.tableReferences.map rename := by
  have horigins : code.splitVariables.origins = code.origins := rfl
  unfold tableReferences
  rw [spelled_origins, horigins]
  cases hlines : code.lineNumbers <;> cases hvariables : code.localVariables <;>
    simp [spelled, spellOut, relabel, splitVariables, hlines, hvariables, List.flatMap_map,
      List.map_flatMap, Variable.split_rename, ExceptionHandler.rename, Variable.rename,
      Function.comp_def]

end Code

/-! ### Pieces of assembled code -/

theorem Pieces.sweep_readLabeled {pool : Pool} {code : Bytes} {pieces : List Piece}
    {labels : OffsetLabels} (hpieces : Pieces pool code 0 pieces) (hsize : code.length < 65536)
    (hlabels : ∀ piece ∈ pieces, ∀ target ∈ piece.instruction.targets, target ∈ labels.labels) :
    JvmClass.sweep (Code.readLabeled pool labels) code =
      .ok (pieces.map fun piece =>
        (UInt16.ofNat piece.offset, piece.instruction.map labels.name)) := by
  refine hpieces.sweep fun piece hpiece => ?_
  have hreads : (Instruction.read pool (UInt16.ofNat piece.offset)).Reads piece.bytes
      piece.instruction := by
    obtain ⟨offset, hoffset, hlength⟩ := hpieces.exists_offset hsize hpiece
    obtain ⟨hoperand, hreaches, hnear⟩ := hpieces.readable piece hpiece
    rw [Piece.bytes] at hlength ⊢
    rw [hoffset] at hreaches hlength ⊢
    rw [UInt16.ofNat_toNat]
    exact Instruction.reads_bytesAt hoperand hreaches hnear hlength
  refine hreads.last ?_
  rw [Instruction.mapM_eq_pure_map fun target htarget => ?_]
  · exact .pure _
  · rw [OffsetLabels.getElem?_eq_some_name (hlabels piece hpiece target htarget)]

namespace Code

variable {code : Code}

theorem firstMisplaced_eq_none {starts : Std.HashSet UInt16} {offsets : List UInt16}
    (hoffsets : ∀ offset ∈ offsets, offset ∈ starts) : firstMisplaced starts offsets = none := by
  have hnone : (offsets.filter fun offset => !starts.contains offset) = [] := by
    rw [List.filter_eq_nil_iff]
    intro offset hoffset
    have hmem := Std.HashSet.mem_iff_contains.1 (hoffsets offset hoffset)
    simp [hmem]
  rw [firstMisplaced, hnone]
  rfl

theorem checkPlaces_eq_ok {length : UInt16} {starts : Std.HashSet UInt16}
    {labeled framed : List UInt16} (hlabeled : ∀ offset ∈ labeled, offset ∈ starts ∨ offset = length)
    (hframed : ∀ offset ∈ framed, offset ∈ starts) :
    checkPlaces length starts labeled framed = .ok () := by
  have hplaced : firstMisplaced (starts.insert length) labeled = none := by
    refine firstMisplaced_eq_none fun offset hoffset => ?_
    rw [Std.HashSet.mem_insert, beq_iff_eq]
    exact (hlabeled offset hoffset).symm.imp Eq.symm id
  rw [checkPlaces, hplaced, firstMisplaced_eq_none hframed]
  rfl

def ofRead (bytecode : CodeAttribute) (handlers : List ExceptionHandler) (tables : CodeTables)
    (frames : List (UInt16 × Frame Label)) (labels : OffsetLabels)
    (instructions : List (UInt16 × Instruction Label)) : Code where
  maxStack := bytecode.maxStack
  maxLocals := bytecode.maxLocals
  lines := instructions.map fun (offset, instruction) =>
    ⟨labels.labels[offset]?, (Std.HashMap.ofList frames)[offset]?, instruction⟩
  handlers := handlers
  endLabel := labels.labels[UInt16.ofNat bytecode.code.length]?
  lineNumbers := tables.lineNumbers.map Array.toList
  localVariables := tables.localVariables.map Array.toList
  attributes := tables.others.toList

theorem disassemble_eq_ok_iff {pool : Pool} {bytecode : CodeAttribute} {result : Code} :
    disassemble pool bytecode = .ok result ↔
      (bytecode.code.isEmpty || CodeAttribute.maxLength < bytecode.code.length) = false ∧
      ∃ outline, Outline.ofCode (UInt16.ofNat bytecode.code.length) bytecode.code = .ok outline ∧
      ∃ handlers tables frames labels,
        labelTables bytecode ((OffsetLabels.empty (UInt16.ofNat bytecode.code.length)).addAll
          outline.targets) = .ok ((handlers, tables, frames), labels) ∧
        checkPlaces (UInt16.ofNat bytecode.code.length) (Std.HashSet.ofList (outline.map Prod.fst))
          labels.offsets (frames.map Prod.fst) = .ok () ∧
        ∃ instructions, sweep (readLabeled pool labels) bytecode.code = .ok instructions ∧
          ofRead bytecode handlers tables frames labels instructions = result := by
  constructor
  · intro hresult
    unfold disassemble at hresult
    cases hlength : bytecode.code.isEmpty || CodeAttribute.maxLength < bytecode.code.length with
    | true =>
      rw [hlength] at hresult
      cases hresult
    | false =>
      rw [hlength] at hresult
      obtain ⟨outline, houtline, hresult⟩ := Result.exists_of_bind hresult
      obtain ⟨⟨⟨handlers, tables, frames⟩, labels⟩, htables, hresult⟩ :=
        Result.exists_of_bind hresult
      obtain ⟨_, hplaces, hresult⟩ := Result.exists_of_bind hresult
      obtain ⟨instructions, hinstructions, hresult⟩ := Result.exists_of_bind hresult
      exact ⟨rfl, outline, houtline, handlers, tables, frames, labels, htables, hplaces,
        instructions, hinstructions, Except.ok.inj hresult⟩
  · rintro ⟨hlength, outline, houtline, handlers, tables, frames, labels, htables, hplaces,
      instructions, hinstructions, rfl⟩
    unfold disassemble
    rw [hlength]
    refine Result.bind_of_ok houtline (Result.bind_of_ok htables ?_)
    exact Result.bind_of_ok hplaces (Result.bind_of_ok hinstructions rfl)

def piecesOf (code : Code) (wide : Std.HashSet Nat) (offsets : Nat → Nat) (final : Label → UInt16)
    (line : (CodeLine × Operand) × Nat) : List Piece :=
  Piece.ofLine (offsets line.2)
    ((Layout.siteAt wide code.marks offsets line.2).takesWide line.1.1.instruction) line.1.2
    (line.1.1.instruction.map final)

def allPieces (code : Code) (operands : List Operand) (wide : Std.HashSet Nat)
    (offsets : Nat → Nat) (final : Label → UInt16) : List Piece :=
  (code.lines.zip operands).zipIdx.flatMap (code.piecesOf wide offsets final)

/-- The offsets that get a label when the code is read. -/
def askedOffsets (code : Code) (operands : List Operand) (wide : Std.HashSet Nat)
    (offsets : Nat → Nat) (final : Label → UInt16) : List UInt16 :=
  (code.allPieces operands wide offsets final).flatMap (fun piece => piece.instruction.targets)
    ++ code.splitVariables.tableReferences.map final

namespace LaidOut

variable {pool : Pool} {bytecode : CodeAttribute} {operands : List Operand}
  {wide : Std.HashSet Nat} {offsets : Nat → Nat} {layout : Layout}

/-- Assembled code consists of the pieces of its lines. -/
theorem pieces (hlaid : code.LaidOut pool bytecode operands wide offsets layout) :
    Pieces pool bytecode.code 0 (code.allPieces operands wide offsets layout.placement.final) := by
  have hfrom : ∀ count index, index + count = code.lines.length →
      Pieces pool bytecode.code (offsets index) (((code.lines.zip operands).zipIdx.drop index).flatMap
        (code.piecesOf wide offsets layout.placement.final)) := by
    intro count
    induction count with
    | zero =>
      intro index hindex
      obtain rfl : index = code.lines.length := hindex
      have hend : (code.lines.zip operands).zipIdx.length ≤ code.lines.length :=
        Nat.le_of_eq (List.length_zipIdx.trans hlaid.length_zip)
      rw [List.drop_eq_nil_of_le hend, ← hlaid.length_code]
      exact .nil
    | succ count ih =>
      intro index hindex
      have hlt : index < (code.lines.zip operands).length := by
        rw [hlaid.length_zip]
        omega
      obtain ⟨operand, hline, hoperand⟩ :=
        hlaid.exists_operand (List.getElem?_eq_getElem (by omega : index < code.lines.length))
      have hrest := ih (index + 1) (by omega)
      obtain ⟨hcode, hstop⟩ := hlaid.drop_code hline
      have hreaches := hlaid.settled.reaches hline
      rw [hlaid.marks_eq] at hreaches
      rw [List.drop_eq_getElem_cons (by rwa [List.length_zipIdx]), List.flatMap_cons,
        List.getElem_zipIdx, Nat.zero_add, (List.getElem?_eq_some_iff.1 hline).2]
      exact Pieces.ofLine (Instruction.operandIn_map.2 hoperand) hreaches hcode hstop
        (Nat.lt_succ_of_le (hlaid.length_code ▸ hlaid.length_le)) hrest
  have hall := hfrom code.lines.length 0 (Nat.zero_add _)
  rwa [hlaid.settled.hasOffsets.zero, List.drop_zero] at hall

/-- The form that a line has: a branch that is wide is two pieces, and all else is one. -/
theorem piecesOf_eq (hlaid : code.LaidOut pool bytecode operands wide offsets layout)
    {index : Nat} {line : CodeLine} {operand : Operand}
    (hline : (code.lines.zip operands)[index]? = some (line, operand)) :
    (∃ condition label, line.instruction = .branch condition label ∧
      (Layout.siteAt wide code.marks offsets index).isWideTo label = true ∧
      offsets (index + 1) = offsets index + 8 ∧
      code.piecesOf wide offsets layout.placement.final ((line, operand), index) =
        [⟨offsets index, false, operand,
            .branch condition.negate (UInt16.ofNat (offsets (index + 1)))⟩,
          ⟨offsets index + 3, true, operand, .jump .goto (layout.placement.final label)⟩]) ∨
    (line.instruction.isBranch → offsets (index + 1) = offsets index + 3) ∧
      code.piecesOf wide offsets layout.placement.final ((line, operand), index) =
        [⟨offsets index, (Layout.siteAt wide code.marks offsets index).takesWide line.instruction,
          operand, line.instruction.map layout.placement.final⟩] := by
  obtain ⟨-, hnext⟩ := hlaid.drop_code hline
  by_cases hfar : line.instruction.isBranch ∧
      (Layout.siteAt wide code.marks offsets index).takesWide line.instruction = true
  · obtain ⟨hbranch, hwide⟩ := hfar
    cases hinstruction : line.instruction with
    | branch condition label =>
      rw [hinstruction] at hwide hnext
      rw [hwide] at hnext
      have height : offsets (index + 1) = offsets index + 8 := hnext.symm
      refine .inl ⟨condition, label, rfl, hwide, height, ?_⟩
      simp only [piecesOf, hinstruction, hwide, height]
      rfl
    | _ =>
      rw [hinstruction] at hbranch
      cases hbranch
  · have hnear : line.instruction.isBranch →
        (Layout.siteAt wide code.marks offsets index).takesWide line.instruction = false :=
      fun hbranch => Bool.eq_false_iff.2 fun hwide => hfar ⟨hbranch, hwide⟩
    refine .inr ⟨fun hbranch => ?_, Piece.ofLine_of_not_far fun hbranch => ?_⟩
    · rw [hnear hbranch] at hnext
      cases hinstruction : line.instruction with
      | branch condition label =>
        rw [hinstruction] at hnext
        exact hnext.symm
      | _ =>
        rw [hinstruction] at hbranch
        cases hbranch
    · rw [Instruction.isBranch_map] at hbranch
      exact hnear hbranch

theorem piecesOf_cases (hlaid : code.LaidOut pool bytecode operands wide offsets layout)
    {index : Nat} {line : CodeLine} {operand : Operand}
    (hline : (code.lines.zip operands)[index]? = some (line, operand)) (label next : Label)
    (rename : Label → Label) :
    (∃ condition target, line.instruction = .branch condition target ∧
      offsets (index + 1) = offsets index + 8 ∧
      code.piecesOf wide offsets layout.placement.final ((line, operand), index) =
        [⟨offsets index, false, operand,
            .branch condition.negate (UInt16.ofNat (offsets (index + 1)))⟩,
          ⟨offsets index + 3, true, operand, .jump .goto (layout.placement.final target)⟩] ∧
      (line.relabel label rename).spellOut Condition.negate (isFar offsets index) next =
        [⟨some label, line.frame.map (Frame.map rename), .branch condition.negate next⟩,
          ⟨none, none, .jump .goto (rename target)⟩]) ∨
    ∃ wide', code.piecesOf wide offsets layout.placement.final ((line, operand), index) =
        [⟨offsets index, wide', operand, line.instruction.map layout.placement.final⟩] ∧
      (line.relabel label rename).spellOut Condition.negate (isFar offsets index) next =
        [line.relabel label rename] := by
  obtain ⟨condition, target, hinstruction, -, height, hpieces⟩ | ⟨hthree, hpieces⟩ :=
    hlaid.piecesOf_eq hline
  · refine .inl ⟨condition, target, hinstruction, height, hpieces, ?_⟩
    have hfar : isFar offsets index = true := beq_iff_eq.2 height
    rw [hfar, CodeLine.relabel, hinstruction]
    rfl
  · refine .inr ⟨_, hpieces, CodeLine.spellOut_of_not_far (fun hbranch => ?_) _ next⟩
    rw [CodeLine.relabel, Instruction.isBranch_map] at hbranch
    rw [isFar, beq_eq_false_iff_ne, hthree hbranch]
    omega

theorem spelled_lines (hlaid : code.LaidOut pool bytecode operands wide offsets layout)
    (name : Nat → Label) (rename : Label → Label) :
    (code.spelled Condition.negate offsets name rename).lines =
      (code.lines.zip operands).zipIdx.flatMap fun line =>
        (line.1.1.relabel (name line.2) rename).spellOut Condition.negate (isFar offsets line.2)
          (name (line.2 + 1)) := by
  have hlines : code.lines.zipIdx = (code.lines.zip operands).zipIdx.map (Prod.map Prod.fst id) := by
    rw [List.map_zipIdx, List.map_fst_zip (Nat.le_of_eq hlaid.operandsIn.length_eq)]
  rw [Code.spelled_lines, hlines, List.flatMap_map]
  rfl

theorem spelled_targets (hlaid : code.LaidOut pool bytecode operands wide offsets layout)
    (label : UInt16 → Label) :
    (code.spelled Condition.negate offsets (fun place => label (UInt16.ofNat (offsets place)))
      fun name => label (layout.placement.final name)).targets =
      ((code.allPieces operands wide offsets layout.placement.final).flatMap
        fun piece => piece.instruction.targets).map label := by
  rw [targets, hlaid.spelled_lines, allPieces, List.flatMap_assoc, List.flatMap_assoc,
    List.map_flatMap]
  refine List.flatMap_congr fun entry hentry => ?_
  obtain ⟨⟨line, operand⟩, index⟩ := entry
  have hline := List.mem_zipIdx_iff_getElem?.1 hentry
  obtain ⟨condition, target, -, -, hpieces, hspelled⟩ | ⟨_, hpieces, hspelled⟩ :=
    hlaid.piecesOf_cases hline (label (UInt16.ofNat (offsets index)))
      (label (UInt16.ofNat (offsets (index + 1)))) fun name => label (layout.placement.final name)
  · rw [hpieces, hspelled]
    rfl
  · rw [hpieces, hspelled]
    simp [CodeLine.relabel, Instruction.targets_map, Function.comp_def]

theorem spelled_references (hlaid : code.LaidOut pool bytecode operands wide offsets layout)
    (label : UInt16 → Label) :
    (code.spelled Condition.negate offsets (fun place => label (UInt16.ofNat (offsets place)))
      fun name => label (layout.placement.final name)).references =
      (code.askedOffsets operands wide offsets layout.placement.final).map label := by
  rw [references, hlaid.spelled_targets, spelled_tableReferences, askedOffsets, List.map_append,
    List.map_map]
  rfl

theorem exists_place_of_asked (hlaid : code.LaidOut pool bytecode operands wide offsets layout)
    {offset : UInt16}
    (hoffset : offset ∈ code.askedOffsets operands wide offsets layout.placement.final) :
    ∃ place ≤ code.lines.length, offset = UInt16.ofNat (offsets place) := by
  have hreference : ∀ label ∈ code.references, ∃ place ≤ code.lines.length,
      layout.placement.final label = UInt16.ofNat (offsets place) := by
    intro label hlabel
    obtain ⟨-, place, hplace, hat⟩ := hlaid.placed (hlaid.reference_placed hlabel)
    refine ⟨place, ?_, by rw [← hat, UInt16.ofNat_toNat]⟩
    have hlt := (List.getElem?_eq_some_iff.1 hplace).1
    rw [marks, List.length_append, List.length_map, List.length_singleton] at hlt
    omega
  obtain htarget | htable := List.mem_append.1 hoffset
  · rw [allPieces, List.flatMap_assoc] at htarget
    obtain ⟨⟨⟨line, operand⟩, index⟩, hentry, htarget⟩ := List.mem_flatMap.1 htarget
    have hline := List.mem_zipIdx_iff_getElem?.1 hentry
    have hmem : line ∈ code.lines := (List.of_mem_zip (List.mem_of_getElem? hline)).1
    have hindex : index < code.lines.length :=
      hlaid.length_zip ▸ (List.getElem?_eq_some_iff.1 hline).1
    have htargets : ∀ label ∈ line.instruction.targets, label ∈ code.references :=
      fun label hlabel => List.mem_append_left _ (List.mem_flatMap.2 ⟨line, hmem, hlabel⟩)
    obtain ⟨condition, target, hbranch, -, hpieces, -⟩ | ⟨_, hpieces, -⟩ :=
      hlaid.piecesOf_cases hline ⟨0⟩ ⟨0⟩ id
    · rw [hpieces] at htarget
      simp only [List.flatMap_cons, List.flatMap_nil, Instruction.targets, List.append_nil,
        List.cons_append, List.nil_append, List.mem_cons, List.not_mem_nil, or_false] at htarget
      obtain rfl | rfl := htarget
      · exact ⟨index + 1, hindex, rfl⟩
      · exact hreference target (htargets target (by rw [hbranch]; exact List.mem_singleton_self _))
    · rw [hpieces, List.flatMap_singleton, Instruction.targets_map] at htarget
      obtain ⟨label, hlabel, rfl⟩ := List.mem_map.1 htarget
      exact hreference label (htargets label hlabel)
  · obtain ⟨label, hlabel, rfl⟩ := List.mem_map.1 htable
    exact hreference label
      (List.mem_append_right _ (code.tableReferences_splitVariables_subset hlabel))

/-- No line starts within a far branch. -/
theorem between_ne (hlaid : code.LaidOut pool bytecode operands wide offsets layout)
    {index : Nat} (hindex : index < code.lines.length)
    (hfar : offsets (index + 1) = offsets index + 8) {place : Nat}
    (hplace : place ≤ code.lines.length) :
    UInt16.ofNat (offsets index + 3) ≠ UInt16.ofNat (offsets place) := by
  have hassembled := hlaid.assembled
  have hend : offsets (index + 1) ≤ 65535 :=
    Nat.le_trans (hassembled.offsets_le hindex) hassembled.length_le
  have hbetween : (UInt16.ofNat (offsets index + 3)).toNat = offsets index + 3 :=
    UInt16.toNat_ofNat_of_lt' (Nat.lt_succ_of_le (by omega : offsets index + 3 ≤ 65535))
  intro heq
  have hnat := congrArg UInt16.toNat heq
  rw [hbetween, hassembled.toNat_offset hplace] at hnat
  have hbefore : ¬place ≤ index := by
    intro hle
    rcases Nat.lt_or_eq_of_le hle with hlt | rfl
    · have := hassembled.offsets_lt_of_lt hlt (Nat.le_of_lt hindex)
      omega
    · omega
  have hafter : ¬index + 1 < place := fun hlt => by
    have := hassembled.offsets_lt_of_lt hlt hplace
    omega
  obtain rfl : place = index + 1 := by omega
  omega

/-- **Lines.** The pieces, with labels and frames where they are, are the lines of the code as it is
spelled out. -/
theorem lines_eq (hlaid : code.LaidOut pool bytecode operands wide offsets layout)
    {length : UInt16} {labels : OffsetLabels}
    (hlabels : labels = (OffsetLabels.empty length).addAll
      (code.askedOffsets operands wide offsets layout.placement.final)) :
    ((code.allPieces operands wide offsets layout.placement.final).map fun piece =>
      CodeLine.mk labels.labels[UInt16.ofNat piece.offset]?
        (Std.HashMap.ofList (code.foundFrames offsets layout.placement.final
          labels.name))[UInt16.ofNat piece.offset]?
        (piece.instruction.map labels.name)) =
      (code.spelled Condition.negate offsets (fun place => labels.name (UInt16.ofNat (offsets place)))
        fun name => labels.name (layout.placement.final name)).dropUnused.lines := by
  have hlabel : ∀ offset, labels.labels[offset]? = (some (labels.name offset)).filter
      (· ∈ (code.askedOffsets operands wide offsets layout.placement.final).map labels.name) := by
    subst hlabels
    exact OffsetLabels.getElem?_addAll_empty length _
  rw [dropUnused, hlaid.spelled_references, hlaid.spelled_lines, allPieces, List.map_flatMap,
    List.map_flatMap]
  refine List.flatMap_congr fun entry hentry => ?_
  obtain ⟨⟨line, operand⟩, index⟩ := entry
  have hline := List.mem_zipIdx_iff_getElem?.1 hentry
  have hframe := hlaid.assembled.getElem?_foundFrames labels.name
    (List.getElem?_zip_eq_some.1 hline).1
  obtain ⟨condition, target, -, hfar, hpieces, hspelled⟩ | ⟨_, hpieces, hspelled⟩ :=
    hlaid.piecesOf_cases hline (labels.name (UInt16.ofNat (offsets index)))
      (labels.name (UInt16.ofNat (offsets (index + 1))))
      fun name => labels.name (layout.placement.final name)
  · have hindex : index < code.lines.length :=
      hlaid.length_zip ▸ (List.getElem?_eq_some_iff.1 hline).1
    have hnoLabel : labels.labels[UInt16.ofNat (offsets index + 3)]? = none := by
      refine OffsetLabels.getElem?_eq_none fun hmem => ?_
      rw [hlabels, OffsetLabels.mem_addAll] at hmem
      obtain hasked | hempty := hmem
      · obtain ⟨place, hplace, heq⟩ := hlaid.exists_place_of_asked hasked
        exact hlaid.between_ne hindex hfar hplace heq
      · simp [OffsetLabels.empty] at hempty
    have hnoFrame : (Std.HashMap.ofList (code.foundFrames offsets layout.placement.final
        labels.name))[UInt16.ofNat (offsets index + 3)]? = none :=
      Assembled.getElem?_foundFrames_eq_none (fun framed hframed heq =>
        hlaid.between_ne hindex hfar (Nat.le_of_lt (Assembled.framedLines_lt hframed)) heq.symm) _
    rw [hpieces, hspelled]
    simp only [List.map_cons, List.map_nil, hnoLabel, hnoFrame, hframe]
    rw [hlabel]
    rfl
  · rw [hpieces, hspelled, List.map_singleton, List.map_singleton, hlabel, hframe,
      Instruction.map_map]
    rfl

theorem pieces_readable (hlaid : code.LaidOut pool bytecode operands wide offsets layout)
    (hreadable : code.IsReadable offsets) :
    ∀ piece ∈ code.allPieces operands wide offsets layout.placement.final,
      piece.instruction.isEmptyTable = false ∧
        ∀ target ∈ piece.instruction.targets, target < UInt16.ofNat bytecode.code.length := by
  have hassembled := hlaid.assembled
  have hlt : ∀ index < code.lines.length,
      UInt16.ofNat (offsets index) < UInt16.ofNat bytecode.code.length := by
    intro index hindex
    rw [← hassembled.offsets_length, UInt16.lt_iff_toNat_lt,
      hassembled.toNat_offset (Nat.le_of_lt hindex), hassembled.toNat_offset (Nat.le_refl _)]
    exact hassembled.offsets_lt_of_lt hindex (Nat.le_refl _)
  have htarget : ∀ label ∈ code.targets,
      layout.placement.final label < UInt16.ofNat bytecode.code.length := by
    intro label hlabel
    obtain ⟨index, line, hline, -, hat⟩ := hassembled.target label hlabel
    have hindex := hlt index (List.getElem?_eq_some_iff.1 hline).1
    rwa [← hat, UInt16.ofNat_toNat] at hindex
  intro piece hpiece
  obtain ⟨⟨⟨line, operand⟩, index⟩, hentry, hpiece⟩ := List.mem_flatMap.1 hpiece
  have hline := List.mem_zipIdx_iff_getElem?.1 hentry
  have hcodeLine := (List.getElem?_zip_eq_some.1 hline).1
  have hmem := List.mem_of_getElem? hcodeLine
  have htargets : ∀ label ∈ line.instruction.targets, label ∈ code.targets :=
    fun label hlabel => List.mem_flatMap.2 ⟨line, hmem, hlabel⟩
  obtain ⟨condition, target, hbranch, hfar, hpieces, -⟩ | ⟨_, hpieces, -⟩ :=
    hlaid.piecesOf_cases hline ⟨0⟩ ⟨0⟩ id
  · rw [hpieces] at hpiece
    simp only [List.mem_cons, List.not_mem_nil, or_false] at hpiece
    obtain rfl | rfl := hpiece
    · refine ⟨rfl, fun other hother => ?_⟩
      obtain rfl := List.mem_singleton.1 hother
      exact hlt (index + 1) (hreadable.next index line hcodeLine (by rw [hbranch]; rfl)
        (beq_iff_eq.2 hfar))
    · refine ⟨rfl, fun other hother => ?_⟩
      obtain rfl := List.mem_singleton.1 hother
      exact htarget target (htargets target (by rw [hbranch]; exact List.mem_singleton_self _))
  · rw [hpieces] at hpiece
    obtain rfl := List.mem_singleton.1 hpiece
    refine ⟨?_, fun other hother => ?_⟩
    · rw [Instruction.isEmptyTable_map]
      exact hreadable.tables line hmem
    · rw [Instruction.targets_map] at hother
      obtain ⟨label, hlabel, rfl⟩ := List.mem_map.1 hother
      exact htarget label (htargets label hlabel)

theorem start_mem_pieces (hlaid : code.LaidOut pool bytecode operands wide offsets layout)
    {index : Nat} (hindex : index < code.lines.length) :
    ∃ piece ∈ code.allPieces operands wide offsets layout.placement.final,
      piece.offset = offsets index := by
  obtain ⟨operand, hline, -⟩ := hlaid.exists_operand (List.getElem?_eq_getElem hindex)
  have hentry : ((code.lines[index], operand), index) ∈ (code.lines.zip operands).zipIdx :=
    List.mem_zipIdx_iff_getElem?.2 hline
  obtain ⟨condition, target, -, -, hpieces, -⟩ | ⟨_, hpieces, -⟩ :=
    hlaid.piecesOf_cases hline ⟨0⟩ ⟨0⟩ id
  · exact ⟨_, List.mem_flatMap.2 ⟨_, hentry, hpieces ▸ List.mem_cons_self⟩, rfl⟩
  · exact ⟨_, List.mem_flatMap.2 ⟨_, hentry, hpieces ▸ List.mem_cons_self⟩, rfl⟩

theorem checkPlaces_eq_ok (hlaid : code.LaidOut pool bytecode operands wide offsets layout)
    {labels : OffsetLabels} (hlabels : labels = (OffsetLabels.empty
      (UInt16.ofNat bytecode.code.length)).addAll
        (code.askedOffsets operands wide offsets layout.placement.final)) :
    checkPlaces (UInt16.ofNat bytecode.code.length)
      (Std.HashSet.ofList ((code.allPieces operands wide offsets layout.placement.final).map
        fun piece => UInt16.ofNat piece.offset)) labels.offsets
      ((code.foundFrames offsets layout.placement.final labels.name).map Prod.fst) = .ok () := by
  have hassembled := hlaid.assembled
  have hstart : ∀ index < code.lines.length, UInt16.ofNat (offsets index) ∈
      Std.HashSet.ofList ((code.allPieces operands wide offsets layout.placement.final).map
        fun piece => UInt16.ofNat piece.offset) := by
    intro index hindex
    obtain ⟨piece, hpiece, hoffset⟩ := hlaid.start_mem_pieces hindex
    rw [Std.HashSet.mem_ofList, List.contains_eq_mem, decide_eq_true_iff, ← hoffset]
    exact List.mem_map_of_mem hpiece
  refine Code.checkPlaces_eq_ok ?_ ?_
  · intro offset hoffset
    rw [hlabels, ((OffsetLabels.isNumbered_empty _).addAll _).mem_iff, OffsetLabels.mem_addAll]
      at hoffset
    obtain hasked | hempty := hoffset
    · obtain ⟨place, hplace, rfl⟩ := hlaid.exists_place_of_asked hasked
      rcases Nat.lt_or_eq_of_le hplace with hlt | rfl
      · exact .inl (hstart place hlt)
      · exact .inr (by rw [hassembled.offsets_length])
    · simp [OffsetLabels.empty] at hempty
  · intro offset hoffset
    rw [foundFrames, List.map_map] at hoffset
    obtain ⟨framed, hframed, rfl⟩ := List.mem_map.1 hoffset
    exact hstart framed.1 (Assembled.framedLines_lt hframed)

/-- **Disassembly.** Assembled code that can be read is read as it is spelled out, without the labels
that nothing refers to. -/
theorem disassemble_eq (hlaid : code.LaidOut pool bytecode operands wide offsets layout)
    (hothers : ∀ other ∈ code.attributes, other.value.isCodeTable = false)
    (hreadable : code.IsReadable offsets)
    (hwithin : code.TablesWithin (UInt16.ofNat bytecode.code.length) layout.placement.final)
    {labels : OffsetLabels} (hlabels : labels = (OffsetLabels.empty
      (UInt16.ofNat bytecode.code.length)).addAll
        (code.askedOffsets operands wide offsets layout.placement.final)) :
    disassemble pool bytecode = .ok (code.spelled Condition.negate offsets
      (fun place => labels.name (UInt16.ofNat (offsets place)))
      fun name => labels.name (layout.placement.final name)).dropUnused := by
  have hassembled := hlaid.assembled
  have hpieces := hlaid.pieces
  have hlength : (bytecode.code.isEmpty || CodeAttribute.maxLength < bytecode.code.length) =
      false := by
    have hpos := hassembled.length_pos
    have hle := hassembled.length_le
    cases hcode : bytecode.code with
    | nil => simp [hcode] at hpos
    | cons byte bytes =>
      rw [hcode] at hle
      simpa using hle
  have houtline := hpieces.outline (Nat.lt_succ_of_le hassembled.length_le)
    (fun piece hpiece => (hlaid.pieces_readable hreadable piece hpiece).1)
    fun piece hpiece => (hlaid.pieces_readable hreadable piece hpiece).2
  obtain ⟨frames, htables⟩ :=
    Labeling.Asks.labelTables (UInt16.ofNat bytecode.code.length) hassembled hothers
  have hasked : labels = ((OffsetLabels.empty (UInt16.ofNat bytecode.code.length)).addAll
      (Pieces.outlineOf (code.allPieces operands wide offsets layout.placement.final)).targets).addAll
      (code.splitVariables.tableReferences.map layout.placement.final) := by
    rw [hlabels, askedOffsets, OffsetLabels.addAll_append, Pieces.targets_outlineOf]
  have hfound := (htables.run ((OffsetLabels.empty (UInt16.ofNat bytecode.code.length)).addAll
    (Pieces.outlineOf (code.allPieces operands wide offsets layout.placement.final)).targets)
    (OffsetLabels.length_addAll _) _).2 ⟨hwithin, rfl⟩
  rw [← hasked] at hfound
  refine disassemble_eq_ok_iff.2 ⟨hlength, _, houtline, _, _, _, labels, hfound, ?_, _,
    hpieces.sweep_readLabeled (Nat.lt_succ_of_le hassembled.length_le) ?_, ?_⟩
  · rw [Pieces.outlineOf, List.map_map]
    exact hlaid.checkPlaces_eq_ok hlabels
  · intro piece hpiece target htarget
    rw [hlabels, OffsetLabels.mem_addAll]
    exact .inl (List.mem_append_left _ (List.mem_flatMap.2 ⟨piece, hpiece, htarget⟩))
  · have hlines := hlaid.lines_eq hlabels
    have hend : labels.labels[UInt16.ofNat bytecode.code.length]? =
        (some (labels.name (UInt16.ofNat (offsets code.lines.length)))).filter
          (· ∈ (code.spelled Condition.negate offsets
            (fun place => labels.name (UInt16.ofNat (offsets place)))
            fun name => labels.name (layout.placement.final name)).references) := by
      rw [hlaid.spelled_references, hassembled.offsets_length, hlabels]
      exact OffsetLabels.getElem?_addAll_empty _ _ _
    rw [dropUnused] at hlines ⊢
    rw [ofRead, List.map_map, hend, hassembled.maxStack, hassembled.maxLocals]
    refine Code.mk.injEq .. ▸ ⟨rfl, rfl, hlines, rfl, rfl, ?_, ?_, ?_⟩
    · rw [foundTables, foundLines, Option.map_map]
      rfl
    · rw [foundTables, foundVariables, Option.map_map, splitVariables, Option.map_map]
      simp only [spelled, spellOut, relabel, splitVariables, Option.map_map, Function.comp_def,
        Variable.split_rename]
    · rw [foundTables]
      rfl

theorem toNat_final_of_mark (hlaid : code.LaidOut pool bytecode operands wide offsets layout)
    {place : Nat} {label : Label} (hmark : code.marks[place]? = some (some label)) :
    (layout.placement.final label).toNat = offsets place := by
  rw [← hlaid.marks_eq] at hmark
  exact hlaid.settled.toNat_final (hlaid.settled.distinct place label hmark)

/-- If all labels of tables are at lines, except where ranges end, the tables can be read. -/
theorem tablesWithin (hlaid : code.LaidOut pool bytecode operands wide offsets layout)
    (hinner : ∀ label ∈ code.innerReferences, ∃ line ∈ code.lines, line.label = some label) :
    code.TablesWithin (UInt16.ofNat bytecode.code.length) layout.placement.final := by
  have hassembled := hlaid.assembled
  have hlength := hassembled.toNat_offset (Nat.le_refl code.lines.length)
  rw [hassembled.offsets_length] at hlength
  have hlt : ∀ label ∈ code.innerReferences,
      layout.placement.final label < UInt16.ofNat bytecode.code.length := by
    intro label hlabel
    obtain ⟨line, hmem, hline⟩ := hinner label hlabel
    obtain ⟨index, hindex⟩ := List.getElem?_of_mem hmem
    have hbound := (List.getElem?_eq_some_iff.1 hindex).1
    have hmark : code.marks[index]? = some (some label) := by
      rw [marks, List.getElem?_append_left (by simpa using hbound), List.getElem?_map, hindex,
        Option.map_some, hline]
    rw [UInt16.lt_iff_toNat_lt, hlaid.toNat_final_of_mark hmark, hlength,
      ← hassembled.offsets_length]
    exact hassembled.offsets_lt_of_lt hbound (Nat.le_refl _)
  have hle : ∀ label ∈ code.references,
      layout.placement.final label ≤ UInt16.ofNat bytecode.code.length := by
    intro label hlabel
    obtain ⟨-, place, hmark, hat⟩ := hassembled.placed label hlabel
    have hbound := (List.getElem?_eq_some_iff.1 hmark).1
    rw [marks, List.length_append, List.length_map, List.length_singleton] at hbound
    rw [UInt16.le_iff_toNat_le, hat, hlength]
    exact hassembled.offsets_le (Nat.le_of_lt_succ hbound)
  have hvariable : ∀ source ∈ code.localVariables.getD [],
      layout.placement.final source.range.start < UInt16.ofNat bytecode.code.length ∧
        layout.placement.final source.range.stop ≤ UInt16.ofNat bytecode.code.length := by
    intro source hsource
    refine ⟨hlt _ ?_, hle _ ?_⟩
    · simp only [innerReferences, List.mem_append]
      exact .inl (.inr (List.mem_map_of_mem hsource))
    · simp only [references, tableReferences, List.mem_append]
      exact .inr (.inl (.inr (List.mem_flatMap.2 ⟨source, hsource, by simp⟩)))
  exact {
    handlers := by
      intro handler hhandler
      refine ⟨hlt _ ?_, hle _ ?_, hlt _ ?_⟩
      · simp only [innerReferences, List.mem_append]
        exact .inl (.inl (.inl (List.mem_flatMap.2 ⟨handler, hhandler, by simp⟩)))
      · simp only [references, tableReferences, List.mem_append]
        exact .inr (.inl (.inl (.inl (List.mem_flatMap.2 ⟨handler, hhandler, by simp⟩))))
      · simp only [innerReferences, List.mem_append]
        exact .inl (.inl (.inl (List.mem_flatMap.2 ⟨handler, hhandler, by simp⟩)))
    lineNumbers := by
      intro line hline
      refine hlt _ ?_
      simp only [innerReferences, List.mem_append]
      exact .inl (.inl (.inr (List.mem_map_of_mem hline)))
    localVariables := by
      intro source hsource
      cases hsources : code.localVariables with
      | none =>
        rw [splitVariables, hsources] at hsource
        cases hsource
      | some sources =>
        rw [splitVariables, hsources] at hsource
        obtain ⟨other, hother, hrange⟩ := Variable.exists_of_mem_split hsource
        rw [← hrange]
        exact hvariable other (hsources ▸ hother)
    origins := by
      intro origin horigin
      refine hlt _ ?_
      simp only [innerReferences, List.mem_append]
      exact .inr horigin }

end LaidOut

theorem isReadable_of_getLast?
    (htables : ∀ line ∈ code.lines, line.instruction.isEmptyTable = false)
    (hlast : ∀ line ∈ code.lines.getLast?, line.instruction.isBranch = false)
    (offsets : Nat → Nat) : code.IsReadable offsets := by
  refine ⟨htables, fun index line hline hbranch _ => ?_⟩
  have hindex := (List.getElem?_eq_some_iff.1 hline).1
  by_contra hend
  have hget : code.lines.getLast? = some line := by
    rw [List.getLast?_eq_getElem?, ← hline]
    congr 1
    omega
  rw [hlast line hget] at hbranch
  cases hbranch

section

variable {padding : Nat}

theorem isEmptyTable_countdown :
    ∀ line ∈ (countdown padding).lines, line.instruction.isEmptyTable = false :=
  forall_lines_countdown (by decide)

theorem isBranch_getLast?_countdown :
    ∀ line ∈ (countdown padding).lines.getLast?, line.instruction.isBranch = false := by
  have hlast : (countdown padding).lines.getLast? =
      some ⟨some ⟨1⟩, some .same, .plain .voidReturn⟩ := by
    rw [countdown, List.getLast?_append]
    rfl
  rw [hlast]
  rintro line ⟨⟩
  rfl

theorem exists_line_of_innerReferences_countdown :
    ∀ label ∈ (countdown padding).innerReferences,
      ∃ line ∈ (countdown padding).lines, line.label = some label := by
  have hinner : (countdown padding).innerReferences = [⟨0⟩, ⟨1⟩, ⟨0⟩] := by
    rw [innerReferences, origins_countdown]
    rfl
  have hlast : ⟨some ⟨1⟩, some .same, .plain .voidReturn⟩ ∈ (countdown padding).lines := by
    simp [countdown]
  rw [hinner, List.forall_mem_cons, List.forall_mem_cons, List.forall_mem_singleton]
  exact ⟨⟨_, List.mem_cons_self, rfl⟩, ⟨_, hlast, rfl⟩, ⟨_, List.mem_cons_self, rfl⟩⟩

theorem exists_instructions_spelled_countdown {opposite : Condition → Condition}
    {offsets : Nat → Nat} {name : Nat → Label} {rename : Label → Label} (hfar : isFar offsets 1) :
    ∃ rest, ((countdown padding).spelled opposite offsets name rename).dropUnused.lines.map
        CodeLine.instruction =
      .onVariable .iLoad 0 :: .branch (opposite .ifEq) (name 2) :: .jump .goto (rename ⟨1⟩) ::
        rest := by
  have hlines : (countdown padding).lines.zipIdx =
      (⟨some ⟨0⟩, some .same, .onVariable .iLoad 0⟩, 0) ::
        (⟨none, none, .branch .ifEq ⟨1⟩⟩, 1) :: (countdown padding).lines.zipIdx.drop 2 := rfl
  rw [dropUnused, List.map_map, spelled_lines, hlines, List.flatMap_cons, List.flatMap_cons]
  dsimp only
  rw [hfar, CodeLine.spellOut_of_not_far fun hbranch => by cases hbranch]
  exact ⟨_, rfl⟩

theorem LaidOut.disassemble_countdown {pool : Pool} {bytecode : CodeAttribute}
    {operands : List Operand} {wide : Std.HashSet Nat} {offsets : Nat → Nat} {layout : Layout}
    (hlaid : (countdown padding).LaidOut pool bytecode operands wide offsets layout) :
    ∃ name rename, disassemble pool bytecode =
      .ok ((countdown padding).spelled Condition.negate offsets name rename).dropUnused :=
  ⟨_, _, hlaid.disassemble_eq (fun _ hother => by cases hother)
    (isReadable_of_getLast? isEmptyTable_countdown isBranch_getLast?_countdown _)
    (hlaid.tablesWithin exists_line_of_innerReferences_countdown) rfl⟩

theorem exists_disassemble_countdown {pool final : Pool} {bytecode : CodeAttribute}
    (hassemble : (countdown padding).assemble.run pool = (.ok bytecode, final)) :
    ∃ code, disassemble final bytecode = .ok code := by
  obtain ⟨operands, wide, offsets, layout, hlaid⟩ := exists_laidOut_of_assemble hassemble
  obtain ⟨name, rename, hdisassemble⟩ := hlaid.disassemble_countdown
  exact ⟨_, hdisassemble⟩

theorem exists_instructions_of_disassemble_countdown (hpadding : 32768 ≤ padding)
    {pool final : Pool} {bytecode : CodeAttribute} {result : Code}
    (hassemble : (countdown padding).assemble.run pool = (.ok bytecode, final))
    (hdisassemble : disassemble final bytecode = .ok result) :
    ∃ next target rest, result.lines.map CodeLine.instruction =
      .onVariable .iLoad 0 :: .branch .ifNe next :: .jump .goto target :: rest := by
  obtain ⟨operands, wide, offsets, layout, hlaid⟩ := exists_laidOut_of_assemble hassemble
  have hfar : isFar offsets 1 :=
    beq_iff_eq.2 (farBranchAt_countdown hpadding hlaid.assembled).stop_eq
  obtain ⟨name, rename, hread⟩ := hlaid.disassemble_countdown
  cases hread.symm.trans hdisassemble
  exact ⟨_, _, exists_instructions_spelled_countdown hfar⟩

end

/-- **Disassembling undoes assembling**, up to the names of labels and what bytecode does not
tell. -/
theorem exists_disassembled_of_assemble {pool final : Pool} {bytecode : CodeAttribute}
    (hassemble : code.assemble.run pool = (.ok bytecode, final))
    (hothers : ∀ other ∈ code.attributes, other.value.isCodeTable = false)
    (htables : ∀ line ∈ code.lines, line.instruction.isEmptyTable = false)
    (hlast : ∀ line, code.lines.getLast? = some line → line.instruction.isBranch = false)
    (hinner : ∀ label ∈ code.innerReferences, ∃ line ∈ code.lines, line.label = some label) :
    ∃ offsets offsetOf name rename opposite, code.Assembled final bytecode offsets offsetOf ∧
      (∀ first ≤ code.lines.length, ∀ second ≤ code.lines.length,
        name first = name second → first = second) ∧
      (∀ place label, code.marks[place]? = some (some label) → rename label = name place) ∧
      (∀ condition : Condition, condition.IsOpposite (opposite condition)) ∧
      disassemble final bytecode =
        .ok (code.spelled opposite offsets name rename).dropUnused := by
  obtain ⟨operands, wide, offsets, layout, hlaid⟩ := exists_laidOut_of_assemble hassemble
  have hdisassemble := hlaid.disassemble_eq hothers (isReadable_of_getLast? htables hlast _)
    (hlaid.tablesWithin hinner) rfl
  have hinjective := ((OffsetLabels.isNumbered_empty (UInt16.ofNat bytecode.code.length)).addAll
    (code.askedOffsets operands wide offsets layout.placement.final)).name_injective
  refine ⟨offsets, layout.placement.final, _, _, _, hlaid.assembled, ?_, ?_,
    Condition.isOpposite_negate, hdisassemble⟩
  · intro first hfirst second hsecond hname
    exact hlaid.assembled.ofNat_inj hfirst hsecond (hinjective hname)
  · intro place label hmark
    rw [← hlaid.toNat_final_of_mark hmark, UInt16.ofNat_toNat]

theorem exists_disassembled_countdown :
    ∃ bytecode, (countdown 40000).assemble.run Pool.empty = (.ok bytecode, Pool.empty) ∧
      ∃ offsets offsetOf name rename opposite,
        (countdown 40000).Assembled Pool.empty bytecode offsets offsetOf ∧
        (∀ first ≤ (countdown 40000).lines.length, ∀ second ≤ (countdown 40000).lines.length,
          name first = name second → first = second) ∧
        (∀ place label, (countdown 40000).marks[place]? = some (some label) →
          rename label = name place) ∧
        (∀ condition : Condition, condition.IsOpposite (opposite condition)) ∧
        disassemble Pool.empty bytecode =
          .ok ((countdown 40000).spelled opposite offsets name rename).dropUnused ∧
        ∃ rest, ((countdown 40000).spelled opposite offsets name rename).dropUnused.lines.map
            CodeLine.instruction =
          .onVariable .iLoad 0 :: .branch .ifNe (name 2) :: .jump .goto (rename ⟨1⟩) :: rest := by
  obtain ⟨bytecode, hassemble⟩ := @exists_assemble_countdown 40000 (by decide)
  obtain ⟨offsets, offsetOf, name, rename, opposite, hassembled, hname, hrename, hopposite,
    hdisassemble⟩ := exists_disassembled_of_assemble (hassemble Pool.empty) (by decide)
    isEmptyTable_countdown isBranch_getLast?_countdown exists_line_of_innerReferences_countdown
  refine ⟨bytecode, hassemble _, offsets, offsetOf, name, rename, opposite, hassembled, hname,
    hrename, hopposite, hdisassemble, ?_⟩
  have hfar : isFar offsets 1 :=
    beq_iff_eq.2 (farBranchAt_countdown (by decide) hassembled).stop_eq
  have hnegate : opposite .ifEq = .ifNe := (hopposite .ifEq).eq_negate
  rw [← hnegate]
  exact exists_instructions_spelled_countdown hfar

end Code

end JvmClass
