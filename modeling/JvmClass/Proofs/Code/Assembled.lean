import JvmClass.Code.Assembly
import JvmClass.Proofs.Code.Relaxation
import JvmClass.Proofs.Instruction.Spelling
import Mathlib.Data.List.Forall2

/-!
# Assembled code

What bytecode has to do with the list of instructions it was assembled from. Reading it at the
offset of a line gives the instruction of that line, with offsets in place of labels, and everything
else that refers to labels has their offsets as well. Only a conditional branch that is too far from
its target reads as something else: the opposite branch over a jump.
-/

namespace JvmClass

/-! ### Constants -/

def putOperandsOf (index : Nat) : List CodeLine → PoolM (List Operand)
  | [] => return []
  | line :: rest => do
    let operand ← PoolM.during (.instruction index) line.instruction.putOperand
    return operand :: (← putOperandsOf (index + 1) rest)

private theorem putOperandsFrom_eq (index : Nat) (found : List Operand) (lines : List CodeLine)
    (pool : Pool) :
    putOperandsFrom index found lines pool =
      ((found.reverse ++ ·) <$> putOperandsOf index lines).run pool := by
  induction lines generalizing index found pool with
  | nil => simp [putOperandsFrom, putOperandsOf]
  | cons line lines ih =>
    rw [putOperandsFrom, putOperandsOf, PoolM.run_map, PoolM.run_bind]
    rcases (PoolM.during (.instruction index) line.instruction.putOperand).run pool with
      ⟨_ | operand, next⟩
    · rfl
    · simp only [ih, PoolM.run_map, PoolM.run_bind, List.reverse_cons]
      rcases (putOperandsOf (index + 1) lines).run next with ⟨_ | operands, last⟩
      · rfl
      · simp [Except.map]

theorem putOperands_eq (lines : List CodeLine) : putOperands lines = putOperandsOf 0 lines := by
  funext pool
  change putOperandsFrom 0 [] lines pool = _
  rw [putOperandsFrom_eq, PoolM.run_map]
  rcases hrun : (putOperandsOf 0 lines).run pool with ⟨_ | operands, last⟩ <;> exact hrun.symm

instance (index : Nat) (lines : List CodeLine) : PoolM.Lawful (putOperandsOf index lines) := by
  induction lines generalizing index with
  | nil =>
    unfold putOperandsOf
    infer_instance
  | cons line lines ih =>
    unfold putOperandsOf
    have := ih (index + 1)
    infer_instance

theorem yields_putOperandsOf (index : Nat) (lines : List CodeLine) :
    (putOperandsOf index lines).Yields fun operands later =>
      List.Forall₂ (fun line operand => line.instruction.OperandIn later operand) lines operands := by
  induction lines generalizing index with
  | nil => exact PoolM.Yields.pure fun _ => .nil
  | cons line lines ih =>
    refine PoolM.Yields.bind (.during _ (Instruction.yields_putOperand line.instruction))
      fun operand => ?_
    refine PoolM.Yields.bind (ih (index + 1)) fun operands => ?_
    exact PoolM.Yields.pure fun later hrest hfirst => .cons hfirst hrest

theorem operandsIn_of_putOperands {lines : List CodeLine} {operands : List Operand}
    {pool final : Pool} (hput : (putOperands lines).run pool = (.ok operands, final)) :
    List.Forall₂ (fun line operand => line.instruction.OperandIn final operand) lines operands := by
  rw [putOperands_eq] at hput
  exact yields_putOperandsOf 0 lines pool operands final hput final (.refl _)

/-- Lines that need no constants leave the pool as it is. -/
theorem run_putOperands_of_pure {lines : List CodeLine}
    (hlines : ∀ line ∈ lines, line.instruction.putOperand = pure ⟨0, 0⟩) (pool : Pool) :
    (putOperands lines).run pool = (.ok (List.replicate lines.length ⟨0, 0⟩), pool) := by
  rw [putOperands_eq]
  generalize 0 = index
  induction lines generalizing index with
  | nil => rfl
  | cons line lines ih =>
    obtain ⟨hline, hrest⟩ := List.forall_mem_cons.1 hlines
    rw [putOperandsOf, hline]
    refine PoolM.run_bind_of_run rfl ?_
    exact PoolM.run_bind_of_run (ih hrest (index + 1)) rfl

/-! ### What code refers to -/

namespace Code

/-- The labels at the places of code. -/
def marks (code : Code) : Marks :=
  code.lines.map CodeLine.label ++ [code.endLabel]

def targets (code : Code) : List Label :=
  code.lines.flatMap fun line => line.instruction.targets

/-- The labels of instructions that created the uninitialized objects in frames. -/
def origins (code : Code) : List Label :=
  code.lines.flatMap fun line => line.frame.elim [] Frame.origins

/-- The labels that handlers, tables and frames refer to. -/
def tableReferences (code : Code) : List Label :=
  code.handlers.flatMap (fun handler => [handler.start, handler.stop, handler.handler])
    ++ (code.lineNumbers.getD []).map Prod.fst
    ++ (code.localVariables.getD []).flatMap (fun source => [source.range.start, source.range.stop])
    ++ code.origins

def references (code : Code) : List Label :=
  code.targets ++ code.tableReferences

end Code

/-! ### Tables with offsets -/

section

variable (offsetOf : Label → UInt16)

def ExceptionHandler.entry (handler : ExceptionHandler) : ExceptionEntry :=
  ⟨offsetOf handler.start, offsetOf handler.stop, offsetOf handler.handler, handler.catchType⟩

def Variable.row (source : Variable) (type : Text) : LocalVariable :=
  ⟨offsetOf source.range.start, offsetOf source.range.stop - offsetOf source.range.start,
    source.name, type, source.index⟩

/-- The tables of variables by descriptor and by signature. There is always one, and no other that is
empty. -/
def Variable.tables (sources : List Variable) : List Attribute :=
  match sources.filterMap fun source => source.descriptor.map (source.row offsetOf),
      sources.filterMap fun source => source.signature.map (source.row offsetOf) with
  | described, [] => [⟨.ofString "LocalVariableTable", .localVariableTable described⟩]
  | [], signed => [⟨.ofString "LocalVariableTypeTable", .localVariableTypeTable signed⟩]
  | described, signed => [⟨.ofString "LocalVariableTable", .localVariableTable described⟩,
      ⟨.ofString "LocalVariableTypeTable", .localVariableTypeTable signed⟩]

namespace Code

variable (code : Code)

def lineNumberTables : List Attribute :=
  match code.lineNumbers with
  | none => []
  | some lines => [⟨.ofString "LineNumberTable",
      .lineNumberTable (lines.map fun (label, line) => ⟨offsetOf label, line⟩)⟩]

def variableTables : List Attribute :=
  code.localVariables.elim [] (Variable.tables offsetOf)

/-- The frames by the index of the instruction each stands with. -/
def framedLines : List (Nat × Frame Label) :=
  code.lines.zipIdx.filterMap fun (line, index) => line.frame.map fun frame => (index, frame)

end Code

end

/-- Frames by their offsets: the first is its delta into the code, and each later one is its delta
and one behind the frame before it. -/
def StackMapFrame.placed (previous : Option Nat) : List StackMapFrame → List (Nat × Frame UInt16)
  | [] => []
  | ⟨delta, frame⟩ :: rest =>
    let offset := previous.elim delta.toNat fun previous => previous + delta.toNat + 1
    (offset, frame) :: placed (some offset) rest

def frameTables : List StackMapFrame → List Attribute
  | [] => []
  | frames => [⟨.ofString "StackMapTable", .stackMapTable frames⟩]

/-! ### Assembled code -/

/-- Reading bytecode at an offset gives an instruction and goes on at another offset. -/
def ReadsAt (pool : Pool) (code : Bytes) (start : Nat) (instruction : Instruction UInt16)
    (stop : Nat) : Prop :=
  Instruction.read pool (UInt16.ofNat start) ⟨start, code.drop start⟩ =
    .ok (instruction, ⟨stop, code.drop stop⟩)

/-- A conditional branch that is too far from its target: the opposite condition skips a wide
jump. -/
structure FarBranchAt (pool : Pool) (code : Bytes) (start : Nat) (condition : Condition)
    (target : UInt16) (stop : Nat) : Prop where
  stop_eq : stop = start + 8
  skip : ∃ opposite, condition.IsOpposite opposite ∧
    ReadsAt pool code start (.branch opposite (UInt16.ofNat stop)) (start + 3)
  /-- A jump has this opcode if it is wide. -/
  wide : code[start + 3]? = some 0xc8
  jump : ReadsAt pool code (start + 3) (.jump .goto target) stop

/-- Bytecode is what a list of instructions stands for, with its lines at the given offsets. -/
structure Code.Assembled (code : Code) (pool : Pool) (bytecode : CodeAttribute)
    (offsets : Nat → Nat) (offsetOf : Label → UInt16) : Prop where
  offsets_zero : offsets 0 = 0
  offsets_lt : ∀ index < code.lines.length, offsets index < offsets (index + 1)
  offsets_length : offsets code.lines.length = bytecode.code.length
  length_pos : 0 < bytecode.code.length
  length_le : bytecode.code.length ≤ CodeAttribute.maxLength
  /-- Each label that something refers to is at one place. -/
  placed : ∀ label ∈ code.references, code.marks.count (some label) = 1 ∧
    ∃ place, code.marks[place]? = some (some label) ∧ (offsetOf label).toNat = offsets place
  /-- Instructions continue at instructions. -/
  target : ∀ label ∈ code.targets, ∃ index line, code.lines[index]? = some line ∧
    line.label = some label ∧ (offsetOf label).toNat = offsets index
  instruction : ∀ index line, code.lines[index]? = some line →
    ReadsAt pool bytecode.code (offsets index) (line.instruction.map offsetOf)
      (offsets (index + 1)) ∨
    ∃ condition target, line.instruction = .branch condition target ∧
      FarBranchAt pool bytecode.code (offsets index) condition (offsetOf target)
        (offsets (index + 1))
  maxStack : bytecode.maxStack = code.maxStack
  maxLocals : bytecode.maxLocals = code.maxLocals
  exceptionTable : bytecode.exceptionTable = code.handlers.map (·.entry offsetOf)
  /-- No variable ends before it starts. -/
  variables_le : ∀ source ∈ code.localVariables.getD [],
    offsetOf source.range.start ≤ offsetOf source.range.stop
  attributes : ∃ frames, StackMapFrame.placed none frames =
      (code.framedLines.map fun (index, frame) => (offsets index, frame.map offsetOf)) ∧
    bytecode.attributes = code.lineNumberTables offsetOf ++ code.variableTables offsetOf
      ++ frameTables frames ++ code.attributes

/-! ### Instructions -/

theorem Marks.count_eq_one {marks : Marks} (hdistinct : marks.IsDistinct) {label : Label}
    {place : Nat} (hplace : marks.placeOf? label = some place) : marks.count (some label) = 1 := by
  obtain ⟨hlt, hlabel⟩ := List.getElem?_eq_some_iff.1 (getElem?_of_placeOf? hplace)
  have honly : ∀ other, marks[other]? = some (some label) → other = place := by
    intro other hother
    have := hdistinct other label hother
    rw [hplace] at this
    exact (Option.some.inj this).symm
  have hsplit : marks = marks.take place ++ some label :: marks.drop (place + 1) := by
    rw [← hlabel, ← List.drop_eq_getElem_cons, List.take_append_drop]
  have hfront : some label ∉ marks.take place := by
    intro hmem
    obtain ⟨other, hother⟩ := List.getElem?_of_mem hmem
    have hlt : other < place := by
      have := (List.getElem?_eq_some_iff.1 hother).1
      rw [List.length_take] at this
      omega
    rw [List.getElem?_take_of_lt hlt] at hother
    exact Nat.ne_of_lt hlt (honly other hother)
  have hback : some label ∉ marks.drop (place + 1) := by
    intro hmem
    obtain ⟨other, hother⟩ := List.getElem?_of_mem hmem
    rw [List.getElem?_drop] at hother
    have := honly _ hother
    omega
  rw [hsplit, List.count_append, List.count_cons_self, List.count_eq_zero.2 hfront,
    List.count_eq_zero.2 hback]

theorem Instruction.isBranch_map {τ σ : Type} (f : τ → σ) (instruction : Instruction τ) :
    (instruction.map f).isBranch = instruction.isBranch := by
  cases instruction <;> rfl

/-- The bytes of an instruction are read back where they stand. -/
theorem readsAt_of_bytes {pool : Pool} {code : Bytes} {start stop : Nat} {wide : Bool}
    {operand : Operand} {instruction : Instruction UInt16} (hstart : start < 65536)
    (hoperand : instruction.OperandIn pool operand)
    (hreaches : instruction.ReachesFrom start wide) (hnear : instruction.isBranch → wide = false)
    (hcode : code.drop start = instruction.bytesAt start wide operand ++ code.drop stop)
    (hstop : start + (instruction.bytesAt start wide operand).length = stop)
    (hsize : stop < 2 ^ 31) :
    ReadsAt pool code start instruction stop := by
  obtain ⟨offset, rfl⟩ : ∃ offset : UInt16, start = offset.toNat :=
    ⟨UInt16.ofNat start, (UInt16.toNat_ofNat_of_lt' hstart).symm⟩
  have hreads := Instruction.reads_bytesAt hoperand hreaches hnear (by omega)
  rw [ReadsAt, UInt16.ofNat_toNat, hcode, hreads offset.toNat (code.drop stop), hstop]

theorem farBranchAt_of_bytes {pool : Pool} {code : Bytes} {start : Nat} {condition : Condition}
    {target : UInt16} {operand : Operand} (hstart : start + 8 < 65536)
    (hcode : code.drop start = Instruction.bytesAt start true operand (.branch condition target) ++
      code.drop (start + 8)) :
    FarBranchAt pool code start condition target (start + 8) := by
  obtain ⟨hskip, hjump⟩ := drop_far hstart hcode
  exact {
    stop_eq := rfl
    skip := ⟨condition.negate, condition.isOpposite_negate, readsAt_of_bytes (by omega) trivial
      (reaches_skip hstart condition.negate) (fun _ => rfl) hskip rfl (by omega)⟩
    wide := by
      rw [← List.head?_drop, hjump]
      rfl
    jump := readsAt_of_bytes (by omega) trivial (fun hshort => by cases hshort)
      (fun hbranch => by cases hbranch) hjump rfl (by omega) }

/-- A branch goes no farther than its two bytes can say. -/
theorem ReadsAt.fitsShort_of_branch {pool : Pool} {code : Bytes} {start stop : Nat}
    {condition : Condition} {target : UInt16} (hstart : start < 65536)
    (hreads : ReadsAt pool code start (.branch condition target) stop) :
    fitsShort ((target.toNat : Int) - start) := by
  obtain ⟨bytes, -, -, hspelled⟩ := Instruction.spells_read _ _ _ hreads
  rw [UInt16.toNat_ofNat_of_lt' hstart] at hspelled
  generalize hlocated : Instruction.located (.branch condition target) = located at hspelled
  cases hspelled with
  | branch condition distance =>
    injection hlocated with _ htarget
    have hdistance : (target.toNat : Int) = start + distance.toInt := htarget
    have hlower := distance.le_toInt
    have hupper := distance.toInt_lt
    rw [fitsShort_iff]
    omega
  | _ => cases hlocated

/-! ### Tables -/

namespace Placement

variable {placement : Placement}

theorem offsetOf_eq_ok_iff {label : Label} {offset : UInt16} :
    placement.offsetOf label = .ok offset ↔ label ∈ placement ∧ placement.final label = offset := by
  unfold offsetOf final
  rw [Std.HashMap.mem_iff_isSome_getElem?]
  cases placement[label]? <;> simp

theorem offsetOf_of_mem {label : Label} (hlabel : label ∈ placement) :
    placement.offsetOf label = .ok (placement.final label) :=
  offsetOf_eq_ok_iff.2 ⟨hlabel, rfl⟩

theorem exceptionEntry_eq_ok_iff {handler : ExceptionHandler} {entry : ExceptionEntry} :
    placement.exceptionEntry handler = .ok entry ↔
      (handler.start ∈ placement ∧ handler.stop ∈ placement ∧ handler.handler ∈ placement) ∧
        handler.entry placement.final = entry := by
  constructor
  · intro hentry
    obtain ⟨start, hstart, hentry⟩ := Result.exists_of_bind hentry
    obtain ⟨stop, hstop, hentry⟩ := Result.exists_of_bind hentry
    obtain ⟨offset, hoffset, hentry⟩ := Result.exists_of_bind hentry
    obtain ⟨hstartPlaced, rfl⟩ := offsetOf_eq_ok_iff.1 hstart
    obtain ⟨hstopPlaced, rfl⟩ := offsetOf_eq_ok_iff.1 hstop
    obtain ⟨hhandlerPlaced, rfl⟩ := offsetOf_eq_ok_iff.1 hoffset
    exact ⟨⟨hstartPlaced, hstopPlaced, hhandlerPlaced⟩, Except.ok.inj hentry⟩
  · rintro ⟨⟨hstart, hstop, hhandler⟩, rfl⟩
    simp only [exceptionEntry, offsetOf_of_mem hstart, offsetOf_of_mem hstop,
      offsetOf_of_mem hhandler]
    rfl

theorem lineNumber_eq_ok_iff {line : Label × UInt16} {row : LineNumber} :
    placement.lineNumber line = .ok row ↔
      line.1 ∈ placement ∧ ⟨placement.final line.1, line.2⟩ = row := by
  constructor
  · intro hrow
    obtain ⟨start, hstart, hrow⟩ := Result.exists_of_bind hrow
    obtain ⟨hplaced, rfl⟩ := offsetOf_eq_ok_iff.1 hstart
    exact ⟨hplaced, Except.ok.inj hrow⟩
  · rintro ⟨hplaced, rfl⟩
    simp only [lineNumber, offsetOf_of_mem hplaced]
    rfl

theorem rangeOf_eq_ok_iff {range : LabelRange} {found : UInt16 × UInt16} :
    placement.rangeOf range = .ok found ↔
      (range.start ∈ placement ∧ range.stop ∈ placement) ∧
        placement.final range.start ≤ placement.final range.stop ∧
        (placement.final range.start, placement.final range.stop - placement.final range.start) =
          found := by
  constructor
  · intro hrange
    obtain ⟨first, hfirst, hrange⟩ := Result.exists_of_bind hrange
    obtain ⟨last, hlast, hrange⟩ := Result.exists_of_bind hrange
    obtain ⟨hstart, rfl⟩ := offsetOf_eq_ok_iff.1 hfirst
    obtain ⟨hstop, rfl⟩ := offsetOf_eq_ok_iff.1 hlast
    split at hrange
    · cases hrange
    · rename_i hle
      exact ⟨⟨hstart, hstop⟩, UInt16.not_lt.1 hle, Except.ok.inj hrange⟩
  · rintro ⟨⟨hstart, hstop⟩, hle, rfl⟩
    have hlt := UInt16.not_lt.2 hle
    simp only [rangeOf, offsetOf_of_mem hstart, offsetOf_of_mem hstop]
    change (if _ then _ else _) = _
    rw [if_neg hlt]
    rfl

/-- A variable has a type and does not end before it starts. -/
def IsVariable (placement : Placement) (source : Variable) : Prop :=
  (source.descriptor.isSome ∨ source.signature.isSome) ∧
    (source.range.start ∈ placement ∧ source.range.stop ∈ placement) ∧
    placement.final source.range.start ≤ placement.final source.range.stop

theorem variableRows_eq_ok_iff {source : Variable}
    {rows : Option LocalVariable × Option LocalVariable} :
    placement.variableRows source = .ok rows ↔
      placement.IsVariable source ∧
        (source.descriptor.map (source.row placement.final),
          source.signature.map (source.row placement.final)) = rows := by
  unfold variableRows
  have htyped : (source.descriptor.isNone && source.signature.isNone) = true ↔
      ¬ (source.descriptor.isSome ∨ source.signature.isSome) := by
    cases source.descriptor <;> cases source.signature <;> simp
  constructor
  · intro hrows
    split at hrows
    · cases hrows
    · rename_i hnone
      obtain ⟨⟨start, length⟩, hrange, hrows⟩ := Result.exists_of_bind hrows
      obtain ⟨hplaced, hle, hfound⟩ := rangeOf_eq_ok_iff.1 (Result.during_eq_ok_iff.1 hrange)
      cases hfound
      exact ⟨⟨not_not.1 (htyped.not.1 hnone), hplaced, hle⟩, Except.ok.inj hrows⟩
  · rintro ⟨⟨hsome, hplaced, hle⟩, rfl⟩
    have hrange := rangeOf_eq_ok_iff.2 ⟨hplaced, hle, rfl⟩
    rw [if_neg (htyped.not.2 (not_not.2 hsome)),
      Result.during_eq_ok_iff.2 hrange]
    rfl

theorem variableTables_eq_ok_iff {sources : List Variable} {values : List AttributeValue} :
    placement.variableTables sources = .ok values ↔
      (∀ source ∈ sources, placement.IsVariable source) ∧
        (Variable.tables placement.final sources).map Attribute.value = values := by
  have htables : (Variable.tables placement.final sources).map Attribute.value =
      let rows := sources.map fun source => (source.descriptor.map (source.row placement.final),
        source.signature.map (source.row placement.final))
      let descriptors := rows.filterMap Prod.fst
      let signatures := rows.filterMap Prod.snd
      (if descriptors.isEmpty && !signatures.isEmpty then []
        else [.localVariableTable descriptors]) ++
      (if signatures.isEmpty then [] else [.localVariableTypeTable signatures]) := by
    simp only [Variable.tables, List.filterMap_map, Function.comp_def]
    generalize (sources.filterMap fun source =>
      source.descriptor.map (source.row placement.final)) = described
    generalize (sources.filterMap fun source =>
      source.signature.map (source.row placement.final)) = signed
    cases signed <;> cases described <;> rfl
  constructor
  · intro hvalues
    obtain ⟨rows, hrows, hvalues⟩ := Result.exists_of_bind hvalues
    obtain ⟨hvariables, rfl⟩ :=
      (Result.mapM_eq_ok_iff fun _ _ => variableRows_eq_ok_iff).1 hrows
    exact ⟨hvariables, htables.trans (Except.ok.inj hvalues)⟩
  · rintro ⟨hvariables, rfl⟩
    rw [variableTables, (Result.mapM_eq_ok_iff fun _ _ => variableRows_eq_ok_iff).2
      ⟨hvariables, rfl⟩, htables]
    rfl

theorem mapM_frame_eq_ok_iff {frame : Frame Label} {result : Frame UInt16} :
    frame.mapM placement.offsetOf = .ok result ↔
      (∀ origin ∈ frame.origins, origin ∈ placement) ∧ frame.map placement.final = result := by
  constructor
  · intro hmapM
    have hplaced : ∀ origin ∈ frame.origins, origin ∈ placement := by
      intro origin horigin
      obtain ⟨offset, hoffset⟩ := Frame.exists_of_mapM hmapM horigin
      exact (offsetOf_eq_ok_iff.1 hoffset).1
    rw [Frame.mapM_eq_pure_map fun origin horigin => offsetOf_of_mem (hplaced origin horigin)]
      at hmapM
    exact ⟨hplaced, Except.ok.inj hmapM⟩
  · rintro ⟨hplaced, rfl⟩
    exact Frame.mapM_eq_pure_map fun origin horigin => offsetOf_of_mem (hplaced origin horigin)

/-- Frames as stored, the first of which comes after the one at `previous`. -/
def storedFrames (final : Label → UInt16) (previous : Option UInt16) :
    List (Frame Label × UInt16) → List StackMapFrame
  | [] => []
  | (frame, offset) :: rest =>
    let delta := previous.elim offset fun previous => offset - previous - 1
    ⟨delta, frame.map final⟩ :: storedFrames final (some offset) rest

theorem framesFrom_eq_ok_iff {previous : Option UInt16} {found : List StackMapFrame}
    {framed : List (Frame Label × UInt16)} {frames : List StackMapFrame} :
    placement.framesFrom previous found framed = .ok frames ↔
      (∀ frame ∈ framed, ∀ origin ∈ frame.1.origins, origin ∈ placement) ∧
        found.reverse ++ storedFrames placement.final previous framed = frames := by
  induction framed generalizing previous found with
  | nil => simp [framesFrom, storedFrames]
  | cons first framed ih =>
    obtain ⟨frame, offset⟩ := first
    simp only [framesFrom]
    rw [List.forall_mem_cons]
    cases hframe : frame.mapM placement.offsetOf with
    | error error =>
      refine ⟨fun h => (by cases h), fun ⟨⟨hplaced, _⟩, _⟩ => ?_⟩
      rw [mapM_frame_eq_ok_iff.2 ⟨hplaced, rfl⟩] at hframe
      cases hframe
    | ok result =>
      obtain ⟨hplaced, rfl⟩ := mapM_frame_eq_ok_iff.1 hframe
      rw [ih, and_iff_right hplaced]
      cases previous <;> simp [storedFrames]

end Placement

namespace Code

variable {code : Code}

def framed (code : Code) (layout : Layout) : List (Frame Label × UInt16) :=
  (code.lines.filterMap CodeLine.frame).zip layout.frameOffsets.toList

/-- All labels in the tables for debugging and in the frames are placed. -/
structure TablesPlaced (code : Code) (layout : Layout) : Prop where
  lineNumbers : ∀ line ∈ code.lineNumbers.getD [], line.1 ∈ layout.placement
  localVariables : ∀ source ∈ code.localVariables.getD [], layout.placement.IsVariable source
  frames : ∀ frame ∈ code.framed layout, ∀ origin ∈ frame.1.origins, origin ∈ layout.placement

theorem lineNumberTables_eq_ok_iff {placement : Placement} {values : List AttributeValue} :
    placement.lineNumberTables code.lineNumbers = .ok values ↔
      (∀ line ∈ code.lineNumbers.getD [], line.1 ∈ placement) ∧
        (code.lineNumberTables placement.final).map Attribute.value = values := by
  unfold lineNumberTables
  cases code.lineNumbers with
  | none => simp [Placement.lineNumberTables]
  | some lines =>
    constructor
    · intro hvalues
      obtain ⟨rows, hrows, hvalues⟩ := Result.exists_of_bind hvalues
      obtain ⟨hlines, rfl⟩ := (Result.mapM_eq_ok_iff fun _ _ =>
        Placement.lineNumber_eq_ok_iff).1 (Result.during_eq_ok_iff.1 hrows)
      exact ⟨hlines, Except.ok.inj hvalues⟩
    · rintro ⟨hlines, rfl⟩
      have hrows : lines.mapM placement.lineNumber = .ok _ :=
        (Result.mapM_eq_ok_iff fun _ _ => Placement.lineNumber_eq_ok_iff).2 ⟨hlines, rfl⟩
      rw [Placement.lineNumberTables, Result.during_eq_ok_iff.2 hrows]
      rfl

theorem allVariableTables_eq_ok_iff {placement : Placement} {values : List AttributeValue} :
    placement.allVariableTables code.localVariables = .ok values ↔
      (∀ source ∈ code.localVariables.getD [], placement.IsVariable source) ∧
        (code.variableTables placement.final).map Attribute.value = values := by
  unfold variableTables
  cases code.localVariables with
  | none => simp [Placement.allVariableTables]
  | some sources => exact Placement.variableTables_eq_ok_iff

theorem frameTables_eq (frames : List StackMapFrame) :
    (if frames.isEmpty then [] else [.stackMapTable frames]) =
      (frameTables frames).map Attribute.value := by
  cases frames <;> rfl

def tablesIn (code : Code) (layout : Layout) : List Attribute :=
  code.lineNumberTables layout.placement.final ++ code.variableTables layout.placement.final
    ++ frameTables (Placement.storedFrames layout.placement.final none (code.framed layout))

theorem cases_of_mem_tablesIn {layout : Layout} {table : Attribute}
    (htable : table ∈ code.tablesIn layout) :
    (∃ rows, table = ⟨.ofString "LineNumberTable", .lineNumberTable rows⟩) ∨
    (∃ rows, table = ⟨.ofString "LocalVariableTable", .localVariableTable rows⟩) ∨
    (∃ rows, table = ⟨.ofString "LocalVariableTypeTable", .localVariableTypeTable rows⟩) ∨
    ∃ frames, table = ⟨.ofString "StackMapTable", .stackMapTable frames⟩ := by
  simp only [tablesIn, List.mem_append] at htable
  obtain (htable | htable) | htable := htable
  · unfold lineNumberTables at htable
    split at htable
    · cases htable
    · exact .inl ⟨_, List.mem_singleton.1 htable⟩
  · unfold variableTables at htable
    cases hvariables : code.localVariables with
    | none =>
      rw [hvariables] at htable
      cases htable
    | some sources =>
      rw [hvariables, Option.elim_some, Variable.tables] at htable
      split at htable
      · exact .inr (.inl ⟨_, List.mem_singleton.1 htable⟩)
      · exact .inr (.inr (.inl ⟨_, List.mem_singleton.1 htable⟩))
      · obtain htable | htable := List.mem_pair.1 htable
        · exact .inr (.inl ⟨_, htable⟩)
        · exact .inr (.inr (.inl ⟨_, htable⟩))
  · unfold frameTables at htable
    split at htable
    · cases htable
    · exact .inr (.inr (.inr ⟨_, List.mem_singleton.1 htable⟩))

theorem filterMap_ofValue?_tablesIn (code : Code) (layout : Layout) :
    ((code.tablesIn layout).map Attribute.value).filterMap Attribute.ofValue? =
      code.tablesIn layout := by
  have hnamed : ∀ table ∈ code.tablesIn layout, Attribute.ofValue? table.value = some table := by
    intro table htable
    obtain ⟨_, rfl⟩ | ⟨_, rfl⟩ | ⟨_, rfl⟩ | ⟨_, rfl⟩ := cases_of_mem_tablesIn htable <;> rfl
  rw [List.filterMap_map]
  exact (List.filterMap_congr hnamed).trans List.filterMap_some

theorem tableValues_eq_ok_iff {layout : Layout} {values : List AttributeValue} :
    code.tableValues layout = .ok values ↔
      code.TablesPlaced layout ∧ (code.tablesIn layout).map Attribute.value = values := by
  rw [tablesIn, List.map_append, List.map_append]
  constructor
  · intro hvalues
    obtain ⟨lineTables, hlines, hvalues⟩ := Result.exists_of_bind hvalues
    obtain ⟨variableTables, hvariables, hvalues⟩ := Result.exists_of_bind hvalues
    obtain ⟨frames, hframes, hvalues⟩ := Result.exists_of_bind hvalues
    obtain ⟨hlinesPlaced, rfl⟩ := lineNumberTables_eq_ok_iff.1 hlines
    obtain ⟨hvariablesPlaced, rfl⟩ := allVariableTables_eq_ok_iff.1 hvariables
    obtain ⟨hframesPlaced, rfl⟩ :=
      Placement.framesFrom_eq_ok_iff.1 (Result.during_eq_ok_iff.1 hframes)
    rw [frameTables_eq] at hvalues
    exact ⟨⟨hlinesPlaced, hvariablesPlaced, hframesPlaced⟩, Except.ok.inj hvalues⟩
  · rintro ⟨⟨hlines, hvariables, hframes⟩, rfl⟩
    rw [tableValues, lineNumberTables_eq_ok_iff.2 ⟨hlines, rfl⟩,
      allVariableTables_eq_ok_iff.2 ⟨hvariables, rfl⟩]
    have hstored : layout.placement.framesFrom none [] (code.framed layout) = .ok _ :=
      Placement.framesFrom_eq_ok_iff.2 ⟨hframes, rfl⟩
    change (Result.during .writingFrames (layout.placement.framesFrom none [] (code.framed layout))
      >>= _) = _
    rw [Result.during_eq_ok_iff.2 hstored, ← frameTables_eq]
    rfl

def HandlersPlaced (code : Code) (placement : Placement) : Prop :=
  ∀ handler ∈ code.handlers,
    handler.start ∈ placement ∧ handler.stop ∈ placement ∧ handler.handler ∈ placement

def bytecodeOf (code : Code) (layout : Layout) : CodeAttribute :=
  ⟨code.maxStack, code.maxLocals, layout.code.toList,
    code.handlers.map (·.entry layout.placement.final),
    code.tablesIn layout ++ code.attributes⟩

/-- **Laying out** goes well exactly if the layout settles at a size that code can have and all
labels in tables are placed. -/
theorem layOut_eq_ok_iff {operands : List Operand} {bytecode : CodeAttribute} :
    code.layOut operands = .ok bytecode ↔
      ∃ layout, Layout.settle (code.lines.zip operands) code.endLabel ∅ = .ok layout ∧
        layout.code.isEmpty = false ∧ layout.code.size ≤ CodeAttribute.maxLength ∧
        code.HandlersPlaced layout.placement ∧ code.TablesPlaced layout ∧
        code.bytecodeOf layout = bytecode := by
  have hentries : ∀ {layout : Layout} {entries : List ExceptionEntry},
      Result.during .writingExceptionTable (code.handlers.mapM layout.placement.exceptionEntry) =
        .ok entries ↔ code.HandlersPlaced layout.placement ∧
          code.handlers.map (·.entry layout.placement.final) = entries := by
    intro layout entries
    rw [Result.during_eq_ok_iff]
    exact Result.mapM_eq_ok_iff fun _ _ => Placement.exceptionEntry_eq_ok_iff
  constructor
  · intro hlayOut
    obtain ⟨layout, hsettle, hlayOut⟩ := Result.exists_of_bind hlayOut
    change (if layout.code.isEmpty then .error _
      else if CodeAttribute.maxLength < layout.code.size then .error _
      else Result.during .writingExceptionTable _ >>= _) = _ at hlayOut
    split at hlayOut
    · cases hlayOut
    · rename_i hempty
      split at hlayOut
      · cases hlayOut
      · rename_i hsize
        obtain ⟨entries, hhandlers, hlayOut⟩ := Result.exists_of_bind hlayOut
        obtain ⟨values, hvalues, hlayOut⟩ := Result.exists_of_bind hlayOut
        obtain ⟨hhandlersPlaced, rfl⟩ := hentries.1 hhandlers
        obtain ⟨htablesPlaced, rfl⟩ := tableValues_eq_ok_iff.1 hvalues
        refine ⟨layout, hsettle, Bool.eq_false_iff.2 hempty, Nat.not_lt.1 hsize, hhandlersPlaced,
          htablesPlaced, ?_⟩
        rw [filterMap_ofValue?_tablesIn] at hlayOut
        exact Except.ok.inj hlayOut
  · rintro ⟨layout, hsettle, hempty, hsize, hhandlers, htables, rfl⟩
    rw [layOut, hsettle]
    change (if layout.code.isEmpty then _ else if CodeAttribute.maxLength < layout.code.size then _
      else Result.during .writingExceptionTable _ >>= _) = _
    rw [if_neg (Bool.eq_false_iff.1 hempty), if_neg (Nat.not_lt.2 hsize),
      hentries.2 ⟨hhandlers, rfl⟩]
    change (code.tableValues layout >>= _) = _
    rw [tableValues_eq_ok_iff.2 ⟨htables, rfl⟩]
    change Except.ok (CodeAttribute.mk _ _ _ _
      (((code.tablesIn layout).map Attribute.value).filterMap Attribute.ofValue? ++ _)) = _
    rw [filterMap_ofValue?_tablesIn]
    rfl

/-! ### Frames -/

/-- Deltas add up to the offsets they come from. -/
theorem placed_storedFrames (final : Label → UInt16) (previous : Option UInt16)
    {framed : List (Frame Label × UInt16)}
    (hprevious : ∀ offset ∈ previous, ∀ frame ∈ framed, offset < frame.2)
    (hframed : framed.Pairwise fun first second => first.2 < second.2) :
    StackMapFrame.placed (previous.map UInt16.toNat)
      (Placement.storedFrames final previous framed) =
      framed.map fun (frame, offset) => (offset.toNat, frame.map final) := by
  induction framed generalizing previous with
  | nil => rfl
  | cons first framed ih =>
    obtain ⟨frame, offset⟩ := first
    obtain ⟨hlater, hframed⟩ := List.pairwise_cons.1 hframed
    have hrest : StackMapFrame.placed (some offset.toNat) _ = _ :=
      ih (some offset) (fun _ hsome => Option.some.inj hsome ▸ hlater) hframed
    cases previous with
    | none => simp [Placement.storedFrames, StackMapFrame.placed, ← hrest]
    | some previous =>
      have hlt : previous < offset := hprevious previous rfl (frame, offset) List.mem_cons_self
      have hoffset : previous.toNat + (offset - previous - 1).toNat + 1 = offset.toNat := by
        have hgap := UInt16.toNat_sub_of_le offset previous (UInt16.le_of_lt hlt)
        have hpos : (1 : UInt16) ≤ offset - previous := by
          rw [UInt16.le_iff_toNat_le, hgap]
          exact Nat.le_sub_of_add_le' (UInt16.lt_iff_toNat_lt.1 hlt)
        rw [UInt16.toNat_sub_of_le _ _ hpos, hgap]
        have := UInt16.lt_iff_toNat_lt.1 hlt
        simp only [UInt16.reduceToNat]
        omega
      simp [Placement.storedFrames, StackMapFrame.placed, hoffset, ← hrest]

theorem framedLines_pairwise (code : Code) :
    code.framedLines.Pairwise fun first second => first.1 < second.1 := by
  have hindices : code.lines.zipIdx.Pairwise fun first second => first.2 < second.2 := by
    rw [← List.pairwise_map (f := Prod.snd), List.zipIdx_map_snd]
    exact List.pairwise_lt_range' 1
  refine hindices.filterMap _ ?_
  rintro ⟨first, index⟩ ⟨second, next⟩ hlt found hfound other hother
  obtain ⟨_, -, rfl⟩ := Option.map_eq_some_iff.1 hfound
  obtain ⟨_, -, rfl⟩ := Option.map_eq_some_iff.1 hother
  exact hlt

theorem mem_framedLines_iff {code : Code} {index : Nat} {frame : Frame Label} :
    (index, frame) ∈ code.framedLines ↔
      ∃ line, code.lines[index]? = some line ∧ line.frame = some frame := by
  simp only [framedLines, List.mem_filterMap, Option.map_eq_some_iff, Prod.mk.injEq]
  constructor
  · rintro ⟨⟨line, place⟩, hmem, _, hframe, rfl, rfl⟩
    exact ⟨line, List.mem_zipIdx_iff_getElem?.1 hmem, hframe⟩
  · rintro ⟨line, hline, hframe⟩
    exact ⟨(line, index), List.mem_zipIdx_iff_getElem?.2 hline, frame, hframe, rfl, rfl⟩

theorem framed_eq {operands : List Operand} {layout : Layout} {offsets : Nat → Nat}
    (hoperands : code.lines.length = operands.length)
    (hlayout : layout.frameOffsets.toList =
      Layout.framedOffsets (code.lines.zip operands) offsets (code.lines.zip operands).length) :
    code.framed layout =
      code.framedLines.map fun (index, frame) => (frame, UInt16.ofNat (offsets index)) := by
  have hlines : code.lines.zipIdx =
      (code.lines.zip operands).zipIdx.map (Prod.map Prod.fst id) := by
    rw [List.map_zipIdx, List.map_fst_zip (Nat.le_of_eq hoperands)]
  have hframes : code.lines.filterMap CodeLine.frame = code.framedLines.map Prod.snd := by
    nth_rewrite 1 [← List.zipIdx_map_fst 0 code.lines]
    rw [framedLines, List.map_filterMap, List.filterMap_map]
    refine List.filterMap_congr fun line _ => ?_
    simp [Function.comp_def]
  have hoffsets : layout.frameOffsets.toList =
      code.framedLines.map fun framed => UInt16.ofNat (offsets framed.1) := by
    rw [hlayout, Layout.framedOffsets, List.take_length, framedLines, List.map_filterMap, hlines,
      List.filterMap_map]
    refine List.filterMap_congr fun line _ => ?_
    cases hframe : line.1.1.frame <;> simp [hframe]
  rw [framed, hframes, hoffsets, List.zip_map']

end Code

end JvmClass
