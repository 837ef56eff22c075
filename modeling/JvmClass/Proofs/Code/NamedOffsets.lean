import JvmClass.Proofs.Code.Passes
import Mathlib.Data.List.Sort

/-!
# Named offsets

The offsets that the instructions and the tables of bytecode name, the labels that tables have in
their place, and the offsets of frames.
-/

namespace JvmClass

/-! ### Tables in bytecode -/

namespace AttributeValue

def frames? : AttributeValue → Option (List StackMapFrame)
  | .stackMapTable frames => some frames
  | _ => none

def lineRows? : AttributeValue → Option (List LineNumber)
  | .lineNumberTable rows => some rows
  | _ => none

/-- The rows of a table of variables, whichever form their types have. -/
def variableRows? : AttributeValue → Option (List LocalVariable)
  | .localVariableTable rows | .localVariableTypeTable rows => some rows
  | _ => none

def variables? (name : Int → Label) : AttributeValue → Option (List Variable)
  | .localVariableTable rows => some (rows.map fun row => ⟨⟨name row.startOffset.toNat,
      name (row.startOffset.toNat + row.length.toNat)⟩, row.name, some row.descriptor, none, row.index⟩)
  | .localVariableTypeTable rows => some (rows.map fun row => ⟨⟨name row.startOffset.toNat,
      name (row.startOffset.toNat + row.length.toNat)⟩, row.name, none, some row.descriptor, row.index⟩)
  | _ => none

def lineNumbers? (name : Int → Label) (value : AttributeValue) : Option (List (Label × UInt16)) :=
  value.lineRows?.map (List.map fun row => (name row.startOffset.toNat, row.line))

end AttributeValue

def joined {α : Type} : List (List α) → Option (List α)
  | [] => none
  | parts => some parts.flatten

namespace CodeAttribute

variable (bytecode : CodeAttribute)

def frameTables : List (List StackMapFrame) :=
  bytecode.attributes.filterMap fun other => other.value.frames?

def lineRows : List LineNumber :=
  (bytecode.attributes.filterMap fun other => other.value.lineRows?).flatten

def variableRows : List LocalVariable :=
  (bytecode.attributes.filterMap fun other => other.value.variableRows?).flatten

/-- The offsets that tables name, except where ranges end. -/
def innerOffsets : List Nat :=
  bytecode.exceptionTable.flatMap (fun entry => [entry.startOffset.toNat, entry.handlerOffset.toNat])
    ++ bytecode.lineRows.map (fun row => row.startOffset.toNat)
    ++ bytecode.variableRows.map (fun row => row.startOffset.toNat)
    ++ bytecode.frameTables.flatten.flatMap fun frame => frame.frame.origins.map UInt16.toNat

def endOffsets : List Nat :=
  bytecode.exceptionTable.map (fun entry => entry.endOffset.toNat)
    ++ bytecode.variableRows.map fun row => row.startOffset.toNat + row.length.toNat

/-- The offsets that something in bytecode names. -/
inductive Names (pool : Pool) (bytecode : CodeAttribute) : Int → Prop
  | target {start : Nat} {instruction : Instruction Int} {target : Int}
      (hinstruction : InstructionAt pool bytecode.code start instruction)
      (htarget : target ∈ instruction.targets) : Names pool bytecode target
  | inner {offset : Nat} (hoffset : offset ∈ bytecode.innerOffsets) : Names pool bytecode offset
  | stop {offset : Nat} (hoffset : offset ∈ bytecode.endOffsets) : Names pool bytecode offset

/-- The offsets where an instruction has to start: those that are named, except for the end of the
code where a range ends, and those of frames. -/
inductive Needs (pool : Pool) (bytecode : CodeAttribute) : Int → Prop
  | target {start : Nat} {instruction : Instruction Int} {target : Int}
      (hinstruction : InstructionAt pool bytecode.code start instruction)
      (htarget : target ∈ instruction.targets) : Needs pool bytecode target
  | inner {offset : Nat} (hoffset : offset ∈ bytecode.innerOffsets) : Needs pool bytecode offset
  | stop {offset : Nat} (hoffset : offset ∈ bytecode.endOffsets)
      (hinner : offset ≠ bytecode.code.length) : Needs pool bytecode offset
  | frame {frames : List StackMapFrame} {offset : Nat} {frame : Frame UInt16}
      (hframes : frames ∈ bytecode.frameTables)
      (hframe : (offset, frame) ∈ StackMapFrame.placed none frames) : Needs pool bytecode offset

end CodeAttribute

def ExceptionEntry.labeled (name : Int → Label) (entry : ExceptionEntry) : ExceptionHandler :=
  ⟨name entry.startOffset.toNat, name entry.endOffset.toNat, name entry.handlerOffset.toNat,
    entry.catchType⟩

/-! ### Labels of tables -/

def nameAt (name : UInt16 → Label) (offset : Int) : Label :=
  name (UInt16.ofNat offset.toNat)

@[simp] theorem nameAt_toNat (name : UInt16 → Label) (offset : UInt16) :
    nameAt name offset.toNat = name offset := by
  rw [nameAt, Int.toNat_natCast, UInt16.ofNat_toNat]

theorem nameAt_add (name : UInt16 → Label) (first second : Nat) :
    nameAt name (first + second) = name (UInt16.ofNat (first + second)) :=
  rfl

namespace AttributeValue

/-- The offsets that the rows of a table name, in the order they come up. -/
def askedOffsets (value : AttributeValue) : List UInt16 :=
  (value.lineRows?.getD []).map (fun row => row.startOffset)
    ++ (value.variableRows?.getD []).flatMap fun row =>
      [row.startOffset, UInt16.ofNat (row.startOffset.toNat + row.length.toNat)]

structure Within (value : AttributeValue) (length : UInt16) : Prop where
  lines : ∀ row ∈ value.lineRows?.getD [], row.startOffset < length
  ranges : ∀ row ∈ value.variableRows?.getD [],
    row.startOffset < length ∧ row.startOffset.toNat + row.length.toNat ≤ length.toNat

end AttributeValue

namespace CodeTables

def withPart {α : Type} (found : Option (Array α)) : Option (List α) → Option (Array α)
  | none => found
  | some part => some (found.getD #[] ++ part)

/-- The tables with what an attribute says, where `name` gives the labels of offsets. -/
def noted (name : Int → Label) (tables : CodeTables) (next : Attribute) : CodeTables where
  frames := tables.frames.or next.value.frames?
  lineNumbers := withPart tables.lineNumbers (next.value.lineNumbers? name)
  localVariables := withPart tables.localVariables (next.value.variables? name)
  others := if next.value.isCodeTable then tables.others else tables.others.push next

def withParts {α : Type} (found : Option (Array α)) (parts : List (List α)) : Option (Array α) :=
  parts.foldl (fun found part => withPart found (some part)) found

theorem withParts_none {α : Type} (parts : List (List α)) :
    (withParts none parts).map Array.toList = joined parts := by
  have hsome : ∀ (found : Array α), withParts (some found) parts =
      some (found ++ parts.flatten) := by
    induction parts with
    | nil =>
      intro found
      simp [withParts]
    | cons part parts ih =>
      intro found
      change withParts (some (found ++ part)) parts = _
      rw [ih, Option.some.injEq, ← Array.toList_inj]
      simp
  cases parts with
  | nil => rfl
  | cons part parts =>
    have hfirst := hsome #[]
    change withParts (some (#[] ++ part)) parts = _ at hfirst
    change (withParts (some (#[] ++ part)) parts).map Array.toList = _
    rw [hfirst]
    simp [joined]

theorem foldl_noted (name : Int → Label) (attributes : List Attribute) (tables : CodeTables) :
    attributes.foldl (noted name) tables =
      ⟨tables.frames.or (attributes.filterMap fun other => other.value.frames?).head?,
        withParts tables.lineNumbers
          (attributes.filterMap fun other => other.value.lineNumbers? name),
        withParts tables.localVariables
          (attributes.filterMap fun other => other.value.variables? name),
        tables.others ++ attributes.filter fun other => !other.value.isCodeTable⟩ := by
  induction attributes generalizing tables with
  | nil => simp [withParts]
  | cons next attributes ih =>
    rw [List.foldl_cons, ih, noted, CodeTables.mk.injEq]
    refine ⟨?_, ?_, ?_, ?_⟩
    · cases hframes : next.value.frames? <;> simp [hframes]
    · cases hlines : next.value.lineNumbers? name <;> simp [hlines, withParts, withPart]
    · cases hvariables : next.value.variables? name <;> simp [hvariables, withParts, withPart]
    · cases htable : next.value.isCodeTable <;> simp [htable]

end CodeTables

namespace Labeling.Asks

variable {length : UInt16}

theorem range (start size : UInt16) :
    Asks (Labeling.rangeAt start size) length
      (start < length ∧ start.toNat + size.toNat ≤ length.toNat)
      [start, UInt16.ofNat (start.toNat + size.toNat)]
      fun name => ⟨name start, name (UInt16.ofNat (start.toNat + size.toNat))⟩ :=
  bind (fun found name => LabelRange.mk found (name (UInt16.ofNat (start.toNat + size.toNat))))
    (labelAt start) fun name => (endLabelAt (start.toNat + size.toNat)).returning
      (LabelRange.mk (name start))

theorem describedRow (row : LocalVariable) :
    Asks (Labeling.describedVariable row) length
      (row.startOffset < length ∧ row.startOffset.toNat + row.length.toNat ≤ length.toNat)
      [row.startOffset, UInt16.ofNat (row.startOffset.toNat + row.length.toNat)]
      fun name => ⟨⟨name row.startOffset,
        name (UInt16.ofNat (row.startOffset.toNat + row.length.toNat))⟩, row.name,
        some row.descriptor, none, row.index⟩ :=
  (range row.startOffset row.length).returning fun found =>
    Variable.mk found row.name (some row.descriptor) none row.index

theorem signedRow (row : LocalVariable) :
    Asks (Labeling.signedVariable row) length
      (row.startOffset < length ∧ row.startOffset.toNat + row.length.toNat ≤ length.toNat)
      [row.startOffset, UInt16.ofNat (row.startOffset.toNat + row.length.toNat)]
      fun name => ⟨⟨name row.startOffset,
        name (UInt16.ofNat (row.startOffset.toNat + row.length.toNat))⟩, row.name, none,
        some row.descriptor, row.index⟩ :=
  (range row.startOffset row.length).returning fun found =>
    Variable.mk found row.name none (some row.descriptor) row.index

theorem add (tables : CodeTables) (next : Attribute) :
    Asks (tables.add next) length
      (next.value.Within length ∧ (next.value.frames?.isSome → tables.frames = none))
      next.value.askedOffsets fun name => tables.noted (nameAt name) next := by
  obtain ⟨attributeName, value⟩ := next
  have hother : ∀ {value : AttributeValue}, value.isCodeTable = false → value.frames? = none →
      value.lineRows? = none → value.variableRows? = none → (∀ name, value.variables? name = none) →
      Asks (Pure.pure { tables with others := tables.others.push ⟨attributeName, value⟩ }) length
        (value.Within length ∧ (value.frames?.isSome → tables.frames = none))
        value.askedOffsets fun name => tables.noted (nameAt name) ⟨attributeName, value⟩ := by
    intro value htable hframes hlines hrows hvariables
    have hwithin : value.Within length := ⟨by simp [hlines], by simp [hrows]⟩
    have hasked : [] = value.askedOffsets := by
      simp [AttributeValue.askedOffsets, hlines, hrows]
    refine ((pure _).of_iff (iff_of_true trivial ⟨hwithin, by simp [hframes]⟩) hasked).of_eq
      fun name => ?_
    simp [CodeTables.noted, htable, hframes, hvariables, AttributeValue.lineNumbers?, hlines,
      CodeTables.withPart]
  cases value with
  | stackMapTable frames =>
    have hwithin : AttributeValue.Within (.stackMapTable frames) length :=
      ⟨fun _ hrow => (List.not_mem_nil hrow).elim, fun _ hrow => (List.not_mem_nil hrow).elim⟩
    cases hframes : tables.frames with
    | none =>
      have hadd : tables.add ⟨attributeName, .stackMapTable frames⟩ =
          (Pure.pure { tables with frames := some frames } : Labeling CodeTables) := by
        simp only [CodeTables.add, hframes]
      rw [hadd]
      refine ((pure _).of_iff (iff_of_true trivial ⟨hwithin, fun _ => rfl⟩) rfl).of_eq fun name => ?_
      simp [CodeTables.noted, hframes, AttributeValue.frames?, AttributeValue.isCodeTable,
        AttributeValue.lineNumbers?, AttributeValue.lineRows?, AttributeValue.variables?,
        CodeTables.withPart]
    | some others =>
      have hadd : tables.add ⟨attributeName, .stackMapTable frames⟩ =
          (MonadExcept.throw (Error.ofFault .secondStackMapTable) : Labeling CodeTables) := by
        simp only [CodeTables.add, hframes]
      rw [hadd]
      refine throw (fun hall => ?_) fun _ _ _ => rfl
      cases hall.2 rfl
  | lineNumberTable rows =>
    refine (((mapM fun row _ => lineNumber row).returning fun found =>
      { tables with lineNumbers := some (tables.lineNumbers.getD #[] ++ found) }).of_iff ?_ ?_).of_eq
      fun name => ?_
    · exact ⟨fun hall => ⟨⟨hall, fun _ hrow => (List.not_mem_nil hrow).elim⟩, fun h => by cases h⟩,
        fun hall => hall.1.lines⟩
    · simp [AttributeValue.askedOffsets, AttributeValue.lineRows?, AttributeValue.variableRows?,
        List.map_eq_flatMap]
    · simp [CodeTables.noted, AttributeValue.frames?, AttributeValue.isCodeTable,
        AttributeValue.lineNumbers?, AttributeValue.lineRows?, AttributeValue.variables?,
        CodeTables.withPart]
  | localVariableTable rows =>
    refine (((mapM fun row _ => describedRow row).returning fun found =>
      { tables with localVariables := some (tables.localVariables.getD #[] ++ found) }).of_iff
      ?_ ?_).of_eq fun name => ?_
    · exact ⟨fun hall => ⟨⟨fun _ hrow => (List.not_mem_nil hrow).elim, hall⟩, fun h => by cases h⟩,
        fun hall => hall.1.ranges⟩
    · rfl
    · simp [CodeTables.noted, AttributeValue.frames?, AttributeValue.isCodeTable,
        AttributeValue.lineNumbers?, AttributeValue.lineRows?, AttributeValue.variables?,
        CodeTables.withPart, nameAt_add]
  | localVariableTypeTable rows =>
    refine (((mapM fun row _ => signedRow row).returning fun found =>
      { tables with localVariables := some (tables.localVariables.getD #[] ++ found) }).of_iff
      ?_ ?_).of_eq fun name => ?_
    · exact ⟨fun hall => ⟨⟨fun _ hrow => (List.not_mem_nil hrow).elim, hall⟩, fun h => by cases h⟩,
        fun hall => hall.1.ranges⟩
    · rfl
    · simp [CodeTables.noted, AttributeValue.frames?, AttributeValue.isCodeTable,
        AttributeValue.lineNumbers?, AttributeValue.lineRows?, AttributeValue.variables?,
        CodeTables.withPart, nameAt_add]
  | _ => exact hother rfl rfl rfl rfl fun _ => rfl

/-- What all attributes say. There can be only one table of frames. -/
theorem addAll (attributes : List Attribute) (tables : CodeTables) :
    Asks (attributes.foldlM CodeTables.add tables) length
      ((∀ other ∈ attributes, other.value.Within length) ∧ tables.frames.toList.length +
        (attributes.filterMap fun other => other.value.frames?).length ≤ 1)
      (attributes.flatMap fun other => other.value.askedOffsets)
      fun name => attributes.foldl (CodeTables.noted (nameAt name)) tables := by
  induction attributes generalizing tables with
  | nil =>
    refine (pure tables).of_iff (iff_of_true trivial ⟨by simp, ?_⟩) rfl
    cases tables.frames <;> simp
  | cons next attributes ih =>
    have hrest : ∀ name, Asks
        (attributes.foldlM CodeTables.add (tables.noted (nameAt name) next)) length
        ((∀ other ∈ attributes, other.value.Within length) ∧
          (tables.frames.or next.value.frames?).toList.length +
            (attributes.filterMap fun other => other.value.frames?).length ≤ 1)
        (attributes.flatMap fun other => other.value.askedOffsets) _ :=
      fun name => ih (tables.noted (nameAt name) next)
    rw [List.foldlM_cons]
    refine Asks.of_iff (bind (fun found name =>
      attributes.foldl (CodeTables.noted (nameAt name)) found) (add tables next) hrest) ?_ rfl
    rw [List.forall_mem_cons]
    cases hframes : next.value.frames? <;> cases hfound : tables.frames <;>
      simp [hframes, and_assoc, Nat.add_comm 1]

end Labeling.Asks

namespace CodeAttribute

variable (bytecode : CodeAttribute)

def frames : List StackMapFrame :=
  bytecode.frameTables.head?.getD []

/-- The offsets that tables name, in the order they come up. -/
def tableOffsets : List UInt16 :=
  bytecode.exceptionTable.flatMap (fun entry =>
      [entry.startOffset, entry.endOffset, entry.handlerOffset])
    ++ (bytecode.attributes.flatMap (fun other => other.value.askedOffsets)
      ++ (StackMapFrame.placed none bytecode.frames).flatMap fun frame => frame.2.origins)

/-- All tables are within the code. Only ranges may end right after it. -/
structure TablesFit (length : UInt16) : Prop where
  handlers : ∀ entry ∈ bytecode.exceptionTable,
    entry.startOffset < length ∧ entry.endOffset ≤ length ∧ entry.handlerOffset < length
  attributes : ∀ other ∈ bytecode.attributes, other.value.Within length
  oneTable : bytecode.frameTables.length ≤ 1
  frames : ∀ frame ∈ StackMapFrame.placed none bytecode.frames,
    frame.1 < 65536 ∧ ∀ origin ∈ frame.2.origins, origin < length

end CodeAttribute

/-- **Tables.** All that tables name gets labels. -/
theorem Labeling.Asks.allTables (bytecode : CodeAttribute) (length : UInt16) :
    Asks (Code.labelTables bytecode) length (bytecode.TablesFit length) bytecode.tableOffsets
      fun name => (bytecode.exceptionTable.map (·.labeled (nameAt name)),
        bytecode.attributes.foldl (CodeTables.noted (nameAt name)) CodeTables.empty,
        (StackMapFrame.placed none bytecode.frames).map fun frame =>
          (UInt16.ofNat frame.1, frame.2.map name)) := by
  have hhandlers : Asks (bytecode.exceptionTable.mapM Labeling.handler) length
      (∀ entry ∈ bytecode.exceptionTable,
        entry.startOffset < length ∧ entry.endOffset ≤ length ∧ entry.handlerOffset < length)
      (bytecode.exceptionTable.flatMap fun entry =>
        [entry.startOffset, entry.endOffset, entry.handlerOffset])
      fun name => bytecode.exceptionTable.map (·.labeled (nameAt name)) :=
    (mapM fun entry _ => handler entry).of_eq fun name => by simp [ExceptionEntry.labeled]
  have hframes : ∀ name, (bytecode.attributes.foldl (CodeTables.noted (nameAt name))
      CodeTables.empty).frames.getD [] = bytecode.frames := by
    intro name
    rw [CodeTables.foldl_noted]
    rfl
  have hlast : ∀ (handlers : List ExceptionHandler) (name : UInt16 → Label),
      Asks (Labeling.framesFrom 0 none [] ((bytecode.attributes.foldl
          (CodeTables.noted (nameAt name)) CodeTables.empty).frames.getD []) >>= fun found =>
        Pure.pure (handlers, bytecode.attributes.foldl (CodeTables.noted (nameAt name))
          CodeTables.empty, found)) length
        (∀ frame ∈ StackMapFrame.placed none bytecode.frames,
          frame.1 < 65536 ∧ ∀ origin ∈ frame.2.origins, origin < length)
        ((StackMapFrame.placed none bytecode.frames).flatMap fun frame => frame.2.origins)
        fun other => (handlers, bytecode.attributes.foldl (CodeTables.noted (nameAt name))
          CodeTables.empty, (StackMapFrame.placed none bytecode.frames).map fun frame =>
            (UInt16.ofNat frame.1, frame.2.map other)) := by
    intro handlers name
    rw [hframes]
    exact (framesFrom bytecode.frames 0 none []).returning fun found => (handlers, _, found)
  unfold Code.labelTables CodeTables.ofAttributes
  refine Asks.of_iff (bind (fun found name => (found, bytecode.attributes.foldl
      (CodeTables.noted (nameAt name)) CodeTables.empty,
      (StackMapFrame.placed none bytecode.frames).map fun frame =>
        (UInt16.ofNat frame.1, frame.2.map name)))
    (hhandlers.during .readingExceptionTable) fun first =>
      bind (fun found name => (_, found, (StackMapFrame.placed none bytecode.frames).map fun frame =>
        (UInt16.ofNat frame.1, frame.2.map name)))
        (addAll bytecode.attributes CodeTables.empty) fun second => hlast _ second) ?_ rfl
  have hone : CodeTables.empty.frames.toList.length + (bytecode.attributes.filterMap
      fun other => other.value.frames?).length = bytecode.frameTables.length := Nat.zero_add _
  rw [hone]
  constructor
  · rintro ⟨hentries, ⟨hattributes, hone⟩, hplaced⟩
    exact ⟨hentries, hattributes, hone, hplaced⟩
  · rintro ⟨hentries, hattributes, hone, hplaced⟩
    exact ⟨hentries, ⟨hattributes, hone⟩, hplaced⟩

/-! ### Named offsets -/

theorem mem_flatten_filterMap {α β : Type} {f : α → Option (List β)} {values : List α} {part : β} :
    part ∈ (values.filterMap f).flatten ↔ ∃ value ∈ values, part ∈ (f value).getD [] := by
  rw [List.mem_flatten]
  constructor
  · rintro ⟨parts, hparts, hpart⟩
    obtain ⟨value, hvalue, hf⟩ := List.mem_filterMap.1 hparts
    exact ⟨value, hvalue, by rwa [hf]⟩
  · rintro ⟨value, hvalue, hpart⟩
    cases hf : f value with
    | none =>
      rw [hf] at hpart
      cases hpart
    | some parts =>
      rw [hf] at hpart
      exact ⟨parts, List.mem_filterMap.2 ⟨value, hvalue, hf⟩, hpart⟩

theorem StackMapFrame.placed_map_snd (previous : Option Nat) (frames : List StackMapFrame) :
    (StackMapFrame.placed previous frames).map Prod.snd = frames.map StackMapFrame.frame := by
  induction frames generalizing previous with
  | nil => rfl
  | cons frame frames ih =>
    rw [StackMapFrame.placed, List.map_cons, ih]
    rfl

namespace CodeAttribute

variable {bytecode : CodeAttribute} {length : UInt16}

theorem frameTables_eq (hone : bytecode.frameTables.length ≤ 1) :
    bytecode.frameTables = [] ∨ bytecode.frameTables = [bytecode.frames] := by
  unfold frames
  cases htables : bytecode.frameTables with
  | nil => exact .inl rfl
  | cons table tables =>
    rw [htables, List.length_cons] at hone
    obtain rfl : tables = [] := List.eq_nil_of_length_eq_zero (by omega)
    exact .inr rfl

theorem TablesFit.flatMap_placed (hfit : bytecode.TablesFit length) :
    bytecode.frameTables.flatMap (StackMapFrame.placed none) =
      StackMapFrame.placed none bytecode.frames := by
  obtain htables | htables := frameTables_eq hfit.oneTable
  · rw [CodeAttribute.frames, htables]
    rfl
  · rw [htables, List.flatMap_singleton]

theorem TablesFit.rows (hfit : bytecode.TablesFit length) :
    (∀ row ∈ bytecode.lineRows, row.startOffset < length) ∧
      ∀ row ∈ bytecode.variableRows, row.startOffset < length ∧
        row.startOffset.toNat + row.length.toNat ≤ length.toNat := by
  constructor
  · intro row hrow
    obtain ⟨other, hother, hrow⟩ := mem_flatten_filterMap.1 hrow
    exact (hfit.attributes other hother).lines row hrow
  · intro row hrow
    obtain ⟨other, hother, hrow⟩ := mem_flatten_filterMap.1 hrow
    exact (hfit.attributes other hother).ranges row hrow

theorem mem_askedOffsets {offset : UInt16} :
    offset ∈ bytecode.attributes.flatMap (fun other => other.value.askedOffsets) ↔
      (∃ row ∈ bytecode.lineRows, row.startOffset = offset) ∨
      ∃ row ∈ bytecode.variableRows, row.startOffset = offset ∨
        UInt16.ofNat (row.startOffset.toNat + row.length.toNat) = offset := by
  simp only [lineRows, variableRows, mem_flatten_filterMap, List.mem_flatMap,
    AttributeValue.askedOffsets, List.mem_append, List.mem_map, List.mem_cons, List.not_mem_nil,
    or_false, eq_comm (a := offset)]
  constructor
  · rintro ⟨other, hother, ⟨row, hrow, hoffset⟩ | ⟨row, hrow, hoffset⟩⟩
    · exact .inl ⟨row, ⟨other, hother, hrow⟩, hoffset⟩
    · exact .inr ⟨row, ⟨other, hother, hrow⟩, hoffset⟩
  · rintro (⟨row, ⟨other, hother, hrow⟩, hoffset⟩ | ⟨row, ⟨other, hother, hrow⟩, hoffset⟩)
    · exact ⟨other, hother, .inl ⟨row, hrow, hoffset⟩⟩
    · exact ⟨other, hother, .inr ⟨row, hrow, hoffset⟩⟩

theorem TablesFit.mem_origins (hfit : bytecode.TablesFit length) {origin : UInt16} :
    (∃ frame ∈ bytecode.frameTables.flatten, origin ∈ frame.frame.origins) ↔
      origin ∈ (StackMapFrame.placed none bytecode.frames).flatMap fun frame => frame.2.origins := by
  have hflatten : bytecode.frameTables.flatten = bytecode.frames := by
    obtain htables | htables := frameTables_eq hfit.oneTable
    · rw [CodeAttribute.frames, htables]
      rfl
    · rw [htables, List.flatten_singleton]
  have hplaced : ((StackMapFrame.placed none bytecode.frames).flatMap fun frame =>
      frame.2.origins) = bytecode.frames.flatMap fun frame => frame.frame.origins := by
    rw [← List.flatMap_map Prod.snd Frame.origins, StackMapFrame.placed_map_snd, List.flatMap_map]
  rw [hflatten, hplaced, List.mem_flatMap]

theorem TablesFit.inner_lt (hfit : bytecode.TablesFit length) {offset : Nat}
    (hoffset : offset ∈ bytecode.innerOffsets) : offset < length.toNat := by
  obtain ⟨hlines, hranges⟩ := hfit.rows
  simp only [innerOffsets, List.mem_append, List.mem_flatMap, List.mem_map, List.mem_cons,
    List.not_mem_nil, or_false] at hoffset
  obtain ((⟨entry, hentry, rfl | rfl⟩ | ⟨row, hrow, rfl⟩) | ⟨row, hrow, rfl⟩) |
    ⟨frame, hframe, origin, horigin, rfl⟩ := hoffset
  · exact UInt16.lt_iff_toNat_lt.1 (hfit.handlers entry hentry).1
  · exact UInt16.lt_iff_toNat_lt.1 (hfit.handlers entry hentry).2.2
  · exact UInt16.lt_iff_toNat_lt.1 (hlines row hrow)
  · exact UInt16.lt_iff_toNat_lt.1 (hranges row hrow).1
  · obtain ⟨placed, hplaced, horigin⟩ :=
      List.mem_flatMap.1 (hfit.mem_origins.1 ⟨frame, hframe, horigin⟩)
    exact UInt16.lt_iff_toNat_lt.1 ((hfit.frames placed hplaced).2 origin horigin)

theorem TablesFit.end_le (hfit : bytecode.TablesFit length) {offset : Nat}
    (hoffset : offset ∈ bytecode.endOffsets) : offset ≤ length.toNat := by
  simp only [endOffsets, List.mem_append, List.mem_map] at hoffset
  obtain ⟨entry, hentry, rfl⟩ | ⟨row, hrow, rfl⟩ := hoffset
  · exact UInt16.le_iff_toNat_le.1 (hfit.handlers entry hentry).2.1
  · exact (hfit.rows.2 row hrow).2

theorem TablesFit.mem_tableOffsets (hfit : bytecode.TablesFit length) {offset : Nat} :
    offset ∈ bytecode.innerOffsets ∨ offset ∈ bytecode.endOffsets ↔
      ∃ asked ∈ bytecode.tableOffsets, asked.toNat = offset := by
  obtain ⟨-, hranges⟩ := hfit.rows
  have hstop : ∀ row ∈ bytecode.variableRows,
      (UInt16.ofNat (row.startOffset.toNat + row.length.toNat)).toNat =
        row.startOffset.toNat + row.length.toNat := by
    intro row hrow
    refine UInt16.toNat_ofNat_of_lt' (Nat.lt_of_le_of_lt (hranges row hrow).2 ?_)
    exact length.toNat_lt
  have hasked : ∀ asked : UInt16, asked ∈ bytecode.tableOffsets ↔
      asked.toNat ∈ bytecode.innerOffsets ∨ asked.toNat ∈ bytecode.endOffsets := by
    intro asked
    rw [tableOffsets, List.mem_append, List.mem_append, mem_askedOffsets, ← hfit.mem_origins]
    simp only [innerOffsets, endOffsets, List.mem_append, List.mem_flatMap, List.mem_map,
      List.mem_cons, List.not_mem_nil, or_false, UInt16.toNat_inj]
    constructor
    · rintro (⟨entry, hentry, rfl | rfl | rfl⟩ | (⟨row, hrow, rfl⟩ | ⟨row, hrow, rfl | rfl⟩) |
        ⟨frame, hframe, horigin⟩)
      · exact .inl (.inl (.inl (.inl ⟨entry, hentry, .inl rfl⟩)))
      · exact .inr (.inl ⟨entry, hentry, rfl⟩)
      · exact .inl (.inl (.inl (.inl ⟨entry, hentry, .inr rfl⟩)))
      · exact .inl (.inl (.inl (.inr ⟨row, hrow, rfl⟩)))
      · exact .inl (.inl (.inr ⟨row, hrow, rfl⟩))
      · exact .inr (.inr ⟨row, hrow, (hstop row hrow).symm⟩)
      · exact .inl (.inr ⟨frame, hframe, asked, horigin, rfl⟩)
    · rintro ((((⟨entry, hentry, rfl | rfl⟩ | ⟨row, hrow, rfl⟩) | ⟨row, hrow, rfl⟩) |
        ⟨frame, hframe, origin, horigin, rfl⟩) | (⟨entry, hentry, rfl⟩ | ⟨row, hrow, hoffset⟩))
      · exact .inl ⟨entry, hentry, .inl rfl⟩
      · exact .inl ⟨entry, hentry, .inr (.inr rfl)⟩
      · exact .inr (.inl (.inl ⟨row, hrow, rfl⟩))
      · exact .inr (.inl (.inr ⟨row, hrow, .inl rfl⟩))
      · exact .inr (.inr ⟨frame, hframe, horigin⟩)
      · exact .inl ⟨entry, hentry, .inr (.inl rfl)⟩
      · refine .inr (.inl (.inr ⟨row, hrow, .inr ?_⟩))
        rw [hoffset, UInt16.ofNat_toNat]
  constructor
  · intro hoffset
    have hlt : offset < 65536 := by
      refine Nat.lt_of_le_of_lt ?_ length.toNat_lt
      exact hoffset.elim (fun hinner => Nat.le_of_lt (hfit.inner_lt hinner)) hfit.end_le
    have hnat : (UInt16.ofNat offset).toNat = offset := UInt16.toNat_ofNat_of_lt' hlt
    exact ⟨UInt16.ofNat offset, (hasked _).2 (by rwa [hnat]), hnat⟩
  · rintro ⟨asked, hmem, rfl⟩
    exact (hasked asked).1 hmem

end CodeAttribute

/-! ### Frames in order -/

theorem StackMapFrame.lt_of_mem_placed {previous : Nat} {frames : List StackMapFrame}
    {frame : Nat × Frame UInt16} (hframe : frame ∈ StackMapFrame.placed (some previous) frames) :
    previous < frame.1 := by
  induction frames generalizing previous with
  | nil => cases hframe
  | cons first frames ih =>
    rw [StackMapFrame.placed] at hframe
    dsimp only [Option.elim_some] at hframe
    obtain rfl | hframe := List.mem_cons.1 hframe
    · dsimp only
      omega
    · have hlt := ih hframe
      omega

theorem StackMapFrame.placed_pairwise (previous : Option Nat) (frames : List StackMapFrame) :
    (StackMapFrame.placed previous frames).Pairwise fun first second => first.1 < second.1 := by
  induction frames generalizing previous with
  | nil => exact .nil
  | cons frame frames ih =>
    rw [StackMapFrame.placed]
    exact List.pairwise_cons.2 ⟨fun other hother => lt_of_mem_placed hother, ih _⟩

/-- Lists in the order of distinct numbers are equal if they have the same members. -/
theorem eq_of_pairwise_lt {α : Type} {first second : List (Nat × α)}
    (hfirst : first.Pairwise fun left right => left.1 < right.1)
    (hsecond : second.Pairwise fun left right => left.1 < right.1)
    (hmem : ∀ entry, entry ∈ first ↔ entry ∈ second) : first = second := by
  have : Std.Antisymm fun left right : Nat × α => left.1 < right.1 :=
    ⟨fun _ _ hlt hgt => absurd hlt (Nat.lt_asymm hgt)⟩
  have : Std.Irrefl fun left right : Nat × α => left.1 < right.1 := ⟨fun _ => Nat.lt_irrefl _⟩
  exact hfirst.eq_of_mem_iff hsecond hmem

theorem Swept.offsetsOf_lt {pool : Pool} {code : Bytes} {swept : List (Nat × Instruction UInt16)}
    (hswept : Swept pool code 0 swept) {index : Nat} (hindex : index < swept.length) :
    offsetsOf code.length swept index < offsetsOf code.length swept (index + 1) := by
  have hentry := List.getElem?_eq_getElem hindex
  rw [offsetsOf_of_getElem? hentry]
  exact (hswept.encodedAt hentry).2.lt

end JvmClass
