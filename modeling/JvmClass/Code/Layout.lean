import JvmClass.Code
import JvmClass.Instruction.Encoder
import Std.Data.HashMap
import Std.Data.HashSet

/-!
# Layout of bytecode

Instructions laid out one after the other. A target behind an instruction has an offset already, so
the instruction takes the form that its distance needs. A target ahead has none yet: the instruction
takes its short form and leaves a hole, and when all labels have offsets the holes are filled. If a
distance does not fit into a hole of two bytes, everything is laid out again with that instruction
wide. An instruction that is wide once stays wide, so this ends after no more attempts than there
are branches and jumps, and one.
-/

namespace JvmClass

/-! ### Offsets of labels -/

/-- The offsets that labels are at. -/
abbrev Placement := Std.HashMap Label UInt16

namespace Placement

/-- Places a label that has no offset yet. -/
def place (placement : Placement) (label : Label) (offset : UInt16) : Except Error Placement :=
  match placement[label]? with
  | none => .ok (placement.insert label offset)
  | some first => .error (.ofFault (.labelPlacedTwice label first offset))

def offsetOf (placement : Placement) (label : Label) : Except Error UInt16 :=
  match placement[label]? with
  | some offset => .ok offset
  | none => .error (.ofFault (.labelNotPlaced label))

/-- The offset and the length of a range. -/
def rangeOf (placement : Placement) (range : LabelRange) : Except Error (UInt16 × UInt16) := do
  let start ← placement.offsetOf range.start
  let stop ← placement.offsetOf range.stop
  if stop < start then
    throw (Error.ofFault (.rangeReversed range start stop))
  return (start, stop - start)

end Placement

/-! ### One attempt -/

/-- What an attempt to lay out instructions has come to. -/
structure Layout where
  code : Array UInt8
  placement : Placement
  /-- The offsets of the instructions that have a frame. -/
  frameOffsets : Array UInt16
  holes : Array Hole

namespace Layout

def empty : Layout :=
  ⟨#[], ∅, #[], #[]⟩

/-- The offset of what comes next. -/
def nextOffset (layout : Layout) : Except Error UInt16 :=
  if layout.code.size ≤ CodeAttribute.maxLength then
    .ok (UInt16.ofNat layout.code.size)
  else
    .error (.ofFault .bytecodeOverflow)

/-- Places a label, if there is one. -/
def placeLabel (layout : Layout) (label : Option Label) (offset : UInt16) : Except Error Layout :=
  match label with
  | none => .ok layout
  | some label => do
    return { layout with placement := ← layout.placement.place label offset }

/-- Adds the line with the given index; the instructions in `wide` must not be short. -/
def addLine (wide : Std.HashSet Nat) (layout : Layout) (index : Nat) (line : CodeLine)
    (operand : Operand) : Except Error Layout := do
  let offset ← layout.nextOffset
  let ⟨code, placement, frameOffsets, holes⟩ ← layout.placeLabel line.label offset
  let site : EncodingSite := ⟨index, code.size, fun label => placement[label]?, wide.contains index⟩
  let encoded := line.instruction.encode site operand
  return {
    code := code ++ encoded.bytes
    placement := placement
    frameOffsets := if line.frame.isSome then frameOffsets.push offset else frameOffsets
    holes := holes ++ encoded.holes
  }

/-- Adds lines, the first of which has the given index. -/
def addLines (wide : Std.HashSet Nat) : (index : Nat) → List (CodeLine × Operand) → Layout →
    Except Error Layout
  | _, [], layout => .ok layout
  | index, (line, operand) :: rest, layout =>
    match layout.addLine wide index line operand with
    | .ok layout => addLines wide (index + 1) rest layout
    | .error error => .error error

/-- All lines, and the label after the last of them. -/
def ofLines (wide : Std.HashSet Nat) (lines : List (CodeLine × Operand)) (endLabel : Option Label) :
    Except Error Layout := do
  let layout ← addLines wide 0 lines empty
  match endLabel with
  | none => return layout
  | some label => layout.placeLabel label (← layout.nextOffset)

end Layout

/-! ### Filling holes -/

/-- Bytes with the ones from a position on replaced. -/
def overwrite (code : Array UInt8) (position : Nat) : Bytes → Array UInt8
  | [] => code
  | byte :: rest => overwrite (code.setIfInBounds position byte) (position + 1) rest

/-- What becomes of a layout: its code with all holes filled, or the index of an instruction that is
too far from its target to be short. -/
inductive Filling where
  | filled (code : Array UInt8)
  | tooFar (instruction : Nat)

/-- Fills holes in their order. The targets of instructions are instructions, so there is none after
the last one. -/
def fillHoles (placement : Placement) (size : Nat) : List Hole → Array UInt8 → Except Error Filling
  | [], code => .ok (.filled code)
  | hole :: rest, code =>
    match placement.offsetOf hole.label with
    | .error error => .error error
    | .ok target =>
      if size ≤ target.toNat then
        .error (.ofFault (.branchPastEnd hole.instruction hole.label))
      else
        let distance := distance hole.base target
        if hole.wide then
          fillHoles placement size rest (overwrite code hole.position (wideDistance distance))
        else if fitsShort distance then
          fillHoles placement size rest (overwrite code hole.position (shortDistance distance))
        else
          .ok (.tooFar hole.instruction)

/-! ### All attempts -/

/-- The indices of the branches and jumps among lines. -/
def relaxableIndices (lines : List (CodeLine × Operand)) : List Nat :=
  lines.zipIdx.filterMap fun ((line, _), index) =>
    if line.instruction.isRelaxable then some index else none

/-- Whether the line with the given index is a branch or jump. -/
def isRelaxableAt (lines : List (CodeLine × Operand)) (index : Nat) : Bool :=
  lines[index]?.any fun (line, _) => line.instruction.isRelaxable

theorem mem_relaxableIndices_iff {lines : List (CodeLine × Operand)} {index : Nat} :
    index ∈ relaxableIndices lines ↔ isRelaxableAt lines index := by
  simp [relaxableIndices, isRelaxableAt, List.mem_zipIdx_iff_getElem?, Option.any_eq_true]

/-- The branches and jumps that may still be short. -/
def shortIndices (lines : List (CodeLine × Operand)) (wide : Std.HashSet Nat) : List Nat :=
  (relaxableIndices lines).filter fun index => !wide.contains index

/-- Making one more instruction wide leaves fewer that may be short. -/
theorem length_shortIndices_insert_lt {lines : List (CodeLine × Operand)} {wide : Std.HashSet Nat}
    {index : Nat}
    (hindex : isRelaxableAt lines index) (hshort : wide.contains index = false) :
    (shortIndices lines (wide.insert index)).length < (shortIndices lines wide).length := by
  have hfilter : shortIndices lines (wide.insert index) =
      (shortIndices lines wide).filter fun i => !(wide.insert index).contains i := by
    simp only [shortIndices, List.filter_filter]
    apply List.filter_congr
    intro i _
    simp only [Std.HashSet.contains_insert]
    cases wide.contains i <;> simp
  rw [hfilter, List.length_filter_lt_length_iff_exists]
  exact ⟨index, by simp [shortIndices, mem_relaxableIndices_iff, hindex, hshort], by simp⟩

/-- The layout with all holes filled, when the instructions in `wide` must not be short. -/
def Layout.settle (lines : List (CodeLine × Operand)) (endLabel : Option Label)
    (wide : Std.HashSet Nat) : Except Error Layout :=
  match Layout.ofLines wide lines endLabel with
  | .error error => .error error
  | .ok layout =>
    match fillHoles layout.placement layout.code.size layout.holes.toList layout.code with
    | .error error => .error error
    | .ok (.filled code) => .ok { layout with code := code }
    | .ok (.tooFar index) =>
      if _hshort : isRelaxableAt lines index ∧ wide.contains index = false then
        settle lines endLabel (wide.insert index)
      else
        .error (.ofFault (.branchUnsettled index))
termination_by (shortIndices lines wide).length
decreasing_by exact length_shortIndices_insert_lt _hshort.1 _hshort.2

end JvmClass
