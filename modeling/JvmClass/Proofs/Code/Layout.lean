import JvmClass.Proofs.Code.Filling
import JvmClass.Proofs.Result

/-!
# Layouts by offsets

A layout is determined by the offsets of its lines. `Laid` says what an attempt has come to after
some of the lines in terms of these offsets: the bytes and holes of each line by itself, and the
labels that have an offset by then. One step keeps it, so a whole attempt has it, and an attempt
goes well exactly if no line starts too late and no label is placed twice.
-/

namespace JvmClass

/-! ### Places -/

/-- The labels at the places of code: one place in front of each line, and one after the last. -/
abbrev Marks := List (Option Label)

namespace Marks

/-- The first place that a label is at. -/
def placeOf? (marks : Marks) (label : Label) : Option Nat :=
  marks.idxOf? (some label)

def IsDistinct (marks : Marks) : Prop :=
  ∀ place label, marks[place]? = some (some label) → marks.placeOf? label = some place

variable {marks : Marks}

theorem getElem?_of_placeOf? {label : Label} {place : Nat}
    (hplace : marks.placeOf? label = some place) : marks[place]? = some (some label) := by
  obtain ⟨hlt, hlabel, -⟩ := List.idxOf?_eq_some_iff.1 hplace
  exact List.getElem?_eq_some_iff.2 ⟨hlt, hlabel⟩

theorem exists_placeOf?_le {label : Label} {place : Nat}
    (hmark : marks[place]? = some (some label)) :
    ∃ first ≤ place, marks.placeOf? label = some first := by
  obtain ⟨hlt, hlabel⟩ := List.getElem?_eq_some_iff.1 hmark
  have hmem : some label ∈ marks := hlabel ▸ List.getElem_mem hlt
  obtain ⟨first, hfirst⟩ := Option.isSome_iff_exists.1 (List.isSome_idxOf?.2 hmem)
  obtain ⟨_, _, hbefore⟩ := List.idxOf?_eq_some_iff.1 hfirst
  refine ⟨first, Nat.le_of_not_lt fun hplace => ?_, hfirst⟩
  exact hbefore place hplace hlabel

theorem isDistinct_of_nodup (hnodup : (marks.filterMap id).Nodup) : marks.IsDistinct := by
  intro place label hplace
  obtain ⟨hlt, hlabel⟩ := List.getElem?_eq_some_iff.1 hplace
  refine List.idxOf?_eq_some_iff.2 ⟨hlt, hlabel, fun other hother heq => ?_⟩
  have hpairs := List.pairwise_iff_getElem.1 (List.pairwise_filterMap.1 hnodup)
  exact hpairs other place (Nat.lt_trans hother hlt) hlt hother label heq label hlabel rfl

/-- The offset of a label that is at one of the first `count` places. -/
def offsetOf? (marks : Marks) (offsets : Nat → Nat) (count : Nat) (label : Label) : Option UInt16 :=
  ((marks.placeOf? label).filter (· < count)).map fun place => UInt16.ofNat (offsets place)

theorem offsetOf?_eq_some_iff {offsets : Nat → Nat} {count : Nat} {label : Label}
    {offset : UInt16} :
    marks.offsetOf? offsets count label = some offset ↔
      ∃ place, marks.placeOf? label = some place ∧ place < count ∧
        UInt16.ofNat (offsets place) = offset := by
  simp only [offsetOf?, Option.map_eq_some_iff, Option.filter_eq_some_iff, decide_eq_true_eq,
    and_assoc]

theorem offsetOf?_eq_none_iff {offsets : Nat → Nat} {count : Nat} {label : Label} :
    marks.offsetOf? offsets count label = none ↔
      ∀ place, marks.placeOf? label = some place → count ≤ place := by
  simp only [offsetOf?, Option.map_eq_none_iff, Option.filter_eq_none_iff, decide_eq_true_eq,
    Nat.not_lt]

theorem offsetOf?_zero (offsets : Nat → Nat) (label : Label) :
    marks.offsetOf? offsets 0 label = none :=
  offsetOf?_eq_none_iff.2 fun place _ => Nat.zero_le place

/-- One place more has a label of its own to offer, if it has one. -/
theorem offsetOf?_succ {offsets : Nat → Nat} {count : Nat} {mark : Option Label}
    (hmark : marks[count]? = some mark)
    (hfresh : ∀ label, mark = some label → marks.placeOf? label = some count) (label : Label) :
    marks.offsetOf? offsets (count + 1) label =
      if mark = some label then some (UInt16.ofNat (offsets count))
      else marks.offsetOf? offsets count label := by
  split
  · rename_i hlabel
    exact offsetOf?_eq_some_iff.2 ⟨count, hfresh label hlabel, Nat.lt_succ_self count, rfl⟩
  · rename_i hlabel
    unfold offsetOf?
    congr 1
    cases hplace : marks.placeOf? label with
    | none => rfl
    | some place =>
      have hne : place ≠ count := by
        rintro rfl
        rw [getElem?_of_placeOf? hplace] at hmark
        exact hlabel (Option.some.inj hmark).symm
      have hiff : place < count + 1 ↔ place < count := by omega
      simp only [Option.filter, hiff]

end Marks

namespace Layout

variable (wide : Std.HashSet Nat) (lines : List (CodeLine × Operand)) (marks : Marks)

/-! ### Lines by themselves -/

def siteAt (offsets : Nat → Nat) (index : Nat) : EncodingSite :=
  ⟨index, offsets index, marks.offsetOf? offsets (index + 1), wide.contains index⟩

def encodedAt (offsets : Nat → Nat) (index : Nat) : Encoded :=
  match lines[index]? with
  | some (line, operand) => line.instruction.encode (siteAt wide marks offsets index) operand
  | none => .ofBytes []

/-- Each line starts where the one before it ends. -/
structure HasOffsets (offsets : Nat → Nat) : Prop where
  zero : offsets 0 = 0
  succ : ∀ index < lines.length,
    offsets (index + 1) = offsets index + (encodedAt wide lines marks offsets index).bytes.length

def framedOffsets (offsets : Nat → Nat) (count : Nat) : List UInt16 :=
  (lines.take count).zipIdx.filterMap fun (line, index) =>
    if line.1.frame.isSome then some (UInt16.ofNat (offsets index)) else none

/-- What the first `count` lines come to. -/
structure Laid (offsets : Nat → Nat) (count : Nat) (layout : Layout) : Prop where
  code : layout.code.toList =
    (List.range count).flatMap fun index => (encodedAt wide lines marks offsets index).bytes
  size : layout.code.size = offsets count
  holes : layout.holes.toList =
    (List.range count).flatMap fun index => (encodedAt wide lines marks offsets index).holes
  placement : ∀ label, layout.placement[label]? = marks.offsetOf? offsets count label
  frameOffsets : layout.frameOffsets.toList = framedOffsets lines offsets count

variable {wide lines marks} {offsets : Nat → Nat}

theorem HasOffsets.laid_empty (hoffsets : HasOffsets wide lines marks offsets) :
    Laid wide lines marks offsets 0 empty where
  code := rfl
  size := hoffsets.zero.symm
  holes := rfl
  placement label := by
    rw [Marks.offsetOf?_zero]
    exact Std.HashMap.getElem?_empty
  frameOffsets := rfl

/-! ### Offsets -/

theorem siteAt_congr {other : Nat → Nat} {index : Nat}
    (hsame : ∀ place ≤ index, offsets place = other place) :
    siteAt wide marks offsets index = siteAt wide marks other index := by
  have hknown : marks.offsetOf? offsets (index + 1) = marks.offsetOf? other (index + 1) := by
    funext label
    refine Option.ext fun offset => ?_
    simp only [Marks.offsetOf?_eq_some_iff]
    refine exists_congr fun place => and_congr_right fun _ => and_congr_right fun hplace => ?_
    rw [hsame place (Nat.le_of_lt_succ hplace)]
  rw [siteAt, siteAt, hknown, hsame index (Nat.le_refl index)]

/-- An encoded line depends only on the offsets up to its own. -/
theorem encodedAt_congr {other : Nat → Nat} {index : Nat}
    (hsame : ∀ place ≤ index, offsets place = other place) :
    encodedAt wide lines marks offsets index = encodedAt wide lines marks other index := by
  rw [encodedAt, encodedAt, siteAt_congr hsame]

private def offsetsFor (wide : Std.HashSet Nat) (lines : List (CodeLine × Operand))
    (marks : Marks) : Nat → Nat → Nat
  | 0, _ => 0
  | count + 1, place =>
    let before := offsetsFor wide lines marks count
    if place ≤ count then
      before place
    else
      before count + (encodedAt wide lines marks before count).bytes.length

private theorem offsetsFor_of_le {count place : Nat} (hle : place ≤ count) :
    offsetsFor wide lines marks count place = offsetsFor wide lines marks place place := by
  induction count with
  | zero => rw [Nat.le_zero.1 hle]
  | succ count ih =>
    obtain hlt | rfl := Nat.lt_or_eq_of_le hle
    · rw [offsetsFor, if_pos (Nat.le_of_lt_succ hlt), ih (Nat.le_of_lt_succ hlt)]
    · rfl

/-- Whether or not a layout goes well, its lines have offsets. -/
theorem exists_hasOffsets (wide : Std.HashSet Nat) (lines : List (CodeLine × Operand))
    (marks : Marks) : ∃ offsets, HasOffsets wide lines marks offsets := by
  refine ⟨fun place => offsetsFor wide lines marks place place, rfl, fun index _ => ?_⟩
  have hsame : ∀ place ≤ index,
      offsetsFor wide lines marks index place = offsetsFor wide lines marks place place :=
    fun place hplace => offsetsFor_of_le hplace
  change offsetsFor wide lines marks (index + 1) (index + 1) = _
  rw [offsetsFor, if_neg (Nat.not_succ_le_self index), encodedAt_congr hsame]

/-! ### One line -/

theorem nextOffset_eq_ok_iff {layout : Layout} {offset : UInt16} :
    layout.nextOffset = .ok offset ↔
      layout.code.size ≤ CodeAttribute.maxLength ∧ UInt16.ofNat layout.code.size = offset := by
  unfold nextOffset
  split <;> rename_i hsize <;> simp [hsize]

def placed (placement : Placement) (mark : Option Label) (offset : UInt16) : Placement :=
  match mark with
  | none => placement
  | some label => placement.insert label offset

theorem getElem?_placed (placement : Placement) (mark : Option Label) (offset : UInt16)
    (label : Label) :
    (placed placement mark offset)[label]? =
      if mark = some label then some offset else placement[label]? := by
  cases mark with
  | none => rfl
  | some other =>
    simp only [placed, Std.HashMap.getElem?_insert, beq_iff_eq, Option.some.injEq]

theorem placeLabel_eq_ok_iff {layout next : Layout} {mark : Option Label} {offset : UInt16} :
    layout.placeLabel mark offset = .ok next ↔
      (∀ label, mark = some label → layout.placement[label]? = none) ∧
        { layout with placement := placed layout.placement mark offset } = next := by
  cases mark with
  | none => simp [placeLabel, placed]
  | some label =>
    simp only [placeLabel, Placement.place, placed, Option.some.injEq, forall_eq']
    cases layout.placement[label]? with
    | none => exact ⟨fun h => ⟨rfl, Except.ok.inj h⟩, fun h => congrArg Except.ok h.2⟩
    | some first =>
      constructor
      · intro hplaced
        cases hplaced
      · rintro ⟨hnone, -⟩
        cases hnone

def added (wide : Std.HashSet Nat) (layout : Layout) (index : Nat) (line : CodeLine)
    (operand : Operand) : Layout :=
  let offset := UInt16.ofNat layout.code.size
  let placement := placed layout.placement line.label offset
  let encoded := line.instruction.encode
    ⟨index, layout.code.size, fun label => placement[label]?, wide.contains index⟩ operand
  ⟨layout.code ++ encoded.bytes, placement,
    if line.frame.isSome then layout.frameOffsets.push offset else layout.frameOffsets,
    layout.holes ++ encoded.holes⟩

theorem addLine_eq_ok_iff {layout next : Layout} {index : Nat} {line : CodeLine}
    {operand : Operand} :
    layout.addLine wide index line operand = .ok next ↔
      layout.code.size ≤ CodeAttribute.maxLength ∧
        (∀ label, line.label = some label → layout.placement[label]? = none) ∧
        layout.added wide index line operand = next := by
  constructor
  · intro hadd
    obtain ⟨offset, hoffset, hadd⟩ := Result.exists_of_bind hadd
    obtain ⟨hsize, rfl⟩ := nextOffset_eq_ok_iff.1 hoffset
    obtain ⟨placed, hplaced, hadd⟩ := Result.exists_of_bind hadd
    obtain ⟨hfresh, rfl⟩ := placeLabel_eq_ok_iff.1 hplaced
    exact ⟨hsize, hfresh, Except.ok.inj hadd⟩
  · rintro ⟨hsize, hfresh, rfl⟩
    have hoffset := nextOffset_eq_ok_iff.2 ⟨hsize, rfl⟩
    have hplaced := placeLabel_eq_ok_iff.2 ⟨hfresh, Eq.refl
      { layout with placement := placed layout.placement line.label (.ofNat layout.code.size) }⟩
    rw [addLine, hoffset]
    change (layout.placeLabel line.label (UInt16.ofNat layout.code.size) >>= _) = _
    rw [hplaced]
    rfl

/-- A line with a new label cannot be added only if it starts too late. -/
theorem eq_of_addLine_error {layout : Layout} {index : Nat} {line : CodeLine} {operand : Operand}
    {error : Error} (hfresh : ∀ label, line.label = some label → layout.placement[label]? = none)
    (hadd : layout.addLine wide index line operand = .error error) :
    error = .ofFault .bytecodeOverflow := by
  by_cases hsize : layout.code.size ≤ CodeAttribute.maxLength
  · cases (addLine_eq_ok_iff.2 ⟨hsize, hfresh, rfl⟩).symm.trans hadd
  · rw [addLine, nextOffset, if_neg hsize] at hadd
    cases hadd
    rfl

theorem framedOffsets_succ {count : Nat} {line : CodeLine} {operand : Operand}
    (hline : lines[count]? = some (line, operand)) :
    framedOffsets lines offsets (count + 1) = framedOffsets lines offsets count ++
      if line.frame.isSome then [UInt16.ofNat (offsets count)] else [] := by
  have hlength : (lines.take count).length = count :=
    List.length_take_of_le (Nat.le_of_lt (List.getElem?_eq_some_iff.1 hline).1)
  simp only [framedOffsets, List.take_add_one, hline, Option.toList_some, List.zipIdx_append, hlength,
    Nat.zero_add, List.zipIdx_singleton, List.filterMap_append]
  cases hframe : line.frame.isSome <;> simp [hframe]

/-- Adding a line keeps what the lines before it come to. -/
theorem Laid.added {count : Nat} {layout : Layout} {line : CodeLine} {operand : Operand}
    (hlaid : Laid wide lines marks offsets count layout)
    (hoffsets : HasOffsets wide lines marks offsets)
    (hline : lines[count]? = some (line, operand)) (hmark : marks[count]? = some line.label)
    (hfresh : ∀ label, line.label = some label → marks.placeOf? label = some count) :
    Laid wide lines marks offsets (count + 1) (layout.added wide count line operand) := by
  have hplaced : ∀ label, (placed layout.placement line.label (UInt16.ofNat layout.code.size))[label]?
      = marks.offsetOf? offsets (count + 1) label := by
    intro label
    rw [getElem?_placed, Marks.offsetOf?_succ hmark hfresh, hlaid.placement, hlaid.size]
  have hencoded : line.instruction.encode ⟨count, layout.code.size, fun label =>
        (placed layout.placement line.label (UInt16.ofNat layout.code.size))[label]?,
        wide.contains count⟩ operand = encodedAt wide lines marks offsets count := by
    rw [funext hplaced, encodedAt, hline, hlaid.size]
    rfl
  have hcount : count < lines.length := (List.getElem?_eq_some_iff.1 hline).1
  exact {
    code := by
      simp only [Layout.added, hencoded, List.range_succ]
      simp [hlaid.code]
    size := by
      simp only [Layout.added, hencoded]
      rw [← Array.length_toList, Array.toList_appendList, List.length_append, Array.length_toList,
        hlaid.size, hoffsets.succ count hcount]
    holes := by
      simp only [Layout.added, hencoded, List.range_succ]
      simp [hlaid.holes]
    placement := hplaced
    frameOffsets := by
      rw [framedOffsets_succ hline, ← hlaid.frameOffsets, ← hlaid.size]
      simp only [Layout.added]
      cases line.frame.isSome <;> simp }

/-! ### All lines -/

/-- The lines from `first` on can be added: none starts too late or has a label that is placed
before. -/
def CanAddFrom (marks : Marks) (offsets : Nat → Nat) (first last : Nat) : Prop :=
  ∀ index, first ≤ index → index < last → offsets index ≤ CodeAttribute.maxLength ∧
    ∀ label, marks[index]? = some (some label) → marks.placeOf? label = some index

theorem Laid.getElem?_eq_none_iff {count : Nat} {layout : Layout} {label : Label}
    (hlaid : Laid wide lines marks offsets count layout)
    (hmark : marks[count]? = some (some label)) :
    layout.placement[label]? = none ↔ marks.placeOf? label = some count := by
  rw [hlaid.placement, Marks.offsetOf?_eq_none_iff]
  obtain ⟨first, hfirst, hplace⟩ := Marks.exists_placeOf?_le hmark
  rw [hplace]
  simp only [Option.some.injEq, forall_eq']
  omega

def HasMarks (lines : List (CodeLine × Operand)) (marks : Marks) : Prop :=
  ∀ (index : Nat) (line : CodeLine) (operand : Operand),
    lines[index]? = some (line, operand) → marks[index]? = some line.label

/-- A line can be added exactly if it does not start too late and its label is not placed before. -/
theorem Laid.addLine_eq_ok_iff {count : Nat} {layout next : Layout} {line : CodeLine}
    {operand : Operand} (hlaid : Laid wide lines marks offsets count layout)
    (hmark : marks[count]? = some line.label) :
    layout.addLine wide count line operand = .ok next ↔
      offsets count ≤ CodeAttribute.maxLength ∧
        (∀ label, line.label = some label → marks.placeOf? label = some count) ∧
        layout.added wide count line operand = next := by
  have hfresh : (∀ label, line.label = some label → layout.placement[label]? = none) ↔
      ∀ label, line.label = some label → marks.placeOf? label = some count :=
    forall_congr' fun label => forall_congr' fun hlabel =>
      hlaid.getElem?_eq_none_iff (by rw [hmark, hlabel])
  rw [Layout.addLine_eq_ok_iff, hlaid.size, hfresh]

private theorem getElem?_and_drop_of_drop {α : Type} {values rest : List α} {value : α} {count : Nat}
    (hdrop : values.drop count = value :: rest) :
    values[count]? = some value ∧ values.drop (count + 1) = rest := by
  refine ⟨?_, ?_⟩
  · rw [← List.head?_drop, hdrop, List.head?_cons]
  · rw [← List.tail_drop, hdrop, List.tail_cons]

/-- If lines could be added, this is what they come to. -/
theorem Laid.addLines {rest : List (CodeLine × Operand)} {count : Nat} {layout final : Layout}
    (hlaid : Laid wide lines marks offsets count layout)
    (hoffsets : HasOffsets wide lines marks offsets) (hmarks : HasMarks lines marks)
    (hcount : count ≤ lines.length) (hrest : lines.drop count = rest)
    (hfinal : Layout.addLines wide count rest layout = .ok final) :
    CanAddFrom marks offsets count lines.length ∧
      Laid wide lines marks offsets lines.length final := by
  induction rest generalizing count layout with
  | nil =>
    obtain rfl : count = lines.length := Nat.le_antisymm hcount (List.drop_eq_nil_iff.1 hrest)
    cases hfinal
    exact ⟨fun index hfirst hlast => absurd hlast (Nat.not_lt.2 hfirst), hlaid⟩
  | cons first rest ih =>
    obtain ⟨line, operand⟩ := first
    obtain ⟨hline, hrest⟩ := getElem?_and_drop_of_drop hrest
    have hmark := hmarks count line operand hline
    rw [Layout.addLines] at hfinal
    split at hfinal
    · rename_i next hnext
      obtain ⟨hoffset, hfresh, rfl⟩ := (hlaid.addLine_eq_ok_iff hmark).1 hnext
      obtain ⟨hlater, hlaid⟩ := ih (hlaid.added hoffsets hline hmark hfresh)
        (List.getElem?_eq_some_iff.1 hline).1 hrest hfinal
      refine ⟨fun index hfirst hlast => ?_, hlaid⟩
      obtain rfl | hlt := Nat.eq_or_lt_of_le hfirst
      · exact ⟨hoffset, fun label hlabel => hfresh label (by simpa [hmark] using hlabel)⟩
      · exact hlater index hlt hlast
    · cases hfinal

theorem Laid.exists_addLines {rest : List (CodeLine × Operand)} {count : Nat} {layout : Layout}
    (hlaid : Laid wide lines marks offsets count layout)
    (hoffsets : HasOffsets wide lines marks offsets) (hmarks : HasMarks lines marks)
    (hrest : lines.drop count = rest) (hcan : CanAddFrom marks offsets count lines.length) :
    ∃ final, Layout.addLines wide count rest layout = .ok final := by
  induction rest generalizing count layout with
  | nil => exact ⟨layout, rfl⟩
  | cons first rest ih =>
    obtain ⟨line, operand⟩ := first
    obtain ⟨hline, hrest⟩ := getElem?_and_drop_of_drop hrest
    have hmark := hmarks count line operand hline
    obtain ⟨hoffset, hplace⟩ := hcan count (Nat.le_refl count) (List.getElem?_eq_some_iff.1 hline).1
    have hfresh : ∀ label, line.label = some label → marks.placeOf? label = some count :=
      fun label hlabel => hplace label (by rw [hmark, hlabel])
    have hnext : layout.addLine wide count line operand = .ok _ :=
      (hlaid.addLine_eq_ok_iff hmark).2 ⟨hoffset, hfresh, rfl⟩
    obtain ⟨final, hfinal⟩ := ih (hlaid.added hoffsets hline hmark hfresh) hrest
      fun index hfirst => hcan index (Nat.le_of_succ_le hfirst)
    refine ⟨final, ?_⟩
    rw [Layout.addLines, hnext]
    exact hfinal

theorem Laid.eq_of_addLines_error {rest : List (CodeLine × Operand)} {count : Nat}
    {layout : Layout} {error : Error} (hlaid : Laid wide lines marks offsets count layout)
    (hoffsets : HasOffsets wide lines marks offsets) (hmarks : HasMarks lines marks)
    (hdistinct : marks.IsDistinct) (hrest : lines.drop count = rest)
    (herror : Layout.addLines wide count rest layout = .error error) :
    error = .ofFault .bytecodeOverflow := by
  induction rest generalizing count layout with
  | nil => cases herror
  | cons first rest ih =>
    obtain ⟨line, operand⟩ := first
    obtain ⟨hline, hrest⟩ := getElem?_and_drop_of_drop hrest
    have hmark := hmarks count line operand hline
    have hplace : ∀ label, line.label = some label → marks.placeOf? label = some count :=
      fun label hlabel => hdistinct count label (by rw [hmark, hlabel])
    rw [Layout.addLines] at herror
    split at herror
    · rename_i next hnext
      obtain ⟨-, -, rfl⟩ := (hlaid.addLine_eq_ok_iff hmark).1 hnext
      exact ih (hlaid.added hoffsets hline hmark hplace) hrest herror
    · rename_i failure hfailure
      cases herror
      refine eq_of_addLine_error (fun label hlabel => ?_) hfailure
      exact (hlaid.getElem?_eq_none_iff (by rw [hmark, hlabel])).2 (hplace label hlabel)

def marksOf (lines : List (CodeLine × Operand)) (endLabel : Option Label) : Marks :=
  lines.map (fun line => line.1.label) ++ [endLabel]

variable {endLabel : Option Label}

theorem hasMarks_marksOf : HasMarks lines (marksOf lines endLabel) := by
  intro index line operand hline
  have hlt : index < lines.length := (List.getElem?_eq_some_iff.1 hline).1
  rw [marksOf, List.getElem?_append_left (by simpa using hlt), List.getElem?_map, hline]
  rfl

theorem getElem?_marksOf_length : (marksOf lines endLabel)[lines.length]? = some endLabel := by
  rw [marksOf, List.getElem?_append_right (by simp)]
  simp

theorem le_of_getElem?_marksOf {place : Nat} {mark : Option Label}
    (hmark : (marksOf lines endLabel)[place]? = some mark) : place ≤ lines.length := by
  have hlt := (List.getElem?_eq_some_iff.1 hmark).1
  simp only [marksOf, List.length_append, List.length_map, List.length_singleton] at hlt
  omega

/-- What an attempt that goes well comes to. -/
structure Complete (wide : Std.HashSet Nat) (lines : List (CodeLine × Operand))
    (endLabel : Option Label) (offsets : Nat → Nat) (layout : Layout) : Prop where
  hasOffsets : HasOffsets wide lines (marksOf lines endLabel) offsets
  distinct : (marksOf lines endLabel).IsDistinct
  start_le : ∀ index < lines.length, offsets index ≤ CodeAttribute.maxLength
  end_le : endLabel.isSome → offsets lines.length ≤ CodeAttribute.maxLength
  code : layout.code.toList = (List.range lines.length).flatMap fun index =>
    (encodedAt wide lines (marksOf lines endLabel) offsets index).bytes
  size : layout.code.size = offsets lines.length
  holes : layout.holes.toList = (List.range lines.length).flatMap fun index =>
    (encodedAt wide lines (marksOf lines endLabel) offsets index).holes
  placement : ∀ label, layout.placement[label]? =
    (marksOf lines endLabel).offsetOf? offsets (lines.length + 1) label
  frameOffsets : layout.frameOffsets.toList = framedOffsets lines offsets lines.length

theorem Complete.mem_holes_iff {layout : Layout}
    (hcomplete : Complete wide lines endLabel offsets layout) {hole : Hole} :
    hole ∈ layout.holes.toList ↔ ∃ (index : Nat) (line : CodeLine) (operand : Operand),
      lines[index]? = some (line, operand) ∧
      hole ∈ (line.instruction.encode (siteAt wide (marksOf lines endLabel) offsets index)
        operand).holes := by
  rw [hcomplete.holes, List.mem_flatMap]
  constructor
  · rintro ⟨index, hindex, hhole⟩
    obtain ⟨⟨line, operand⟩, hline⟩ : ∃ line, lines[index]? = some line :=
      ⟨_, List.getElem?_eq_getElem (List.mem_range.1 hindex)⟩
    rw [encodedAt, hline] at hhole
    exact ⟨index, line, operand, hline, hhole⟩
  · rintro ⟨index, line, operand, hline, hhole⟩
    refine ⟨index, List.mem_range.2 (List.getElem?_eq_some_iff.1 hline).1, ?_⟩
    rw [encodedAt, hline]
    exact hhole

def withEnd (layout : Layout) (endLabel : Option Label) : Layout :=
  { layout with placement := placed layout.placement endLabel (.ofNat layout.code.size) }

theorem ofLines_eq_ok_iff {layout : Layout} :
    ofLines wide lines endLabel = .ok layout ↔
      ∃ before, addLines wide 0 lines empty = .ok before ∧
        (endLabel.isSome → before.code.size ≤ CodeAttribute.maxLength) ∧
        (∀ label, endLabel = some label → before.placement[label]? = none) ∧
        before.withEnd endLabel = layout := by
  unfold ofLines
  cases addLines wide 0 lines empty with
  | error error => simp [bind, Except.bind]
  | ok before =>
    cases endLabel with
    | none => simp [bind, Except.bind, pure, Except.pure, placed, withEnd]
    | some label =>
      simp only [Except.ok.injEq, exists_eq_left', Option.isSome_some, forall_const]
      change (before.nextOffset >>= before.placeLabel (some label)) = _ ↔ _
      constructor
      · intro hok
        obtain ⟨offset, hoffset, hplaced⟩ := Result.exists_of_bind hok
        obtain ⟨hsize, rfl⟩ := nextOffset_eq_ok_iff.1 hoffset
        exact ⟨hsize, placeLabel_eq_ok_iff.1 hplaced⟩
      · rintro ⟨hsize, hplaced⟩
        rw [nextOffset_eq_ok_iff.2 ⟨hsize, rfl⟩]
        exact placeLabel_eq_ok_iff.2 hplaced

/-- **Attempts.** What an attempt comes to, in terms of the offsets of its lines. -/
theorem complete_of_ofLines {layout : Layout} (hoffsets :
      HasOffsets wide lines (marksOf lines endLabel) offsets)
    (hlayout : ofLines wide lines endLabel = .ok layout) :
    Complete wide lines endLabel offsets layout := by
  obtain ⟨before, hbefore, hsize, hfresh, rfl⟩ := ofLines_eq_ok_iff.1 hlayout
  obtain ⟨hcan, hlaid⟩ := hoffsets.laid_empty.addLines hoffsets hasMarks_marksOf
    (Nat.zero_le _) rfl hbefore
  have hlast : ∀ label, endLabel = some label →
      (marksOf lines endLabel).placeOf? label = some lines.length := by
    intro label hlabel
    refine (hlaid.getElem?_eq_none_iff ?_).1 (hfresh label hlabel)
    rw [getElem?_marksOf_length, hlabel]
  exact {
    hasOffsets := hoffsets
    distinct := by
      intro place label hmark
      obtain hlt | rfl := Nat.lt_or_eq_of_le (le_of_getElem?_marksOf hmark)
      · exact (hcan place (Nat.zero_le place) hlt).2 label hmark
      · rw [getElem?_marksOf_length] at hmark
        exact hlast label (Option.some.inj hmark)
    start_le := fun index hindex => (hcan index (Nat.zero_le index) hindex).1
    end_le := fun hsome => hlaid.size ▸ hsize hsome
    code := hlaid.code
    size := hlaid.size
    holes := hlaid.holes
    placement := by
      intro label
      rw [withEnd, getElem?_placed, hlaid.size, hlaid.placement,
        Marks.offsetOf?_succ getElem?_marksOf_length hlast]
    frameOffsets := hlaid.frameOffsets }

/-- When all lines are added, the label after the last one is not placed yet. -/
theorem Laid.endLabel_fresh {layout : Layout}
    (hlaid : Laid wide lines (marksOf lines endLabel) offsets lines.length layout)
    (hdistinct : (marksOf lines endLabel).IsDistinct) :
    ∀ label, endLabel = some label → layout.placement[label]? = none := by
  intro label hlabel
  have hmark : (marksOf lines endLabel)[lines.length]? = some (some label) := by
    rw [getElem?_marksOf_length, hlabel]
  exact (hlaid.getElem?_eq_none_iff hmark).2 (hdistinct _ label hmark)

/-- An attempt goes well if no line starts too late and no label is placed twice. -/
theorem exists_ofLines (hoffsets : HasOffsets wide lines (marksOf lines endLabel) offsets)
    (hdistinct : (marksOf lines endLabel).IsDistinct)
    (hstart : ∀ index < lines.length, offsets index ≤ CodeAttribute.maxLength)
    (hend : endLabel.isSome → offsets lines.length ≤ CodeAttribute.maxLength) :
    ∃ layout, ofLines wide lines endLabel = .ok layout := by
  have hcan : CanAddFrom (marksOf lines endLabel) offsets 0 lines.length :=
    fun index _ hindex => ⟨hstart index hindex, fun label => hdistinct index label⟩
  have hempty := hoffsets.laid_empty
  obtain ⟨before, hbefore⟩ := hempty.exists_addLines hoffsets hasMarks_marksOf rfl hcan
  obtain ⟨-, hlaid⟩ := hempty.addLines hoffsets hasMarks_marksOf (Nat.zero_le _) rfl hbefore
  refine ⟨_, ofLines_eq_ok_iff.2 ⟨before, hbefore, ?_, ?_, rfl⟩⟩
  · rw [hlaid.size]
    exact hend
  · exact hlaid.endLabel_fresh hdistinct

theorem eq_of_ofLines_error {error : Error}
    (hoffsets : HasOffsets wide lines (marksOf lines endLabel) offsets)
    (hdistinct : (marksOf lines endLabel).IsDistinct)
    (herror : ofLines wide lines endLabel = .error error) :
    error = .ofFault .bytecodeOverflow := by
  have hempty := hoffsets.laid_empty
  cases hbefore : addLines wide 0 lines empty with
  | error failure =>
    rw [ofLines, hbefore] at herror
    cases herror
    exact hempty.eq_of_addLines_error hoffsets hasMarks_marksOf hdistinct rfl hbefore
  | ok before =>
    obtain ⟨-, hlaid⟩ := hempty.addLines hoffsets hasMarks_marksOf (Nat.zero_le _) rfl hbefore
    by_cases hsize : before.code.size ≤ CodeAttribute.maxLength
    · have hok := ofLines_eq_ok_iff.2
        ⟨before, hbefore, fun _ => hsize, hlaid.endLabel_fresh hdistinct, rfl⟩
      cases hok.symm.trans herror
    · rw [ofLines, hbefore] at herror
      cases endLabel with
      | none => cases herror
      | some label =>
        change (before.nextOffset >>= before.placeLabel (some label)) = _ at herror
        rw [nextOffset, if_neg hsize] at herror
        cases herror
        rfl

end Layout

end JvmClass
