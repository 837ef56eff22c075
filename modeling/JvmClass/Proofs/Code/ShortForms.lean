import JvmClass.Proofs.Code.Splitting
import Mathlib.Algebra.Group.Int.Defs

/-!
# Short forms

A branch or jump is wide in the end because it was too far from its target in some attempt. It need
not be too far in the end: a switch that is moved by the lines that became wide since may have
become smaller. So what goes back is short exactly if that is near enough, and what goes ahead is so
if the lines in between cannot become smaller, which they cannot if there is no switch among them
and none of them goes back across one.
-/

namespace JvmClass

namespace Layout

variable {wide : Std.HashSet Nat} {lines : List (CodeLine × Operand)} {marks : Marks}
  {endLabel : Option Label} {offsets : Nat → Nat}

/-! ### Lines that cannot become smaller -/

/-- From one place up to another no line is a switch, and none goes back to before these lines. -/
def IsSteady (lines : List CodeLine) (marks : Marks) (first last : Nat) : Prop :=
  ∀ index line, lines[index]? = some line → first ≤ index → index < last →
    line.instruction.isSwitch = false ∧
      ∀ label ∈ line.instruction.targets, ∀ place, marks[place]? = some (some label) → first ≤ place

/-- The lines before a place are left out: they take no room. -/
def formsFrom (first : Nat) (forms : Nat → Form) (index : Nat) : Form :=
  if index < first then .fixed 0 else forms index

def offsetsFrom (first : Nat) (offsets : Nat → Nat) (index : Nat) : Nat :=
  offsets (max first index) - offsets first

theorem offsetsFrom_of_le {first index : Nat} (hindex : first ≤ index) :
    offsetsFrom first offsets index = offsets index - offsets first := by
  rw [offsetsFrom, Nat.max_eq_right hindex]

theorem isWide_offsetsFrom {first index place : Nat} (hindex : first ≤ index)
    (hplace : first ≤ place) (hmono : ∀ other, first ≤ other → other ≤ index →
      offsets first ≤ offsets other) :
    Form.isWide (offsetsFrom first offsets) wide index place =
      Form.isWide offsets wide index place := by
  by_cases hbehind : place ≤ index
  · have hthere := hmono place hplace hbehind
    have hhere := hmono index hindex (Nat.le_refl index)
    rw [Form.isWide_of_behind hbehind, Form.isWide_of_behind hbehind, offsetsFrom_of_le hindex,
      offsetsFrom_of_le hplace]
    congr 2
    omega
  · rw [Form.isWide_of_ahead (Nat.not_le.1 hbehind), Form.isWide_of_ahead (Nat.not_le.1 hbehind)]

theorem isWideTo_of_ahead {index place : Nat} {label : Label}
    (hplace : marks.placeOf? label = some place) (hahead : index < place) :
    (siteAt wide marks offsets index).isWideTo label = wide.contains index := by
  have hnone : marks.offsetOf? offsets (index + 1) label = none := by
    refine Marks.offsetOf?_eq_none_iff.2 fun other hother => ?_
    cases hplace.symm.trans hother
    exact hahead
  simp only [EncodingSite.isWideTo, siteAt, hnone]

theorem formAt_of_getElem? {index : Nat} {line : CodeLine} {operand : Operand}
    (hline : lines[index]? = some (line, operand)) :
    formAt lines marks index = formOf marks operand line.instruction := by
  simp only [formAt, hline]

theorem exists_target_of_formAt {index place wideSize : Nat}
    (hform : formAt lines marks index = .toward place wideSize) :
    ∃ line operand, lines[index]? = some (line, operand) ∧ ∃ label ∈ line.instruction.targets,
      place = (marks.placeOf? label).getD marks.length := by
  cases hline : lines[index]? with
  | none =>
    simp only [formAt, hline] at hform
    cases hform
  | some pair =>
    obtain ⟨line, operand⟩ := pair
    simp only [formAt, hline] at hform
    cases hinstruction : line.instruction with
    | branch condition label | jump op label =>
      rw [hinstruction] at hform
      cases hform
      exact ⟨line, operand, rfl, label, by simp [hinstruction, Instruction.targets], rfl⟩
    | _ =>
      rw [hinstruction] at hform
      cases hform

/-- In a steady stretch no line goes back to before it. -/
theorem IsSteady.first_le {first last index place wideSize : Nat}
    (hsteady : IsSteady (lines.map Prod.fst) marks first last)
    (hmarks : lines.length ≤ marks.length) (hfirst : first ≤ index) (hlast : index < last)
    (hform : formAt lines marks index = .toward place wideSize) : first ≤ place := by
  obtain ⟨line, operand, hline, label, hlabel, rfl⟩ := exists_target_of_formAt hform
  have hlt := (List.getElem?_eq_some_iff.1 hline).1
  have htargets := (hsteady index line (by simp [hline]) hfirst hlast).2 label hlabel
  cases hplace : marks.placeOf? label with
  | none =>
    rw [Option.getD_none]
    omega
  | some place => exact htargets place (Marks.getElem?_of_placeOf? hplace)

/-- The lines of a steady stretch stand one after the other, wherever the stretch starts. -/
theorem HasOffsets.spaced_of_isSteady (hoffsets : HasOffsets wide lines marks offsets)
    (hmarks : lines.length ≤ marks.length) {first last : Nat}
    (hsteady : IsSteady (lines.map Prod.fst) marks first last) (hlast : last ≤ lines.length)
    (hbound : ∀ index < last, offsets index < 65536) :
    Spaced (formsFrom first (formAt lines marks)) last wide (offsetsFrom first offsets) := by
  intro index hindex
  by_cases hbefore : index < first
  · rw [formsFrom, if_pos hbefore, offsetsFrom, offsetsFrom, Nat.max_eq_left hbefore,
      Nat.max_eq_left (Nat.le_of_lt hbefore)]
    rfl
  · have hfirst : first ≤ index := Nat.not_lt.1 hbefore
    have hmono : ∀ other, first ≤ other → other ≤ index → offsets first ≤ offsets other :=
      fun other hother hle => hoffsets.offsets_le hother (by omega)
    have hnext := hoffsets.succ index (by omega)
    rw [length_encodedAt (by omega) (fun place hplace => hbound place (by omega))
      fun line hline => (hsteady index line.1 (by simp [hline]) hfirst hindex).1] at hnext
    have hsize : (formAt lines marks index).size (offsetsFrom first offsets) wide index =
        (formAt lines marks index).size offsets wide index := by
      cases hform : formAt lines marks index with
      | fixed size => rfl
      | toward place wideSize =>
        have hplace := hsteady.first_le hmarks hfirst hindex hform
        rw [Form.size, Form.size, isWide_offsetsFrom hfirst hplace hmono]
    have hhere := hmono index hfirst (Nat.le_refl index)
    have hthere : offsetsFrom first offsets (index + 1) = offsets (index + 1) - offsets first :=
      offsetsFrom_of_le (Nat.le_succ_of_le hfirst)
    rw [formsFrom, if_neg hbefore, hsize, offsetsFrom_of_le hfirst, hthere]
    omega

/-- **Steady stretches.** No distance in one becomes smaller when more lines are wide. -/
theorem gap_le_of_isSteady {before : Std.HashSet Nat} {other : Nat → Nat}
    (hbefore : HasOffsets before lines marks other) (hoffsets : HasOffsets wide lines marks offsets)
    (hmarks : lines.length ≤ marks.length)
    (hwide : ∀ index, before.contains index → wide.contains index)
    {first last : Nat} (hsteady : IsSteady (lines.map Prod.fst) marks first last)
    (hlast : last ≤ lines.length) (hotherBound : ∀ index < last, other index < 65536)
    (hbound : ∀ index < last, offsets index < 65536) {index : Nat} (hfirst : first ≤ index)
    (hindex : index ≤ last) :
    other last + offsets index ≤ offsets last + other index := by
  have hcompared : Compared (formsFrom first (formAt lines marks))
      (formsFrom first (formAt lines marks)) id last before wide (offsetsFrom first other)
      (offsetsFrom first offsets) := {
    spaced := hbefore.spaced_of_isSteady hmarks hsteady hlast hotherBound
    finerSpaced := hoffsets.spaced_of_isSteady hmarks hsteady hlast hbound
    refines := by
      intro index hindex
      by_cases hlt : index < first
      · have hform : formsFrom first (formAt lines marks) index = .fixed 0 := if_pos hlt
        exact .fixed hform rfl hform
      · have heq : formsFrom first (formAt lines marks) index = formAt lines marks index :=
          if_neg hlt
        obtain ⟨size, hform⟩ | ⟨place, wideSize, hform, hsize⟩ := formAt_cases lines marks index
        · exact .fixed (heq.trans hform) rfl (heq.trans hform)
        · exact .same (heq.trans hform) rfl (heq.trans hform) hsize
    ahead := fun _ _ _ _ _ hahead => hahead
    wide_of_wide := hwide }
  have hgap := hcompared.gap_le hindex (Nat.le_refl last)
  simp only [id_eq, offsetsFrom_of_le hfirst, offsetsFrom_of_le (Nat.le_trans hfirst hindex)]
    at hgap
  have hotherHere := hbefore.offsets_le hfirst (Nat.le_trans hindex hlast)
  have hotherThere := hbefore.offsets_le (Nat.le_trans hfirst hindex) hlast
  have hhere := hoffsets.offsets_le hfirst (Nat.le_trans hindex hlast)
  have hthere := hoffsets.offsets_le (Nat.le_trans hfirst hindex) hlast
  omega

/-! ### Why a line is wide -/

/-- A line is wide since it was too far from its target in an attempt with fewer lines wide. -/
theorem Attempted.exists_isTooFar (hattempted : Attempted lines endLabel wide) {index : Nat}
    (hindex : wide.contains index) :
    ∃ before offsets layout place, (∀ other, before.contains other → wide.contains other) ∧
      Complete before lines endLabel offsets layout ∧
      IsTooFar before lines (marksOf lines endLabel) offsets index place := by
  induction hattempted with
  | first =>
    rw [Std.HashSet.contains_empty] at hindex
    cases hindex
  | @again wide offsets layout found place _ hcomplete hfar ih =>
    have hmore : ∀ other, wide.contains other → (wide.insert found).contains other := by
      intro other hother
      rw [Std.HashSet.contains_insert, hother, Bool.or_true]
    rw [Std.HashSet.contains_insert, Bool.or_eq_true, beq_iff_eq] at hindex
    obtain rfl | hindex := hindex
    · exact ⟨wide, offsets, layout, place, hmore, hcomplete, hfar⟩
    · obtain ⟨before, other, earlier, place, hless, hearlier⟩ := ih hindex
      exact ⟨before, other, earlier, place, fun other hother => hmore other (hless other hother),
        hearlier⟩

/-- What is wide is too far from a place that is ahead, if the lines up to there are steady. -/
theorem Settled.far_of_isSteady {layout : Layout} (hattempted : Attempted lines endLabel wide)
    (hsettled : Settled wide lines endLabel offsets layout) {index place wideSize : Nat}
    (hform : formAt lines (marksOf lines endLabel) index = .toward place wideSize)
    {first : Nat} (hfirst : first ≤ index)
    (hsteady : IsSteady (lines.map Prod.fst) (marksOf lines endLabel) first place)
    (hwide : wide.contains index) :
    fitsShort ((offsets place : Int) - offsets index) = false := by
  obtain ⟨before, other, earlier, found, hless, hcomplete, hfar⟩ :=
    hattempted.exists_isTooFar hwide
  obtain ⟨otherSize, hother⟩ := hfar.form
  cases hform.symm.trans hother
  have hahead := Nat.le_of_lt hfar.ahead
  have hgap := gap_le_of_isSteady hcomplete.hasOffsets hsettled.hasOffsets
    (length_le_marksOf lines endLabel) hless hsteady hfar.place_le
    (fun index hindex => Nat.lt_succ_of_le
      (hcomplete.start_le index (Nat.lt_of_lt_of_le hindex hfar.place_le)))
    (fun index hindex => Nat.lt_succ_of_le
      (hsettled.start_le index (Nat.lt_of_lt_of_le hindex hfar.place_le))) hfirst hahead
  have hordered := hcomplete.hasOffsets.offsets_le hahead hfar.place_le
  have hdistance := fitsShort_eq_false_iff.1 hfar.far
  rw [fitsShort_eq_false_iff]
  omega

end Layout

/-! ### Wide forms in bytecode -/

/-- A jump has the opcode of its wide form, or a conditional branch is the opposite one over such a
jump. -/
def Instruction.IsWideAt {τ : Type} (code : Bytes) (start : Nat) : Instruction τ → Prop
  | branch condition _ =>
    (∃ opposite, condition.IsOpposite opposite ∧ code[start]? = some opposite.opcode) ∧
      code[start + 3]? = some 0xc8
  | jump .goto _ => code[start]? = some 0xc8
  | jump .jsr _ => code[start]? = some 0xc9
  | _ => False

theorem JumpOp.wideOpcode_ne (op : JumpOp) : op.wideOpcode ≠ op.opcode := by
  cases op <;> decide

theorem Instruction.isWideAt_jump {τ : Type} {code : Bytes} {start : Nat} {op : JumpOp} {target : τ} :
    (jump op target).IsWideAt code start ↔ code[start]? = some op.wideOpcode := by
  cases op <;> rfl

/-- The bytes of an instruction tell whether it is in its wide form. -/
theorem Instruction.isWideAt_iff_of_bytes {code rest : Bytes} {start : Nat} {wide : Bool}
    {operand : Operand} {instruction : Instruction Label} {final : Label → UInt16}
    (hrelaxable : instruction.isRelaxable)
    (hcode : code.drop start = (instruction.map final).bytesAt start wide operand ++ rest) :
    instruction.IsWideAt code start ↔ wide = true := by
  have hget : ∀ part, code[start + part]? =
      ((instruction.map final).bytesAt start wide operand ++ rest)[part]? := by
    intro part
    rw [← hcode, List.getElem?_drop]
  have hhead := hget 0
  have hfourth := hget 3
  rw [Nat.add_zero] at hhead
  cases instruction with
  | branch condition label =>
    rw [IsWideAt, hhead, hfourth]
    cases wide with
    | true =>
      exact ⟨fun _ => rfl, fun _ => ⟨⟨condition.negate, condition.isOpposite_negate, rfl⟩, rfl⟩⟩
    | false =>
      refine ⟨fun hwide => ?_, fun hwide => by cases hwide⟩
      obtain ⟨⟨opposite, hopposite, hopcode⟩, -⟩ := hwide
      rw [hopposite.eq_negate] at hopcode
      exact absurd (Option.some.inj hopcode).symm condition.opcode_negate_ne
  | jump op label =>
    rw [isWideAt_jump, hhead]
    cases wide with
    | true => exact ⟨fun _ => rfl, fun _ => rfl⟩
    | false =>
      refine ⟨fun hwide => ?_, fun hwide => by cases hwide⟩
      exact absurd (Option.some.inj hwide).symm op.wideOpcode_ne
  | _ => cases hrelaxable

namespace Code

variable {code : Code}

/-- Two bytes, with a sign, are enough for the distance from one place to another. -/
def IsNear (offsets : Nat → Nat) (index place : Nat) : Prop :=
  -2 ^ 15 ≤ (offsets place : Int) - offsets index ∧ (offsets place : Int) - offsets index < 2 ^ 15

theorem fitsShort_iff_isNear {offsets : Nat → Nat} {index place : Nat} :
    fitsShort ((offsets place : Int) - offsets index) ↔ IsNear offsets index place := by
  rw [fitsShort_iff, IsNear]
  omega

namespace LaidOut

variable {pool : Pool} {bytecode : CodeAttribute} {operands : List Operand}
  {wide : Std.HashSet Nat} {offsets : Nat → Nat} {layout : Layout}

theorem isWideAt_iff (hlaid : code.LaidOut pool bytecode operands wide offsets layout)
    {index place : Nat} {line : CodeLine} {label : Label} (hline : code.lines[index]? = some line)
    (hrelaxable : line.instruction.isRelaxable) (hlabel : label ∈ line.instruction.targets)
    (hplace : code.marks[place]? = some (some label)) :
    (∃ wideSize, Layout.formAt (code.lines.zip operands) code.marks index =
      .toward place wideSize) ∧
    (line.instruction.IsWideAt bytecode.code (offsets index) ↔
      Layout.Form.isWide offsets wide index place = true) := by
  obtain ⟨operand, hoperand, -⟩ := hlaid.exists_operand hline
  have hdistinct := hlaid.settled.distinct
  rw [hlaid.marks_eq] at hdistinct
  have hplaceOf : code.marks.placeOf? label = some place := hdistinct place label hplace
  have hindex : index < code.lines.length := (List.getElem?_eq_some_iff.1 hline).1
  constructor
  · obtain ⟨wideSize, hform⟩ :=
      Layout.formOf_of_isRelaxable code.marks operand hrelaxable hlabel
    rw [hplaceOf, Option.getD_some] at hform
    exact ⟨wideSize, by simp only [Layout.formAt, hoperand, hform]⟩
  · rw [Instruction.isWideAt_iff_of_bytes hrelaxable (hlaid.drop_code hoperand).1,
      EncodingSite.takesWide_eq _ hrelaxable hlabel, Layout.isWideTo_siteAt, hplaceOf,
      Option.getD_some]
    · simp only [marks, List.length_append, List.length_map]
      omega
    · intro earlier hearlier
      have hlt : earlier < (code.lines.zip operands).length := by
        rw [hlaid.length_zip]
        omega
      exact Nat.lt_succ_of_le (hlaid.settled.start_le earlier hlt)

/-- What goes back is wide exactly if it is too far from its target, and so is what goes ahead over
steady lines. -/
theorem isWide_iff (hlaid : code.LaidOut pool bytecode operands wide offsets layout)
    (hattempted : Layout.Attempted (code.lines.zip operands) code.endLabel wide)
    {index place wideSize : Nat} (hindex : index < code.lines.length)
    (hform : Layout.formAt (code.lines.zip operands) code.marks index = .toward place wideSize)
    (hsteady : place ≤ index ∨
      ∃ first ≤ index, Layout.IsSteady code.lines code.marks first place) :
    Layout.Form.isWide offsets wide index place = true ↔ ¬ IsNear offsets index place := by
  rw [← fitsShort_iff_isNear, Bool.not_eq_true]
  by_cases hbehind : place ≤ index
  · rw [Layout.Form.isWide_of_behind hbehind, Bool.not_eq_true']
  · obtain ⟨first, hfirst, hsteady⟩ := hsteady.resolve_left hbehind
    have hahead : index < place := Nat.not_le.1 hbehind
    have hlines : (code.lines.zip operands).map Prod.fst = code.lines :=
      List.map_fst_zip (Nat.le_of_eq hlaid.operandsIn.length_eq)
    rw [← hlaid.marks_eq] at hform
    rw [← hlines, ← hlaid.marks_eq] at hsteady
    rw [Layout.Form.isWide_of_ahead hahead]
    constructor
    · exact hlaid.settled.far_of_isSteady hattempted hform hfirst hsteady
    · intro hfar
      by_contra hnarrow
      have hreach := hlaid.settled.fits.reaches (hlaid.length_zip ▸ hindex) hform hahead
        (Bool.eq_false_iff.2 hnarrow)
      rw [hfar] at hreach
      cases hreach

end LaidOut

/-! ### A jump that is wide and near -/

def shrinkingLine (index : Nat) : CodeLine :=
  if index = 0 then ⟨none, none, .branch .ifEq ⟨0⟩⟩
  else if index = 10 then ⟨none, none, .jump .goto ⟨1⟩⟩
  else if index = 32763 then ⟨some ⟨0⟩, none, .plain .nop⟩
  else if index = 32764 then ⟨none, none, .lookupSwitch ⟨1⟩ []⟩
  else if index = 32765 then ⟨some ⟨1⟩, none, .plain .voidReturn⟩
  else ⟨none, none, .plain .nop⟩

/-- At first the jump is too far from its target, by one byte, and when it is wide the branch is.
When both are wide, the switch between the jump and its target needs three bytes less to fill up. -/
def shrinking : Code where
  maxStack := 1
  maxLocals := 0
  lines := (List.range 32766).map shrinkingLine
  handlers := []
  endLabel := none
  lineNumbers := none
  localVariables := none
  attributes := []

namespace Shrinking

theorem length_shrinking : shrinking.lines.length = 32766 := by
  simp only [shrinking, List.length_map, List.length_range]

def lines : List (CodeLine × Operand) :=
  shrinking.lines.zip (List.replicate 32766 ⟨0, 0⟩)

theorem length_lines : lines.length = 32766 := by
  rw [lines, List.length_zip, length_shrinking, List.length_replicate, Nat.min_self]

theorem getElem?_lines {index : Nat} (hindex : index < 32766) :
    shrinking.lines[index]? = some (shrinkingLine index) := by
  simp only [shrinking, List.getElem?_map, List.getElem?_range hindex, Option.map_some]

theorem getElem?_zip {index : Nat} (hindex : index < 32766) :
    lines[index]? = some (shrinkingLine index, ⟨0, 0⟩) := by
  rw [lines, List.getElem?_zip_eq_some]
  exact ⟨getElem?_lines hindex, List.getElem?_replicate_of_lt hindex⟩

theorem marksOf_lines : Layout.marksOf lines none = shrinking.marks := by
  apply marksOf_zip
  rw [length_shrinking, List.length_replicate]

theorem getElem?_marks {place : Nat} {label : Label} :
    shrinking.marks[place]? = some (some label) ↔
      place = 32763 ∧ label = ⟨0⟩ ∨ place = 32765 ∧ label = ⟨1⟩ := by
  have hlength : (shrinking.lines.map CodeLine.label).length = 32766 := by
    rw [List.length_map, length_shrinking]
  by_cases hplace : place < 32766
  · rw [marks, List.getElem?_append_left (hlength ▸ hplace), List.getElem?_map,
      getElem?_lines hplace]
    unfold shrinkingLine
    split_ifs <;> simp_all [eq_comm]
  · rw [marks, List.getElem?_append_right (hlength ▸ Nat.not_lt.1 hplace), hlength]
    cases place - 32766 <;> simp [shrinking] <;> omega

theorem isDistinct : shrinking.marks.IsDistinct := by
  intro place label hplace
  obtain ⟨hlt, hlabel⟩ := List.getElem?_eq_some_iff.1 hplace
  refine List.idxOf?_eq_some_iff.2 ⟨hlt, hlabel, fun other hother heq => ?_⟩
  have hsame := getElem?_marks.1 (List.getElem?_eq_some_iff.2 ⟨Nat.lt_trans hother hlt, heq⟩)
  have hplace := getElem?_marks.1 hplace
  grind

theorem placeOf?_first : shrinking.marks.placeOf? ⟨0⟩ = some 32763 :=
  isDistinct _ _ (getElem?_marks.2 (.inl ⟨rfl, rfl⟩))

theorem placeOf?_second : shrinking.marks.placeOf? ⟨1⟩ = some 32765 :=
  isDistinct _ _ (getElem?_marks.2 (.inr ⟨rfl, rfl⟩))

theorem formAt_branch : Layout.formAt lines shrinking.marks 0 = .toward 32763 8 := by
  have hline : shrinkingLine 0 = ⟨none, none, .branch .ifEq ⟨0⟩⟩ := rfl
  rw [Layout.formAt_of_getElem? (getElem?_zip (by decide)), hline, Layout.formOf, placeOf?_first,
    Option.getD_some]

theorem formAt_jump : Layout.formAt lines shrinking.marks 10 = .toward 32765 5 := by
  have hline : shrinkingLine 10 = ⟨none, none, .jump .goto ⟨1⟩⟩ := rfl
  rw [Layout.formAt_of_getElem? (getElem?_zip (by decide)), hline, Layout.formOf, placeOf?_second,
    Option.getD_some]

theorem formAt_eq_toward {index place wideSize : Nat}
    (hform : Layout.formAt lines shrinking.marks index = .toward place wideSize) :
    index = 0 ∧ place = 32763 ∨ index = 10 ∧ place = 32765 := by
  obtain ⟨line, operand, hline, -⟩ := Layout.exists_target_of_formAt hform
  have hindex := (List.getElem?_eq_some_iff.1 hline).1
  rw [length_lines] at hindex
  by_cases hzero : index = 0
  · rw [hzero, formAt_branch] at hform
    cases hform
    exact .inl ⟨hzero, rfl⟩
  · by_cases hten : index = 10
    · rw [hten, formAt_jump] at hform
      cases hform
      exact .inr ⟨hten, rfl⟩
    · rw [Layout.formAt_of_getElem? (getElem?_zip hindex), shrinkingLine, if_neg hzero,
        if_neg hten] at hform
      split_ifs at hform <;> cases hform

structure At (wide : Std.HashSet Nat) (offsets : Nat → Nat) : Prop where
  zero : offsets 0 = 0
  jump : offsets 10 = (if wide.contains 0 then 8 else 3) + 9
  middle : offsets 32763 = offsets 10 + (if wide.contains 10 then 5 else 3) + 32752
  late : offsets 32765 = offsets 32763 + 10 + (3 - (offsets 32763 + 1) % 4)
  last : offsets 32766 = offsets 32765 + 1

section

variable {wide : Std.HashSet Nat} {offsets : Nat → Nat}

theorem offsets_succ (hoffsets : Layout.HasOffsets wide lines shrinking.marks offsets) {index : Nat}
    (hindex : index < 32766) {line : CodeLine} (hline : shrinkingLine index = line) :
    offsets (index + 1) = offsets index + (line.instruction.encode
      (Layout.siteAt wide shrinking.marks offsets index) ⟨0, 0⟩).bytes.length := by
  have hnext := hoffsets.succ index (by rw [length_lines]; exact hindex)
  simpa only [Layout.encodedAt, getElem?_zip hindex, hline] using hnext

theorem offsets_add (hoffsets : Layout.HasOffsets wide lines shrinking.marks offsets)
    {first count : Nat}
    (hplain : ∀ index, first ≤ index → index < first + count →
      index < 32766 ∧ ∃ op, (shrinkingLine index).instruction = .plain op) :
    offsets (first + count) = offsets first + count := by
  induction count with
  | zero => rfl
  | succ count ih =>
    obtain ⟨hlt, op, hop⟩ := hplain (first + count) (by omega) (by omega)
    have hnext := offsets_succ hoffsets hlt rfl
    rw [hop] at hnext
    rw [← Nat.add_assoc, hnext, ih fun index hfirst hindex => hplain index hfirst (by omega)]
    rfl

theorem at_of_hasOffsets (hoffsets : Layout.HasOffsets wide lines shrinking.marks offsets) :
    At wide offsets := by
  have hplain : ∀ index, index < 32766 → index ≠ 0 → index ≠ 10 → index ≠ 32764 →
      ∃ op, (shrinkingLine index).instruction = .plain op := by
    intro index _ _ _ _
    unfold shrinkingLine
    split_ifs <;> first | contradiction | exact ⟨_, rfl⟩
  have hrun : ∀ first count, 1 ≤ first → first + count ≤ 32766 →
      (first + count ≤ 10 ∨ 11 ≤ first) → (first + count ≤ 32764 ∨ 32765 ≤ first) →
      offsets (first + count) = offsets first + count := by
    intro first count hfirst hend hten hswitch
    refine offsets_add hoffsets fun index hstart hstop => ⟨by omega, ?_⟩
    exact hplain index (by omega) (by omega) (by omega) (by omega)
  have hbranch : offsets 1 = if wide.contains 0 then 8 else 3 := by
    have hnext := offsets_succ hoffsets (by decide)
      (show shrinkingLine 0 = ⟨none, none, .branch .ifEq ⟨0⟩⟩ from rfl)
    rw [Instruction.encode, EncodingSite.length_encodeBranch,
      Layout.isWideTo_of_ahead placeOf?_first (by decide), hoffsets.zero] at hnext
    exact hnext.trans (Nat.zero_add _)
  have hjump : offsets 11 = offsets 10 + if wide.contains 10 then 5 else 3 := by
    have hnext := offsets_succ hoffsets (by decide)
      (show shrinkingLine 10 = ⟨none, none, .jump .goto ⟨1⟩⟩ from rfl)
    rw [Instruction.encode, EncodingSite.length_encodeJump,
      Layout.isWideTo_of_ahead placeOf?_second (by decide)] at hnext
    exact hnext
  have hswitch : offsets 32765 = offsets 32764 + (9 + (3 - offsets 32764 % 4)) := by
    have hnext := offsets_succ hoffsets (by decide)
      (show shrinkingLine 32764 = ⟨none, none, .lookupSwitch ⟨1⟩ []⟩ from rfl)
    rw [Instruction.encode, EncodingSite.length_encodeLookupSwitch] at hnext
    exact hnext
  have hnops : offsets 10 = offsets 1 + 9 :=
    hrun 1 9 (by decide) (by decide) (by decide) (by decide)
  have hmore : offsets 32763 = offsets 11 + 32752 :=
    hrun 11 32752 (by decide) (by decide) (by decide) (by decide)
  have hnop : offsets 32764 = offsets 32763 + 1 :=
    hrun 32763 1 (by decide) (by decide) (by decide) (by decide)
  exact {
    zero := hoffsets.zero
    jump := by rw [hnops, hbranch]
    middle := by rw [hmore, hjump]
    late := by rw [hswitch, hnop]; omega
    last := hrun 32765 1 (by decide) (by decide) (by decide) (by decide) }

end

/-- The branch becomes wide only after the jump. -/
theorem jump_wide_of_attempted {wide : Std.HashSet Nat}
    (hattempted : Layout.Attempted lines none wide) : wide.contains 0 → wide.contains 10 := by
  induction hattempted with
  | first =>
    rw [Std.HashSet.contains_empty]
    intro hcontains
    cases hcontains
  | @again wide offsets layout index place _ hcomplete hfar ih =>
    intro _
    obtain ⟨wideSize, hform⟩ := hfar.form
    have hoffsets := hcomplete.hasOffsets
    rw [marksOf_lines] at hform hoffsets
    rw [Std.HashSet.contains_insert, Bool.or_eq_true, beq_iff_eq]
    obtain ⟨rfl, rfl⟩ | ⟨rfl, -⟩ := formAt_eq_toward hform
    · -- With the jump short the branch is near enough, by one byte.
      have hat := at_of_hasOffsets hoffsets
      have hdistance := fitsShort_eq_false_iff.1 hfar.far
      have hzero := hat.zero
      have hjump := hat.jump
      have hmiddle := hat.middle
      rw [hfar.narrow, if_neg Bool.false_ne_true] at hjump
      refine .inr ?_
      by_contra hnarrow
      rw [if_neg hnarrow] at hmiddle
      omega
    · exact .inl rfl

theorem both_wide_of_settled {wide : Std.HashSet Nat} {offsets : Nat → Nat} {layout : Layout}
    (hattempted : Layout.Attempted lines none wide)
    (hsettled : Layout.Settled wide lines none offsets layout) :
    wide.contains 0 ∧ wide.contains 10 := by
  have hoffsets := hsettled.hasOffsets
  have hbranchForm := formAt_branch
  have hjumpForm := formAt_jump
  rw [marksOf_lines] at hoffsets
  rw [← marksOf_lines] at hbranchForm hjumpForm
  obtain ⟨hzero, hjump, hmiddle, hlate, -⟩ := at_of_hasOffsets hoffsets
  have hten : wide.contains 10 := by
    by_contra hnarrow
    have hbranch : ¬ wide.contains 0 := fun hwide =>
      hnarrow (jump_wide_of_attempted hattempted hwide)
    have hreach := fitsShort_iff.1 (hsettled.fits.reaches (by rw [length_lines]; decide) hjumpForm
      (by decide) (Bool.eq_false_iff.2 hnarrow))
    rw [if_neg hbranch] at hjump
    rw [if_neg hnarrow] at hmiddle
    omega
  refine ⟨?_, hten⟩
  by_contra hnarrow
  have hreach := fitsShort_iff.1 (hsettled.fits.reaches (by rw [length_lines]; decide) hbranchForm
    (by decide) (Bool.eq_false_iff.2 hnarrow))
  rw [if_neg hnarrow] at hjump
  rw [if_pos hten] at hmiddle
  omega

theorem bare_of_mem {line : CodeLine} (hline : line ∈ shrinking.lines) :
    line.frame = none ∧ line.instruction.putOperand = pure ⟨0, 0⟩ := by
  obtain ⟨index, hindex⟩ := List.getElem?_of_mem hline
  have hlt := (List.getElem?_eq_some_iff.1 hindex).1
  rw [length_shrinking] at hlt
  rw [getElem?_lines hlt] at hindex
  cases hindex
  unfold shrinkingLine
  split_ifs <;> exact ⟨rfl, rfl⟩

theorem tableReferences_eq : shrinking.tableReferences = [] := by
  have horigins : shrinking.origins = [] := by
    refine List.flatMap_eq_nil_iff.2 fun line hline => ?_
    rw [(bare_of_mem hline).1]
    rfl
  rw [tableReferences, horigins]
  rfl

theorem isPlaced : shrinking.IsPlaced where
  distinct := isDistinct
  target label hlabel := by
    obtain ⟨line, hline, hlabel⟩ := List.mem_flatMap.1 hlabel
    obtain ⟨index, hindex⟩ := List.getElem?_of_mem hline
    have hlt := (List.getElem?_eq_some_iff.1 hindex).1
    rw [length_shrinking] at hlt ⊢
    rw [getElem?_lines hlt] at hindex
    cases hindex
    simp only [shrinkingLine] at hlabel
    split_ifs at hlabel
    · obtain rfl := List.mem_singleton.1 hlabel
      exact ⟨32763, by decide, placeOf?_first⟩
    · obtain rfl := List.mem_singleton.1 hlabel
      exact ⟨32765, by decide, placeOf?_second⟩
    · cases hlabel
    · obtain rfl := List.mem_singleton.1 hlabel
      exact ⟨32765, by decide, placeOf?_second⟩
    · cases hlabel
    · cases hlabel
  table label hlabel := by
    rw [tableReferences_eq] at hlabel
    cases hlabel
  range source hsource := by cases hsource

theorem run_putOperands : (putOperands shrinking.lines).run Pool.empty =
    (.ok (List.replicate 32766 ⟨0, 0⟩), Pool.empty) := by
  rw [← length_shrinking]
  exact run_putOperands_of_pure (fun line hline => (bare_of_mem hline).2) _

theorem exists_layOut :
    ∃ bytecode, shrinking.layOut (List.replicate 32766 ⟨0, 0⟩) = .ok bytecode := by
  obtain ⟨bytecode, -, -, -, hlayOut, -⟩ | ⟨-, -, -, wide, offsets, -, hoffsets, hlong⟩ :=
    isPlaced.layOut_cases (by rw [length_shrinking]; decide)
      (operandsIn_of_putOperands run_putOperands)
  · exact ⟨bytecode, hlayOut⟩
  · change Layout.HasOffsets wide lines (Layout.marksOf lines none) offsets at hoffsets
    change CodeAttribute.maxLength < offsets lines.length at hlong
    rw [marksOf_lines] at hoffsets
    rw [length_lines, CodeAttribute.maxLength] at hlong
    obtain ⟨hzero, hjump, hmiddle, hlate, hlast⟩ := at_of_hasOffsets hoffsets
    split_ifs at hjump hmiddle <;> omega

theorem exists_laidOut : ∃ bytecode wide offsets layout,
    shrinking.assemble.run Pool.empty = (.ok bytecode, Pool.empty) ∧
      shrinking.LaidOut Pool.empty bytecode (List.replicate 32766 ⟨0, 0⟩) wide offsets layout ∧
      At wide offsets ∧ wide.contains 0 ∧ wide.contains 10 := by
  obtain ⟨bytecode, hlayOut⟩ := exists_layOut
  obtain ⟨wide, offsets, layout, hattempted, hlaid⟩ :=
    exists_laidOut_of_layOut (operandsIn_of_putOperands run_putOperands) hlayOut
  have hoffsets := hlaid.settled.hasOffsets
  rw [hlaid.marks_eq] at hoffsets
  exact ⟨bytecode, wide, offsets, layout, by rw [run_assemble run_putOperands, hlayOut], hlaid,
    at_of_hasOffsets hoffsets, both_wide_of_settled hattempted hlaid.settled⟩

end Shrinking

/-! ### Short where that is near enough -/

section

variable {padding : Nat}

theorem getElem?_jump_countdown :
    (countdown padding).lines[padding + 3]? = some ⟨none, none, .jump .goto ⟨0⟩⟩ := by
  simp [countdown]

theorem isSteady_countdown :
    Layout.IsSteady (countdown padding).lines (countdown padding).marks 0 (padding + 4) := by
  have hlines : ∀ line ∈ (countdown padding).lines, line.instruction.isSwitch = false :=
    forall_lines_countdown (by decide)
  intro index line hline _ _
  exact ⟨hlines line (List.mem_of_getElem? hline), fun _ _ place _ => Nat.zero_le place⟩

theorem not_isNear_countdown (hpadding : 32768 ≤ padding) {pool : Pool} {bytecode : CodeAttribute}
    {offsets : Nat → Nat} {offsetOf : Label → UInt16}
    (hassembled : (countdown padding).Assembled pool bytecode offsets offsetOf) :
    ¬ IsNear offsets 1 (padding + 4) ∧ ¬ IsNear offsets (padding + 3) 0 := by
  have hlength := @length_lines_countdown padding
  have hahead : offsets 1 + (padding + 4 - 1) ≤ offsets (padding + 4) :=
    hassembled.add_sub_le_offsets (by omega) (by omega)
  have hback : offsets 0 + (padding + 3 - 0) ≤ offsets (padding + 3) :=
    hassembled.add_sub_le_offsets (by omega) (by omega)
  rw [IsNear, IsNear]
  omega

end

/-- A branch or jump that goes back is written wide exactly if
its target is too far from it, and so is one that goes ahead over lines that are steady. -/
theorem exists_isWideAt_iff_of_assemble {pool final : Pool} {bytecode : CodeAttribute}
    (hassemble : code.assemble.run pool = (.ok bytecode, final)) :
    ∃ offsets offsetOf, code.Assembled final bytecode offsets offsetOf ∧
      ∀ index line label place, code.lines[index]? = some line → line.instruction.isRelaxable →
        label ∈ line.instruction.targets → code.marks[place]? = some (some label) →
        (place ≤ index ∨ ∃ first ≤ index, Layout.IsSteady code.lines code.marks first place) →
        (line.instruction.IsWideAt bytecode.code (offsets index) ↔
          ¬ IsNear offsets index place) := by
  obtain ⟨operands, wide, offsets, layout, hattempted, hlaid⟩ :=
    exists_attempted_of_assemble hassemble
  refine ⟨offsets, layout.placement.final, hlaid.assembled, ?_⟩
  intro index line label place hline hrelaxable hlabel hplace hsteady
  have hindex : index < code.lines.length := (List.getElem?_eq_some_iff.1 hline).1
  obtain ⟨⟨wideSize, hform⟩, hiff⟩ := hlaid.isWideAt_iff hline hrelaxable hlabel hplace
  rw [hiff]
  exact hlaid.isWide_iff hattempted hindex hform hsteady

/-- With much padding the branch ahead and the jump back are too far from their targets, so both
are wide. -/
theorem exists_isWideAt_countdown :
    ∃ bytecode, (countdown 40000).assemble.run Pool.empty = (.ok bytecode, Pool.empty) ∧
      Layout.IsSteady (countdown 40000).lines (countdown 40000).marks 0 40004 ∧
      ∃ offsets offsetOf, (countdown 40000).Assembled Pool.empty bytecode offsets offsetOf ∧
        ¬ IsNear offsets 1 40004 ∧
        (Instruction.branch .ifEq (⟨1⟩ : Label)).IsWideAt bytecode.code (offsets 1) ∧
        ¬ IsNear offsets 40003 0 ∧
        (Instruction.jump .goto (⟨0⟩ : Label)).IsWideAt bytecode.code (offsets 40003) := by
  obtain ⟨bytecode, hassemble⟩ := @exists_assemble_countdown 40000 (by decide)
  obtain ⟨offsets, offsetOf, hassembled, hiff⟩ :=
    exists_isWideAt_iff_of_assemble (hassemble Pool.empty)
  obtain ⟨hahead, hback⟩ := not_isNear_countdown (by decide) hassembled
  have hbranch := hiff 1 _ ⟨1⟩ 40004 rfl rfl (List.mem_singleton_self _)
    getElem?_marks_countdown.2 (.inr ⟨0, by decide, isSteady_countdown⟩)
  have hjump := hiff 40003 _ ⟨0⟩ 0 getElem?_jump_countdown rfl (List.mem_singleton_self _)
    getElem?_marks_countdown.1 (.inl (by decide))
  exact ⟨bytecode, hassemble _, isSteady_countdown, offsets, offsetOf, hassembled, hahead,
    hbranch.2 hahead, hback, hjump.2 hback⟩

/-- The jump is wide in the end, and its target is near enough for it to be short. -/
theorem shrinking_jump_wide_and_near :
    ∃ bytecode, shrinking.assemble.run Pool.empty = (.ok bytecode, Pool.empty) ∧
      ∃ offsets offsetOf, shrinking.Assembled Pool.empty bytecode offsets offsetOf ∧
        shrinking.marks[32765]? = some (some ⟨1⟩) ∧
        shrinking.lines[10]? = some ⟨none, none, .jump .goto ⟨1⟩⟩ ∧
        bytecode.code[offsets 10]? = some 0xc8 ∧ IsNear offsets 10 32765 := by
  obtain ⟨bytecode, wide, offsets, layout, hassemble, hlaid, hat, hbranch, hjump⟩ :=
    Shrinking.exists_laidOut
  have hline : shrinking.lines[10]? = some ⟨none, none, .jump .goto ⟨1⟩⟩ :=
    Shrinking.getElem?_lines (by decide)
  have hplace : shrinking.marks[32765]? = some (some ⟨1⟩) :=
    Shrinking.getElem?_marks.2 (.inr ⟨rfl, rfl⟩)
  refine ⟨bytecode, hassemble, offsets, layout.placement.final, hlaid.assembled, hplace, hline,
    ?_, ?_⟩
  · refine (hlaid.isWideAt_iff hline rfl (List.mem_singleton_self _) hplace).2.2 ?_
    rw [Layout.Form.isWide_of_ahead (by decide)]
    exact hjump
  · obtain ⟨-, hten, hmiddle, hlate, -⟩ := hat
    rw [if_pos hbranch] at hten
    rw [if_pos hjump] at hmiddle
    rw [IsNear]
    omega

end Code

end JvmClass
