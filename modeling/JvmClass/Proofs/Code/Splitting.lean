import JvmClass.Proofs.Code.Relaid
import Mathlib.Data.List.Flatten

/-!
# Lines taken apart

Code that was assembled is read as the pieces that its lines were encoded as. What was wide of a line
has to be wide of its pieces, so attempts to lay out the pieces end where the pieces were. That could
only fail with a switch, which becomes smaller or larger when it moves between attempts.
-/

namespace JvmClass

/-! ### Lines taken apart -/

theorem Instruction.isSwitch_map {τ σ : Type} (f : τ → σ) (instruction : Instruction τ) :
    (instruction.map f).isSwitch = instruction.isSwitch := by
  cases instruction <;> rfl

namespace Layout

variable {marks : Marks} {label : Label} {place : Nat}

theorem formOf_branch (hplace : marks.placeOf? label = some place) (condition : Condition)
    (operand : Operand) : formOf marks operand (.branch condition label) = .toward place 8 := by
  rw [formOf, hplace, Option.getD_some]

theorem formOf_jump (hplace : marks.placeOf? label = some place) (op : JumpOp) (operand : Operand) :
    formOf marks operand (.jump op label) = .toward place 5 := by
  rw [formOf, hplace, Option.getD_some]

theorem exists_formOf_map {instruction : Instruction Label}
    (hrelaxable : instruction.isRelaxable = false) (hswitch : instruction.isSwitch = false)
    (marks other : Marks) (operand : Operand) (rename : Label → Label) :
    ∃ size, formOf marks operand instruction = .fixed size ∧
      formOf other operand (instruction.map rename) = .fixed size := by
  cases instruction with
  | branch | jump => cases hrelaxable
  | tableSwitch | lookupSwitch => cases hswitch
  | _ => exact ⟨_, rfl, rfl⟩

end Layout

theorem Code.formAt_relaid {bytecode : CodeAttribute} {labels : OffsetLabels} {pieces : List Piece}
    {marks : Marks} {index : Nat} {piece : Piece} (hpiece : pieces[index]? = some piece) :
    Layout.formAt (relaid bytecode labels pieces) marks index =
      Layout.formOf marks piece.operand (piece.instruction.map labels.name) := by
  obtain ⟨line, hline, hinstruction⟩ := getElem?_relaid bytecode labels hpiece
  rw [Layout.formAt, hline, ← hinstruction]

theorem getElem?_flatMap_take {α β : Type} {f : α → List β} {values : List α} {index : Nat}
    {value : α} (hvalue : values[index]? = some value) {part : Nat}
    (hpart : part < (f value).length) :
    (values.flatMap f)[((values.take index).flatMap f).length + part]? = (f value)[part]? := by
  obtain ⟨hlt, rfl⟩ := List.getElem?_eq_some_iff.1 hvalue
  have hsplit : values.flatMap f = (values.take index).flatMap f ++
      (f values[index] ++ (values.drop (index + 1)).flatMap f) := by
    rw [← List.flatMap_cons, ← List.drop_eq_getElem_cons hlt, ← List.flatMap_append,
      List.take_append_drop]
  rw [hsplit, List.getElem?_append_right (Nat.le_add_right ..), Nat.add_sub_cancel_left,
    List.getElem?_append_left hpart]

theorem exists_of_getElem?_flatMap {α β : Type} {f : α → List β} {values : List α} {index : Nat}
    {found : β} (hfound : (values.flatMap f)[index]? = some found) :
    ∃ (outer : Nat) (value : α) (part : Nat), values[outer]? = some value ∧
      index = ((values.take outer).flatMap f).length + part ∧ (f value)[part]? = some found := by
  induction values generalizing index with
  | nil => cases hfound
  | cons value values ih =>
    rw [List.flatMap_cons] at hfound
    by_cases hlt : index < (f value).length
    · rw [List.getElem?_append_left hlt] at hfound
      exact ⟨0, value, index, rfl, by simp, hfound⟩
    · rw [List.getElem?_append_right (Nat.le_of_not_lt hlt)] at hfound
      obtain ⟨outer, other, part, hother, hindex, hpart⟩ := ih hfound
      refine ⟨outer + 1, other, part, hother, ?_, hpart⟩
      rw [List.take_succ_cons, List.flatMap_cons, List.length_append]
      omega

theorem EncodingSite.takesWide_eq (site : EncodingSite) {instruction : Instruction Label}
    (hrelaxable : instruction.isRelaxable) {label : Label} (hlabel : label ∈ instruction.targets) :
    site.takesWide instruction = site.isWideTo label := by
  cases instruction with
  | branch condition other =>
    obtain rfl := List.mem_singleton.1 hlabel
    rfl
  | jump op other =>
    obtain rfl := List.mem_singleton.1 hlabel
    rfl
  | _ => cases hrelaxable

theorem EncodingSite.isRelaxable_of_takesWide (site : EncodingSite)
    {instruction : Instruction Label} (hwide : site.takesWide instruction) :
    instruction.isRelaxable := by
  cases instruction with
  | branch | jump => rfl
  | _ => cases hwide

namespace Code

variable {code : Code}

/-- The number of pieces that come before a line. -/
def splitAt (code : Code) (operands : List Operand) (wide : Std.HashSet Nat)
    (offsets : Nat → Nat) (final : Label → UInt16) (index : Nat) : Nat :=
  (((code.lines.zip operands).zipIdx.take index).flatMap (code.piecesOf wide offsets final)).length

/-- What a piece is of the line it belongs to. A branch that is wide is taken apart, into a branch
over the line and a jump that goes on to the target. -/
inductive IsPieceOf (code : Code) (operands : List Operand) (wide : Std.HashSet Nat)
    (offsets : Nat → Nat) (final : Label → UInt16) (place : Nat) (line : CodeLine)
    (operand : Operand) (index : Nat) : Piece → Prop
  | whole (hlast : index + 1 = code.splitAt operands wide offsets final (place + 1)) :
    IsPieceOf code operands wide offsets final place line operand index
      ⟨offsets place, (Layout.siteAt wide code.marks offsets place).takesWide line.instruction,
        operand, line.instruction.map final⟩
  | skip {condition : Condition} {label : Label}
      (hinstruction : line.instruction = .branch condition label) :
    IsPieceOf code operands wide offsets final place line operand index
      ⟨offsets place, false, operand,
        .branch condition.negate (UInt16.ofNat (offsets (place + 1)))⟩
  | far {condition : Condition} {label : Label}
      (hinstruction : line.instruction = .branch condition label)
      (hwide : (Layout.siteAt wide code.marks offsets place).isWideTo label = true)
      (hlast : index + 1 = code.splitAt operands wide offsets final (place + 1)) :
    IsPieceOf code operands wide offsets final place line operand index
      ⟨offsets place + 3, true, operand, .jump .goto (final label)⟩

namespace LaidOut

variable {pool : Pool} {bytecode : CodeAttribute} {operands : List Operand}
  {wide : Std.HashSet Nat} {offsets : Nat → Nat} {layout : Layout} {index : Nat} {line : CodeLine}
  {operand : Operand}

theorem getElem?_zipIdx (hline : (code.lines.zip operands)[index]? = some (line, operand)) :
    (code.lines.zip operands).zipIdx[index]? = some ((line, operand), index) := by
  rw [List.getElem?_zipIdx, hline, Nat.zero_add]
  rfl

theorem splitAt_succ (wide : Std.HashSet Nat) (offsets : Nat → Nat) (final : Label → UInt16)
    (hline : (code.lines.zip operands)[index]? = some (line, operand)) :
    code.splitAt operands wide offsets final (index + 1) =
      code.splitAt operands wide offsets final index +
        (code.piecesOf wide offsets final ((line, operand), index)).length := by
  rw [splitAt, splitAt, List.take_add_one, getElem?_zipIdx hline, Option.toList_some,
    List.flatMap_append, List.length_append, List.flatMap_singleton]

theorem getElem?_allPieces (hline : (code.lines.zip operands)[index]? = some (line, operand))
    {final : Label → UInt16} (part : Nat)
    (hpart : part < (code.piecesOf wide offsets final ((line, operand), index)).length) :
    (code.allPieces operands wide offsets final)[code.splitAt operands wide offsets final index +
        part]? =
      (code.piecesOf wide offsets final ((line, operand), index))[part]? :=
  getElem?_flatMap_take (getElem?_zipIdx hline) hpart

theorem exists_line_of_piece {final : Label → UInt16} {piece : Piece}
    (hpiece : (code.allPieces operands wide offsets final)[index]? = some piece) :
    ∃ (place : Nat) (line : CodeLine) (operand : Operand) (part : Nat),
      (code.lines.zip operands)[place]? = some (line, operand) ∧
      index = code.splitAt operands wide offsets final place + part ∧
      (code.piecesOf wide offsets final ((line, operand), place))[part]? = some piece := by
  obtain ⟨outer, ⟨⟨line, operand⟩, place⟩, part, hline, hindex, hpart⟩ :=
    exists_of_getElem?_flatMap hpiece
  rw [List.getElem?_zipIdx, Option.map_eq_some_iff] at hline
  obtain ⟨entry, hentry, heq⟩ := hline
  rw [Nat.zero_add] at heq
  cases heq
  exact ⟨outer, line, operand, part, hentry, hindex, hpart⟩

theorem splitAt_length (hlaid : code.LaidOut pool bytecode operands wide offsets layout) :
    code.splitAt operands wide offsets layout.placement.final code.lines.length =
      (code.allPieces operands wide offsets layout.placement.final).length := by
  rw [splitAt, allPieces, List.take_of_length_le]
  exact Nat.le_of_eq (List.length_zipIdx.trans hlaid.length_zip)

theorem splitAt_le {final : Label → UInt16} {first last : Nat} (hle : first ≤ last) :
    code.splitAt operands wide offsets final first ≤ code.splitAt operands wide offsets final last :=
  ((List.take_prefix_take_left hle : _ <+: _).sublist.flatMap _).length_le

theorem offsetsOf_splitAt (hlaid : code.LaidOut pool bytecode operands wide offsets layout)
    (hindex : index ≤ code.lines.length) :
    offsetsOf bytecode.code.length
      ((code.allPieces operands wide offsets layout.placement.final).map Piece.found)
      (code.splitAt operands wide offsets layout.placement.final index) = offsets index := by
  obtain hlt | rfl := Nat.lt_or_eq_of_le hindex
  · obtain ⟨operand, hline, -⟩ := hlaid.exists_operand (List.getElem?_eq_getElem hlt)
    obtain ⟨condition, label, -, -, -, hpieces⟩ | ⟨-, hpieces⟩ := hlaid.piecesOf_eq hline
    · have hpiece := getElem?_allPieces hline 0 (by rw [hpieces]; exact Nat.zero_lt_two)
      rw [hpieces] at hpiece
      exact Pieces.offsetsOf_of_getElem? hpiece
    · have hpiece := getElem?_allPieces hline 0 (by rw [hpieces]; exact Nat.zero_lt_one)
      rw [hpieces] at hpiece
      exact Pieces.offsetsOf_of_getElem? hpiece
  · have hlength := offsetsOf_length bytecode.code.length
      ((code.allPieces operands wide offsets layout.placement.final).map Piece.found)
    rw [List.length_map, ← hlaid.splitAt_length] at hlength
    rw [hlength, hlaid.length_code]

theorem exists_place_of_line (hlaid : code.LaidOut pool bytecode operands wide offsets layout)
    (hline : (code.lines.zip operands)[index]? = some (line, operand)) {label : Label}
    (hlabel : label ∈ line.instruction.targets) :
    ∃ place < code.lines.length, code.marks.placeOf? label = some place ∧
      (layout.placement.final label).toNat = offsets place ∧
      (Layout.siteAt wide code.marks offsets index).isWideTo label =
        Layout.Form.isWide offsets wide index place := by
  obtain ⟨place, hlt, hplace⟩ := hlaid.settled.exists_place_of_target hline hlabel
  have hat := hlaid.settled.toNat_final hplace
  have hindex := (List.getElem?_eq_some_iff.1 hline).1
  rw [hlaid.marks_eq] at hplace
  rw [hlaid.length_zip] at hlt hindex
  refine ⟨place, hlt, hplace, hat, ?_⟩
  have hmarks : index < code.marks.length := by
    rw [marks, List.length_append, List.length_map]
    exact Nat.lt_add_right _ hindex
  rw [Layout.isWideTo_siteAt hmarks fun place hplace => Nat.lt_succ_of_le
    (hlaid.settled.start_le place (hlaid.length_zip.symm ▸ Nat.lt_of_le_of_lt hplace hindex)),
    hplace, Option.getD_some]

/-- **Pieces.** Every piece is one of a line. -/
theorem exists_isPieceOf (hlaid : code.LaidOut pool bytecode operands wide offsets layout)
    {piece : Piece}
    (hpiece : (code.allPieces operands wide offsets layout.placement.final)[index]? = some piece) :
    ∃ (place : Nat) (line : CodeLine) (operand : Operand),
      (code.lines.zip operands)[place]? = some (line, operand) ∧
      IsPieceOf code operands wide offsets layout.placement.final place line operand index piece := by
  obtain ⟨place, line, operand, part, hline, rfl, hpart⟩ := exists_line_of_piece hpiece
  have hnext := splitAt_succ wide offsets layout.placement.final hline
  refine ⟨place, line, operand, hline, ?_⟩
  obtain ⟨condition, label, hinstruction, hwide, -, hpieces⟩ | ⟨-, hpieces⟩ :=
    hlaid.piecesOf_eq hline
  · rw [hpieces] at hpart hnext
    match part, hpart with
    | 0, hpart =>
      cases hpart
      exact .skip hinstruction
    | 1, hpart =>
      cases hpart
      exact .far hinstruction hwide hnext.symm
  · rw [hpieces] at hpart hnext
    match part, hpart with
    | 0, hpart =>
      cases hpart
      exact .whole hnext.symm

/-- A piece that does not go ahead is wide exactly if it has to be. -/
theorem wide_eq_of_behind (hlaid : code.LaidOut pool bytecode operands wide offsets layout)
    {piece : Piece} (hpiece : piece ∈ code.allPieces operands wide offsets layout.placement.final)
    (hrelaxable : piece.instruction.isRelaxable) {target : UInt16}
    (htarget : target ∈ piece.instruction.targets) (hbehind : target.toNat ≤ piece.offset) :
    piece.wide = !fitsShort (distance piece.offset target) := by
  obtain ⟨index, hindex⟩ := List.getElem?_of_mem hpiece
  obtain ⟨place, line, operand, hline, hpiece⟩ := hlaid.exists_isPieceOf hindex
  have hlt : place < code.lines.length :=
    hlaid.length_zip ▸ (List.getElem?_eq_some_iff.1 hline).1
  cases hpiece with
  | skip hinstruction =>
    obtain rfl := List.mem_singleton.1 htarget
    rw [hlaid.assembled.toNat_offset hlt] at hbehind
    exact absurd (hlaid.offsets_lt hlt) (Nat.not_lt.2 hbehind)
  | @far condition label hinstruction hwide =>
    obtain rfl := List.mem_singleton.1 htarget
    have hlabel : label ∈ line.instruction.targets := by
      rw [hinstruction]
      exact List.mem_singleton_self label
    obtain ⟨goal, hgoal, -, hat, hisWide⟩ := hlaid.exists_place_of_line hline hlabel
    have hbehind : offsets goal ≤ offsets place + 3 := hat ▸ hbehind
    have height : offsets (place + 1) = offsets place + 8 := by
      have hnext := (hlaid.drop_code hline).2
      rw [hinstruction] at hnext
      rw [EncodingSite.takesWide, hwide] at hnext
      exact hnext.symm
    have hle : goal ≤ place := by
      refine Nat.le_of_not_lt fun hahead => ?_
      have hlater : offsets (place + 1) ≤ offsets goal := hlaid.settled.hasOffsets.offsets_le hahead
        (hlaid.length_zip.symm ▸ Nat.le_of_lt hgoal)
      omega
    have hordered :=
      hlaid.settled.hasOffsets.offsets_le hle (hlaid.length_zip.symm ▸ Nat.le_of_lt hlt)
    rw [hwide, Layout.Form.isWide_of_behind hle, eq_comm, Bool.not_eq_true', fitsShort_eq_false_iff]
      at hisWide
    rw [eq_comm, Bool.not_eq_true', fitsShort_eq_false_iff, distance, hat]
    dsimp only
    omega
  | whole =>
    rw [Instruction.isRelaxable_map] at hrelaxable
    rw [Instruction.targets_map] at htarget
    obtain ⟨label, hlabel, rfl⟩ := List.mem_map.1 htarget
    obtain ⟨goal, hgoal, -, hat, hisWide⟩ := hlaid.exists_place_of_line hline hlabel
    have hbehind : offsets goal ≤ offsets place := hat ▸ hbehind
    have hle : goal ≤ place := Nat.le_of_not_lt fun hahead =>
      Nat.not_lt.2 hbehind (hlaid.offsets_lt_of_lt hahead (Nat.le_of_lt hgoal))
    rw [EncodingSite.takesWide_eq _ hrelaxable hlabel, hisWide, Layout.Form.isWide_of_behind hle,
      distance, hat]

/-- A piece that is wide and goes ahead is the last of a line that had to be wide. -/
theorem exists_of_isFarAhead (hlaid : code.LaidOut pool bytecode operands wide offsets layout)
    {piece : Piece}
    (hpiece : (code.allPieces operands wide offsets layout.placement.final)[index]? = some piece)
    (hfar : piece.isFarAhead) :
    ∃ place, wide.contains place ∧
      index + 1 = code.splitAt operands wide offsets layout.placement.final (place + 1) := by
  obtain ⟨place, line, operand, hline, hpiece⟩ := hlaid.exists_isPieceOf hpiece
  have hlt : place < code.lines.length :=
    hlaid.length_zip ▸ (List.getElem?_eq_some_iff.1 hline).1
  rw [Piece.isFarAhead, Bool.and_eq_true, List.any_eq_true] at hfar
  obtain ⟨hwide, target, htarget, hahead⟩ := hfar
  have hcontains : ∀ label ∈ line.instruction.targets, offsets place <
      (layout.placement.final label).toNat →
      (Layout.siteAt wide code.marks offsets place).isWideTo label → wide.contains place := by
    intro label hlabel hahead hwide
    obtain ⟨goal, hgoal, -, hat, hisWide⟩ := hlaid.exists_place_of_line hline hlabel
    rw [hat] at hahead
    rw [hisWide, Layout.Form.isWide_of_ahead] at hwide
    · exact hwide
    · refine Nat.lt_of_not_le fun hle => ?_
      have := hlaid.settled.hasOffsets.offsets_le hle (hlaid.length_zip.symm ▸ Nat.le_of_lt hlt)
      omega
  cases hpiece with
  | skip => cases hwide
  | @far condition label hinstruction hisWide hlast =>
    obtain rfl := List.mem_singleton.1 htarget
    refine ⟨place, hcontains label ?_ ?_ hisWide, hlast⟩
    · rw [hinstruction]
      exact List.mem_singleton_self label
    · exact Nat.lt_of_le_of_lt (Nat.le_add_right ..) (decide_eq_true_iff.1 hahead)
  | whole hlast =>
    have hrelaxable := EncodingSite.isRelaxable_of_takesWide _ hwide
    rw [Instruction.targets_map] at htarget
    obtain ⟨label, hlabel, rfl⟩ := List.mem_map.1 htarget
    dsimp only at hwide
    rw [EncodingSite.takesWide_eq _ hrelaxable hlabel] at hwide
    exact ⟨place, hcontains label hlabel (decide_eq_true_iff.1 hahead) hwide, hlast⟩

/-! ### The pieces that have to be wide -/

theorem areFormed (hlaid : code.LaidOut pool bytecode operands wide offsets layout) :
    Piece.AreFormed (code.allPieces operands wide offsets layout.placement.final)
      (Piece.farAhead (code.allPieces operands wide offsets layout.placement.final)) :=
  Piece.areFormed_farAhead fun _ hpiece hrelaxable _ htarget hbehind =>
    hlaid.wide_eq_of_behind hpiece hrelaxable htarget hbehind

end LaidOut

/-- Code that was laid out, and the pieces that its bytecode is read as. -/
structure ReadBack (code : Code) (pool : Pool) (bytecode : CodeAttribute) (operands : List Operand)
    (wide : Std.HashSet Nat) (offsets : Nat → Nat) (layout : Layout) (length : UInt16)
    (labels : OffsetLabels) (pieces : List Piece) : Prop where
  laidOut : code.LaidOut pool bytecode operands wide offsets layout
  pieces_eq : code.allPieces operands wide offsets layout.placement.final = pieces
  swept : IsSwept pool bytecode length labels (pieces.map Piece.found)

namespace ReadBack

variable {pool : Pool} {bytecode : CodeAttribute} {operands : List Operand}
  {wide : Std.HashSet Nat} {offsets : Nat → Nat} {layout : Layout} {length : UInt16}
  {labels : OffsetLabels} {pieces : List Piece} {index : Nat} {line : CodeLine} {operand : Operand}

/-- What a line goes to, its last piece goes to. -/
theorem exists_placeOf?
    (hback : code.ReadBack pool bytecode operands wide offsets layout length labels pieces)
    (hline : (code.lines.zip operands)[index]? = some (line, operand)) {label : Label}
    (hlabel : label ∈ line.instruction.targets) {other : Nat} {piece : Piece}
    (hpiece : pieces[other]? = some piece)
    (htarget : layout.placement.final label ∈ piece.instruction.targets) :
    ∃ place < code.lines.length, code.marks.placeOf? label = some place ∧
      (ofPieces bytecode labels pieces).marks.placeOf?
        (labels.name (layout.placement.final label)) =
        some (code.splitAt operands wide offsets layout.placement.final place) := by
  obtain ⟨hlaid, rfl, hswept⟩ := hback
  obtain ⟨place, hlt, hplace, hat, -⟩ := hlaid.exists_place_of_line hline hlabel
  obtain ⟨found, hfound, hstart, hmark, -⟩ := hswept.exists_place_of_piece hpiece htarget
  refine ⟨place, hlt, hplace, ?_⟩
  have hsplit : code.splitAt operands wide offsets layout.placement.final place ≤
      (code.allPieces operands wide offsets layout.placement.final).length :=
    hlaid.splitAt_length ▸ LaidOut.splitAt_le (Nat.le_of_lt hlt)
  have hsame : found = code.splitAt operands wide offsets layout.placement.final place := by
    refine hswept.offsets_inj (by rw [List.length_map]; omega) (by rwa [List.length_map]) ?_
    rw [hstart, hlaid.offsetsOf_splitAt (Nat.le_of_lt hlt), hat]
  rw [hmark, hsame]

theorem isSwitch_relaid
    (hback : code.ReadBack pool bytecode operands wide offsets layout length labels pieces)
    (hswitch : ∀ line ∈ code.lines, line.instruction.isSwitch = false) :
    ∀ line ∈ relaid bytecode labels pieces, line.1.instruction.isSwitch = false := by
  obtain ⟨hlaid, rfl, hswept⟩ := hback
  intro line hmem
  obtain ⟨index, hindex⟩ := List.getElem?_of_mem hmem
  obtain ⟨piece, hpiece, -, hinstruction⟩ := exists_of_relaid hindex
  obtain ⟨place, original, operand, hline, hpiece⟩ := hlaid.exists_isPieceOf hpiece
  rw [hinstruction, Instruction.isSwitch_map]
  cases hpiece with
  | skip | far => rfl
  | whole =>
    rw [Instruction.isSwitch_map]
    exact hswitch original (List.of_mem_zip (List.mem_of_getElem? hline)).1

/-- **One line.** A line is taken apart into its pieces. -/
theorem refines
    (hback : code.ReadBack pool bytecode operands wide offsets layout length labels pieces)
    (hswitch : ∀ line ∈ code.lines, line.instruction.isSwitch = false)
    (hindex : index < code.lines.length) :
    Layout.Refines (Layout.formAt (code.lines.zip operands) code.marks)
      (Layout.formAt (relaid bytecode labels pieces) (ofPieces bytecode labels pieces).marks)
      (code.splitAt operands wide offsets layout.placement.final) index := by
  obtain ⟨operand, hline, -⟩ := hback.laidOut.exists_operand (List.getElem?_eq_getElem hindex)
  have hfixed := hswitch _ (List.getElem_mem hindex)
  generalize code.lines[index] = line at hline hfixed
  have hform : Layout.formAt (code.lines.zip operands) code.marks index =
      Layout.formOf code.marks operand line.instruction := by
    rw [Layout.formAt, hline]
  have hnext := LaidOut.splitAt_succ wide offsets layout.placement.final hline
  have hpart : ∀ part, part < _ → pieces[_ + part]? = _ :=
    hback.pieces_eq ▸ LaidOut.getElem?_allPieces hline
  obtain ⟨condition, label, hinstruction, hwide, -, hpieces⟩ | ⟨-, hpieces⟩ :=
    hback.laidOut.piecesOf_eq hline
  · rw [hpieces] at hnext hpart
    have hlabel : label ∈ line.instruction.targets := by
      rw [hinstruction]
      exact List.mem_singleton_self label
    obtain ⟨place, hlt, hplace, hmark⟩ := hback.exists_placeOf? hline hlabel
      (hpart 1 Nat.one_lt_two) (List.mem_singleton_self _)
    rw [hinstruction] at hform
    exact .apart (hform.trans (Layout.formOf_branch hplace condition operand)) hnext
      (formAt_relaid (hpart 0 Nat.zero_lt_two)) (by decide)
      ((formAt_relaid (hpart 1 Nat.one_lt_two)).trans (Layout.formOf_jump hmark .goto operand))
      (by decide) (by decide)
  · rw [hpieces] at hnext hpart
    have honly := hpart 0 Nat.zero_lt_one
    cases hrelaxable : line.instruction.isRelaxable with
    | false =>
      obtain ⟨size, hcoarse, hfixed⟩ := Layout.exists_formOf_map hrelaxable hfixed code.marks
        (ofPieces bytecode labels pieces).marks operand
        fun label => labels.name (layout.placement.final label)
      rw [← Instruction.map_map] at hfixed
      exact .fixed (hform.trans hcoarse) hnext ((formAt_relaid honly).trans hfixed)
    | true =>
      have hplaces : ∀ label ∈ line.instruction.targets, _ := fun label hlabel =>
        hback.exists_placeOf? hline hlabel honly
          (by rw [Instruction.targets_map]; exact List.mem_map_of_mem hlabel)
      cases hinstruction : line.instruction with
      | branch condition label =>
        rw [hinstruction] at hplaces hform honly
        obtain ⟨place, -, hplace, hmark⟩ := hplaces label (List.mem_singleton_self label)
        exact .same (hform.trans (Layout.formOf_branch hplace condition operand)) hnext
          ((formAt_relaid honly).trans (Layout.formOf_branch hmark condition operand)) (by decide)
      | jump op label =>
        rw [hinstruction] at hplaces hform honly
        obtain ⟨place, -, hplace, hmark⟩ := hplaces label (List.mem_singleton_self label)
        exact .same (hform.trans (Layout.formOf_jump hplace op operand)) hnext
          ((formAt_relaid honly).trans (Layout.formOf_jump hmark op operand)) (by decide)
      | _ =>
        rw [hinstruction] at hrelaxable
        cases hrelaxable

theorem compared
    (hback : code.ReadBack pool bytecode operands wide offsets layout length labels pieces)
    (hswitch : ∀ line ∈ code.lines, line.instruction.isSwitch = false)
    {finer attempted : Std.HashSet Nat} {starts other : Nat → Nat} {complete : Layout}
    (hfits : Layout.Fits finer (relaid bytecode labels pieces)
      (ofPieces bytecode labels pieces).endLabel starts)
    (hcomplete : Layout.Complete attempted (code.lines.zip operands) code.endLabel other complete)
    (hattempted : ∀ place, attempted.contains place → finer.contains
      (code.splitAt operands wide offsets layout.placement.final (place + 1) - 1)) :
    Layout.Compared (Layout.formAt (code.lines.zip operands) code.marks)
      (Layout.formAt (relaid bytecode labels pieces) (ofPieces bytecode labels pieces).marks)
      (code.splitAt operands wide offsets layout.placement.final) code.lines.length attempted finer
      other starts where
  spaced := by
    rw [← hback.laidOut.marks_eq]
    refine hcomplete.hasOffsets.spaced (fun line hline => ?_) (Layout.length_le_marksOf _ _)
      (Nat.le_of_eq hback.laidOut.length_zip.symm) fun index hindex => ?_
    · exact hswitch _ (List.of_mem_zip hline).1
    · exact Nat.lt_succ_of_le (hcomplete.start_le index (hback.laidOut.length_zip.symm ▸ hindex))
  finerSpaced := by
    have hspaced := hfits.spaced (hback.isSwitch_relaid hswitch)
    rwa [marksOf_relaid, length_relaid, ← hback.pieces_eq, ← hback.laidOut.splitAt_length,
      hback.pieces_eq] at hspaced
  refines index hindex := hback.refines hswitch hindex
  ahead _ _ _ _ _ hahead := LaidOut.splitAt_le hahead
  wide_of_wide := hattempted

/-- **All attempts.** What was wide in some attempt, the last piece of it has to be wide. -/
theorem contains_of_attempted
    (hback : code.ReadBack pool bytecode operands wide offsets layout length labels pieces)
    (hswitch : ∀ line ∈ code.lines, line.instruction.isSwitch = false)
    {finer attempted : Std.HashSet Nat} {starts : Nat → Nat}
    (hfits : Layout.Fits finer (relaid bytecode labels pieces)
      (ofPieces bytecode labels pieces).endLabel starts)
    (hattempted : Layout.Attempted (code.lines.zip operands) code.endLabel attempted) :
    ∀ place, attempted.contains place → finer.contains
      (code.splitAt operands wide offsets layout.placement.final (place + 1) - 1) := by
  induction hattempted with
  | first =>
    intro place hplace
    rw [Std.HashSet.contains_empty] at hplace
    cases hplace
  | @again attempted other complete index place hattempted hcomplete hfar ih =>
    intro found hfound
    rw [Std.HashSet.contains_insert, Bool.or_eq_true, beq_iff_eq] at hfound
    obtain rfl | hfound := hfound
    · have hcompared := hback.compared hswitch hfits hcomplete ih
      obtain ⟨wideSize, hform⟩ := hfar.form
      rw [hback.laidOut.marks_eq] at hform
      refine hcompared.wide_of_far (hback.laidOut.length_zip ▸ hfar.index_lt) hform hfar.ahead
        (hback.laidOut.length_zip ▸ hfar.place_le) hfar.narrow hfar.far ?_
      intro carrier hcarrier target size hcarrierForm hahead hnarrow
      rw [hback.laidOut.splitAt_length, hback.pieces_eq, ← length_relaid] at hcarrier
      rw [← marksOf_relaid] at hcarrierForm
      exact hfits.reaches hcarrier hcarrierForm hahead hnarrow
    · exact ih found hfound

/-- **Settling.** Lines without switches are laid out again as the pieces that they were. -/
theorem exists_settle_of_attempted
    (hback : code.ReadBack pool bytecode operands wide offsets layout length labels pieces)
    (hswitch : ∀ line ∈ code.lines, line.instruction.isSwitch = false)
    (hattempted : Layout.Attempted (code.lines.zip operands) code.endLabel wide) :
    ∃ final, Piece.AreFormed pieces final ∧
      Layout.settle (relaid bytecode labels pieces) (ofPieces bytecode labels pieces).endLabel ∅ =
      Layout.settle (relaid bytecode labels pieces) (ofPieces bytecode labels pieces).endLabel
        final := by
  have hformed := hback.laidOut.areFormed
  have hpieces := hback.laidOut.pieces
  rw [hback.pieces_eq] at hformed hpieces
  have hfits := hback.swept.fits_relaid hpieces hformed
  have hleast : ∀ finer starts, Layout.Fits finer (relaid bytecode labels pieces)
      (ofPieces bytecode labels pieces).endLabel starts →
      ∀ index, (Piece.farAhead pieces).contains index → finer.contains index := by
    intro finer starts hfiner index hindex
    obtain ⟨piece, hpiece, hfar⟩ := Piece.contains_farAhead_iff.1 hindex
    rw [← hback.pieces_eq] at hpiece
    obtain ⟨place, hplace, hlast⟩ := hback.laidOut.exists_of_isFarAhead hpiece hfar
    have hcontains := hback.contains_of_attempted hswitch hfiner hattempted place hplace
    rwa [← hlast, Nat.add_sub_cancel] at hcontains
  have hempty : ∀ index, (∅ : Std.HashSet Nat).contains index →
      (Piece.farAhead pieces).contains index := by
    intro index hindex
    rw [Std.HashSet.contains_empty] at hindex
    cases hindex
  obtain ⟨final, hfinal, hsettle⟩ :=
    hfits.exists_settle_eq (hback.isSwitch_relaid hswitch) hleast hempty
  exact ⟨final, hformed.congr hfinal, hsettle⟩

/-- Lines that were laid out at once are laid out at once again. -/
theorem areFormed_of_empty
    (hback : code.ReadBack pool bytecode operands ∅ offsets layout length labels pieces) :
    Piece.AreFormed pieces ∅ := by
  have hformed := hback.laidOut.areFormed
  rw [hback.pieces_eq] at hformed
  refine hformed.congr fun index => ?_
  rw [Std.HashSet.contains_empty, eq_comm, Bool.eq_false_iff]
  intro hindex
  obtain ⟨piece, hpiece, hfar⟩ := Piece.contains_farAhead_iff.1 hindex
  rw [← hback.pieces_eq] at hpiece
  obtain ⟨place, hplace, -⟩ := hback.laidOut.exists_of_isFarAhead hpiece hfar
  rw [Std.HashSet.contains_empty] at hplace
  cases hplace

end ReadBack

end Code

end JvmClass
