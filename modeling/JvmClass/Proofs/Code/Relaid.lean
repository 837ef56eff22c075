import JvmClass.Proofs.Code.Fidelity

/-!
# Laying out what was read

Bytecode that is made of pieces is read as one line for each piece. These lines can be laid out
where the pieces were: all labels are back at the offsets they stand for, and each instruction takes
the form that it had, if it is known which of those that go ahead must not be short.
-/

namespace JvmClass

/-! ### Pieces that were found -/

theorem Instruction.map_eq_self {τ : Type} {f : τ → τ} {instruction : Instruction τ}
    (hf : ∀ target ∈ instruction.targets, f target = target) : instruction.map f = instruction := by
  rw [Instruction.map_congr hf]
  cases instruction with
  | tableSwitch otherwise low high targets => simp
  | lookupSwitch otherwise cases => simp
  | _ => rfl

theorem Instruction.bytesAt_of_not_isRelaxable {instruction : Instruction UInt16}
    (hrelaxable : instruction.isRelaxable = false) (offset : Nat) (first second : Bool)
    (operand : Operand) :
    instruction.bytesAt offset first operand = instruction.bytesAt offset second operand := by
  cases instruction with
  | branch | jump => cases hrelaxable
  | _ => rfl

def Piece.found (piece : Piece) : Nat × Instruction UInt16 :=
  (piece.offset, piece.instruction)

theorem Instruction.isRelaxable_map {τ σ : Type} (f : τ → σ) (instruction : Instruction τ) :
    (instruction.map f).isRelaxable = instruction.isRelaxable := by
  cases instruction <;> rfl

theorem Instruction.ReachesFrom.fitsShort {instruction : Instruction UInt16} {offset : Nat}
    (hreaches : instruction.ReachesFrom offset false) (hrelaxable : instruction.isRelaxable)
    {target : UInt16} (htarget : target ∈ instruction.targets) :
    fitsShort (distance offset target) := by
  cases instruction with
  | branch condition other =>
    obtain rfl := List.mem_singleton.1 htarget
    exact hreaches rfl
  | jump op other =>
    obtain rfl := List.mem_singleton.1 htarget
    exact hreaches rfl
  | _ => cases hrelaxable

namespace Pieces

variable {pool : Pool} {code : Bytes} {start : Nat} {pieces : List Piece}

theorem drop_eq (hpieces : Pieces pool code start pieces) :
    code.drop start = pieces.flatMap Piece.bytes := by
  induction hpieces with
  | nil => exact List.drop_length
  | cons piece hreadable hcode hrest ih => rw [hcode, ih, List.flatMap_cons]

theorem swept_eq (hpieces : Pieces pool code start pieces)
    {swept : List (Nat × Instruction UInt16)} (hswept : Swept pool code start swept)
    (hsize : code.length < 65536) : swept = pieces.map Piece.found := by
  induction hpieces generalizing swept with
  | nil =>
    cases hswept with
    | nil => rfl
    | cons hreads hencoded hrest => exact absurd hencoded.le (Nat.not_le.2 hencoded.lt)
  | cons piece hreadable hcode hrest ih =>
    have hpos := piece.length_bytes_pos
    have hle := hrest.start_le
    have hstop : piece.offset + piece.bytes.length = piece.stop := rfl
    generalize hstart : piece.offset = start at hswept
    cases hswept with
    | nil => omega
    | cons hreads hencoded hothers =>
      subst hstart
      have hpiece : ReadsAt pool code piece.offset piece.instruction piece.stop :=
        readsAt_of_bytes (by omega) hreadable.operandIn hreadable.reaches hreadable.near hcode rfl
          (by omega)
      cases Except.ok.inj (hreads.symm.trans hpiece)
      rw [List.map_cons, ih hothers]
      rfl

theorem offsetsOf_zero (hpieces : Pieces pool code start pieces) :
    offsetsOf code.length (pieces.map Piece.found) 0 = start := by
  cases hpieces <;> rfl

theorem offsetsOf_of_getElem? {index : Nat} {piece : Piece} (hpiece : pieces[index]? = some piece) :
    offsetsOf code.length (pieces.map Piece.found) index = piece.offset := by
  have hfound : (pieces.map Piece.found)[index]? = some piece.found := by
    rw [List.getElem?_map, hpiece, Option.map_some]
  exact JvmClass.offsetsOf_of_getElem? hfound

theorem offsetsOf_succ (hpieces : Pieces pool code start pieces) {index : Nat} {piece : Piece}
    (hpiece : pieces[index]? = some piece) :
    offsetsOf code.length (pieces.map Piece.found) (index + 1) = piece.stop := by
  induction hpieces generalizing index with
  | nil => cases hpiece
  | cons first hreadable hcode hrest ih =>
    cases index with
    | zero =>
      cases hpiece
      exact hrest.offsetsOf_zero
    | succ index => exact ih hpiece

end Pieces

namespace Code.IsSwept

variable {pool : Pool} {bytecode : CodeAttribute} {length : UInt16} {labels : OffsetLabels}
  {swept : List (Nat × Instruction UInt16)}

/-! ### Labels at their places -/

theorem offset_le (hswept : IsSwept pool bytecode length labels swept) (place : Nat) :
    offsetsOf bytecode.code.length swept place ≤ bytecode.code.length := by
  unfold offsetsOf
  cases hentry : swept[place]? with
  | none => exact Nat.le_refl _
  | some entry => exact Nat.le_of_lt (hswept.found.bounds entry (List.mem_of_getElem? hentry)).2

theorem toNat_offset (hswept : IsSwept pool bytecode length labels swept) (place : Nat) :
    (UInt16.ofNat (offsetsOf bytecode.code.length swept place)).toNat =
      offsetsOf bytecode.code.length swept place :=
  UInt16.toNat_ofNat_of_lt' (Nat.lt_of_le_of_lt (hswept.offset_le place) hswept.lt_size)

theorem offsets_lt_of_lt (hswept : IsSwept pool bytecode length labels swept) {first second : Nat}
    (hlt : first < second) (hsecond : second ≤ swept.length) :
    offsetsOf bytecode.code.length swept first < offsetsOf bytecode.code.length swept second := by
  induction hlt with
  | refl => exact hswept.found.offsetsOf_lt hsecond
  | step hlt ih =>
    exact Nat.lt_trans (ih (Nat.le_of_succ_le hsecond)) (hswept.found.offsetsOf_lt hsecond)

theorem offsets_inj (hswept : IsSwept pool bytecode length labels swept) {first second : Nat}
    (hfirst : first ≤ swept.length) (hsecond : second ≤ swept.length)
    (heq : offsetsOf bytecode.code.length swept first =
      offsetsOf bytecode.code.length swept second) : first = second := by
  obtain hlt | rfl | hlt := Nat.lt_trichotomy first second
  · exact absurd heq (Nat.ne_of_lt (hswept.offsets_lt_of_lt hlt hsecond))
  · rfl
  · exact absurd heq (Nat.ne_of_gt (hswept.offsets_lt_of_lt hlt hfirst))

theorem name_injective (hswept : IsSwept pool bytecode length labels swept) :
    Function.Injective labels.name := by
  have hnumbered := (OffsetLabels.isNumbered_empty length).addAll (sweptOffsets bytecode swept)
  rw [← hswept.labels_eq] at hnumbered
  exact fun _ _ hname => hnumbered.name_injective hname

theorem length_lines : (ofSwept bytecode labels swept).lines.length = swept.length := by
  rw [lines_eq, List.length_map]

theorem getElem?_marks {place : Nat} (hplace : place ≤ swept.length) :
    (ofSwept bytecode labels swept).marks[place]? =
      some labels.labels[UInt16.ofNat (offsetsOf bytecode.code.length swept place)]? := by
  rw [marks, lines_eq, List.map_map]
  obtain hlt | rfl := Nat.lt_or_eq_of_le hplace
  · rw [List.getElem?_append_left (by simpa using hlt), List.getElem?_map,
      List.getElem?_eq_getElem hlt, offsetsOf_of_getElem? (List.getElem?_eq_getElem hlt)]
    rfl
  · rw [List.getElem?_append_right (by simp), offsetsOf_length]
    simp [ofSwept, ofRead]

theorem place_le {place : Nat} {mark : Option Label}
    (hmark : (ofSwept bytecode labels swept).marks[place]? = some mark) : place ≤ swept.length := by
  have hlt := (List.getElem?_eq_some_iff.1 hmark).1
  rw [marks, List.length_append, List.length_map, List.length_singleton, length_lines] at hlt
  exact Nat.le_of_lt_succ hlt

theorem eq_name_of_mark {place : Nat} {label : Label}
    (hmark : (ofSwept bytecode labels swept).marks[place]? = some (some label)) :
    label = labels.name (UInt16.ofNat (offsetsOf bytecode.code.length swept place)) := by
  rw [getElem?_marks (place_le hmark), Option.some.injEq] at hmark
  have hmem : UInt16.ofNat (offsetsOf bytecode.code.length swept place) ∈ labels.labels := by
    rw [Std.HashMap.mem_iff_isSome_getElem?, hmark]
    rfl
  rw [OffsetLabels.getElem?_eq_some_name hmem] at hmark
  exact (Option.some.inj hmark).symm

theorem isDistinct (hswept : IsSwept pool bytecode length labels swept) :
    (ofSwept bytecode labels swept).marks.IsDistinct := by
  intro place label hmark
  obtain ⟨first, hle, hfirst⟩ := Marks.exists_placeOf?_le hmark
  have hfirstMark := Marks.getElem?_of_placeOf? hfirst
  have hname := (eq_name_of_mark hfirstMark).symm.trans (eq_name_of_mark hmark)
  have hoffset := congrArg UInt16.toNat (hswept.name_injective hname)
  rw [hswept.toNat_offset, hswept.toNat_offset] at hoffset
  rw [hfirst, hswept.offsets_inj (place_le hfirstMark) (place_le hmark) hoffset]

/-- The label of an offset that is asked for is at the place with that offset. -/
theorem placeOf?_name (hswept : IsSwept pool bytecode length labels swept) {offset : UInt16}
    (hoffset : offset ∈ sweptOffsets bytecode swept) {place : Nat} (hplace : place ≤ swept.length)
    (hat : offsetsOf bytecode.code.length swept place = offset.toNat) :
    (ofSwept bytecode labels swept).marks.placeOf? (labels.name offset) = some place := by
  refine hswept.isDistinct place _ ?_
  have hmem : offset ∈ labels.labels := by
    rw [hswept.labels_eq, OffsetLabels.mem_addAll]
    exact .inl hoffset
  rw [getElem?_marks hplace, hat, UInt16.ofNat_toNat,
    OffsetLabels.getElem?_eq_some_name hmem]

/-- Every offset that is asked for has a place. -/
theorem exists_place (hswept : IsSwept pool bytecode length labels swept) {offset : UInt16}
    (hoffset : offset ∈ sweptOffsets bytecode swept) :
    ∃ place ≤ swept.length, offsetsOf bytecode.code.length swept place = offset.toNat ∧
      (ofSwept bytecode labels swept).marks.placeOf? (labels.name offset) = some place := by
  obtain ⟨entry, hentry, hat⟩ | rfl := hswept.places offset hoffset
  · obtain ⟨place, hplace⟩ := List.getElem?_of_mem hentry
    have hle := Nat.le_of_lt (List.getElem?_eq_some_iff.1 hplace).1
    have hat : offsetsOf bytecode.code.length swept place = offset.toNat :=
      (offsetsOf_of_getElem? hplace).trans hat
    exact ⟨place, hle, hat, hswept.placeOf?_name hoffset hle hat⟩
  · have hat := (offsetsOf_length bytecode.code.length swept).trans hswept.length_eq.symm
    exact ⟨swept.length, Nat.le_refl _, hat, hswept.placeOf?_name hoffset (Nat.le_refl _) hat⟩

/-- Every target is an instruction. -/
theorem exists_place_of_target (hswept : IsSwept pool bytecode length labels swept)
    {entry : Nat × Instruction UInt16} (hentry : entry ∈ swept) {target : UInt16}
    (htarget : target ∈ entry.2.targets) :
    ∃ place < swept.length, offsetsOf bytecode.code.length swept place = target.toNat ∧
      (ofSwept bytecode labels swept).marks.placeOf? (labels.name target) = some place := by
  have hasked : target ∈ sweptOffsets bytecode swept :=
    List.mem_append_left _ (List.mem_flatMap.2 ⟨entry, hentry, htarget⟩)
  obtain ⟨place, hle, hat, hplace⟩ := hswept.exists_place hasked
  refine ⟨place, Nat.lt_of_le_of_ne hle ?_, hat, hplace⟩
  rintro rfl
  rw [offsetsOf_length, ← hswept.length_eq] at hat
  exact absurd (hswept.targets entry hentry target htarget)
    (UInt16.not_lt.2 (UInt16.le_of_eq (UInt16.toNat_inj.1 hat)))

end Code.IsSwept

/-! ### Pieces in their forms -/

/-- Each piece has the form that it is encoded in, when those in `wide` must not be short. -/
def Piece.AreFormed (pieces : List Piece) (wide : Std.HashSet Nat) : Prop :=
  ∀ (index : Nat) (piece : Piece), pieces[index]? = some piece → piece.instruction.isRelaxable →
    ∀ target ∈ piece.instruction.targets, piece.wide =
      if piece.offset < target.toNat then wide.contains index
      else !fitsShort (distance piece.offset target)

namespace Code

abbrev ofPieces (bytecode : CodeAttribute) (labels : OffsetLabels) (pieces : List Piece) : Code :=
  ofSwept bytecode labels (pieces.map Piece.found)

def relaid (bytecode : CodeAttribute) (labels : OffsetLabels) (pieces : List Piece) :
    List (CodeLine × Operand) :=
  (ofPieces bytecode labels pieces).lines.zip (pieces.map Piece.operand)

section

variable {pool : Pool} {bytecode : CodeAttribute} {length : UInt16} {labels : OffsetLabels}
  {pieces : List Piece} {wide : Std.HashSet Nat} {index : Nat} {piece : Piece}

theorem length_operands : (ofPieces bytecode labels pieces).lines.length =
    (pieces.map Piece.operand).length := by
  rw [IsSwept.length_lines, List.length_map, List.length_map]

theorem length_relaid : (relaid bytecode labels pieces).length = pieces.length := by
  rw [relaid, length_zip_operands length_operands, IsSwept.length_lines, List.length_map]

theorem marksOf_relaid :
    Layout.marksOf (relaid bytecode labels pieces)
      (ofPieces bytecode labels pieces).endLabel =
      (ofPieces bytecode labels pieces).marks :=
  marksOf_zip length_operands

theorem getElem?_relaid (bytecode : CodeAttribute) (labels : OffsetLabels)
    (hpiece : pieces[index]? = some piece) :
    ∃ line, (relaid bytecode labels pieces)[index]? = some (line, piece.operand) ∧
      line.instruction = piece.instruction.map labels.name := by
  obtain ⟨line, hline, hinstruction⟩ : ∃ line,
      (ofPieces bytecode labels pieces).lines[index]? = some line ∧
        line.instruction = piece.instruction.map labels.name := by
    rw [IsSwept.lines_eq, List.map_map, List.getElem?_map, hpiece]
    exact ⟨_, rfl, rfl⟩
  refine ⟨line, List.getElem?_zip_eq_some.2 ⟨hline, ?_⟩, hinstruction⟩
  rw [List.getElem?_map, hpiece, Option.map_some]

theorem exists_of_relaid {line : CodeLine} {operand : Operand}
    (hline : (relaid bytecode labels pieces)[index]? = some (line, operand)) :
    ∃ piece, pieces[index]? = some piece ∧ piece.operand = operand ∧
      line.instruction = piece.instruction.map labels.name := by
  have hindex := (List.getElem?_eq_some_iff.1 hline).1
  rw [length_relaid] at hindex
  obtain ⟨other, hother, hinstruction⟩ :=
    getElem?_relaid bytecode labels (List.getElem?_eq_getElem hindex)
  cases hline.symm.trans hother
  exact ⟨_, List.getElem?_eq_getElem hindex, rfl, hinstruction⟩

end

namespace IsSwept

variable {pool : Pool} {bytecode : CodeAttribute} {length : UInt16} {labels : OffsetLabels}
  {pieces : List Piece} {wide : Std.HashSet Nat} {index : Nat} {piece : Piece}

/-- The place of a target, which is ahead exactly if its offset is. -/
theorem exists_place_of_piece
    (hswept : IsSwept pool bytecode length labels (pieces.map Piece.found))
    (hpiece : pieces[index]? = some piece) {target : UInt16}
    (htarget : target ∈ piece.instruction.targets) :
    ∃ place < pieces.length, offsetsOf bytecode.code.length (pieces.map Piece.found) place =
        target.toNat ∧
      (ofPieces bytecode labels pieces).marks.placeOf? (labels.name target) =
        some place ∧ (index < place ↔ piece.offset < target.toNat) := by
  have hmem : piece.found ∈ pieces.map Piece.found :=
    List.mem_map_of_mem (List.mem_of_getElem? hpiece)
  obtain ⟨place, hlt, hat, hplace⟩ := hswept.exists_place_of_target hmem htarget
  rw [List.length_map] at hlt
  refine ⟨place, hlt, hat, hplace, ?_⟩
  have hindex := (List.getElem?_eq_some_iff.1 hpiece).1
  rw [← hat, ← Pieces.offsetsOf_of_getElem? hpiece]
  constructor
  · exact fun hahead => hswept.offsets_lt_of_lt hahead (by rw [List.length_map]; omega)
  · intro hoffset
    refine Nat.lt_of_not_le fun hbehind => ?_
    obtain hlt | rfl := Nat.lt_or_eq_of_le hbehind
    · have hbefore := hswept.offsets_lt_of_lt hlt (by rw [List.length_map]; omega)
      exact Nat.lt_asymm hbefore hoffset
    · exact Nat.lt_irrefl _ hoffset

theorem takesWide_relaid (hswept : IsSwept pool bytecode length labels (pieces.map Piece.found))
    (hformed : Piece.AreFormed pieces wide) (hpiece : pieces[index]? = some piece)
    (hrelaxable : piece.instruction.isRelaxable) :
    (Layout.siteAt wide (ofPieces bytecode labels pieces).marks
      (offsetsOf bytecode.code.length (pieces.map Piece.found)) index).takesWide
        (piece.instruction.map labels.name) = piece.wide := by
  have hisWide : ∀ target ∈ piece.instruction.targets,
      (Layout.siteAt wide (ofPieces bytecode labels pieces).marks
        (offsetsOf bytecode.code.length (pieces.map Piece.found)) index).isWideTo
          (labels.name target) = piece.wide := by
    intro target htarget
    obtain ⟨place, -, hat, hplace, hahead⟩ := hswept.exists_place_of_piece hpiece htarget
    have hindex := (List.getElem?_eq_some_iff.1 hpiece).1
    have hmarks : index < (ofPieces bytecode labels pieces).marks.length := by
      rw [marks, List.length_append, List.length_map, length_lines, List.length_map]
      exact Nat.lt_add_right _ hindex
    rw [Layout.isWideTo_siteAt hmarks fun place _ =>
        Nat.lt_of_le_of_lt (hswept.offset_le place) hswept.lt_size, hplace, Option.getD_some,
      hformed index piece hpiece hrelaxable target htarget]
    split
    · rename_i hoffset
      exact Layout.Form.isWide_of_ahead (hahead.2 hoffset)
    · rename_i hoffset
      rw [Layout.Form.isWide_of_behind (Nat.le_of_not_lt fun h => hoffset (hahead.1 h)), hat,
        Pieces.offsetsOf_of_getElem? hpiece, distance]
  cases hinstruction : piece.instruction with
  | branch condition target =>
    rw [hinstruction] at hisWide
    exact hisWide target (List.mem_singleton_self target)
  | jump op target =>
    rw [hinstruction] at hisWide
    exact hisWide target (List.mem_singleton_self target)
  | _ =>
    rw [hinstruction] at hrelaxable
    cases hrelaxable

/-- **Bytes.** What pieces are read as is encoded to the bytes of the pieces. -/
theorem bytesOf_relaid (hswept : IsSwept pool bytecode length labels (pieces.map Piece.found))
    (hformed : Piece.AreFormed pieces wide) (hpiece : pieces[index]? = some piece)
    {final : Label → UInt16}
    (hfinal : ∀ target ∈ piece.instruction.targets, final (labels.name target) = target) :
    Layout.bytesOf wide (relaid bytecode labels pieces)
      (ofPieces bytecode labels pieces).marks
      (offsetsOf bytecode.code.length (pieces.map Piece.found)) final index = piece.bytes := by
  obtain ⟨line, hline, hinstruction⟩ := getElem?_relaid bytecode labels hpiece
  rw [Layout.bytesOf, hline]
  dsimp only
  rw [hinstruction, Instruction.map_map, Instruction.map_eq_self hfinal,
    Pieces.offsetsOf_of_getElem? hpiece, Piece.bytes]
  cases hrelaxable : piece.instruction.isRelaxable with
  | true => rw [hswept.takesWide_relaid hformed hpiece hrelaxable]
  | false => exact Instruction.bytesAt_of_not_isRelaxable hrelaxable _ _ _ _

/-- **Sizes.** What pieces are read as is laid out at the offsets of the pieces. -/
theorem hasOffsets_relaid
    (hswept : IsSwept pool bytecode length labels (pieces.map Piece.found))
    (hpieces : Pieces pool bytecode.code 0 pieces) (hformed : Piece.AreFormed pieces wide) :
    Layout.HasOffsets wide (relaid bytecode labels pieces)
      (ofPieces bytecode labels pieces).marks
      (offsetsOf bytecode.code.length (pieces.map Piece.found)) where
  zero := hpieces.offsetsOf_zero
  succ index hindex := by
    rw [length_relaid] at hindex
    have hpiece := List.getElem?_eq_getElem hindex
    let marks := (ofPieces bytecode labels pieces).marks
    let starts := offsetsOf bytecode.code.length (pieces.map Piece.found)
    let final (label : Label) : UInt16 := UInt16.ofNat (starts ((marks.placeOf? label).getD 0))
    have hfilled : Encoded.Filled (Hole.bytesFor final) (starts index)
        (Layout.encodedAt wide (relaid bytecode labels pieces) marks starts index)
        (Layout.bytesOf wide (relaid bytecode labels pieces) marks starts final index) := by
      refine Layout.filled_encodedAt fun label target htarget => ?_
      obtain ⟨place, hplace, -, rfl⟩ := Marks.offsetOf?_eq_some_iff.1 htarget
      simp only [final, hplace, Option.getD_some]
    rw [← hfilled.length_eq, hswept.bytesOf_relaid hformed hpiece ?_, hpieces.offsetsOf_succ hpiece,
      Pieces.offsetsOf_of_getElem? hpiece]
    · rfl
    · intro target htarget
      obtain ⟨place, -, hat, hplace, -⟩ := hswept.exists_place_of_piece hpiece htarget
      simp only [final, marks, starts, hplace, Option.getD_some, hat, UInt16.ofNat_toNat]

theorem fits_relaid (hswept : IsSwept pool bytecode length labels (pieces.map Piece.found))
    (hpieces : Pieces pool bytecode.code 0 pieces) (hformed : Piece.AreFormed pieces wide) :
    Layout.Fits wide (relaid bytecode labels pieces)
      (ofPieces bytecode labels pieces).endLabel
      (offsetsOf bytecode.code.length (pieces.map Piece.found)) where
  hasOffsets := by
    rw [marksOf_relaid]
    exact hswept.hasOffsets_relaid hpieces hformed
  distinct := by
    rw [marksOf_relaid]
    exact hswept.isDistinct
  start_le index _ :=
    Nat.le_trans (hswept.offset_le index) (Nat.le_of_lt_succ hswept.lt_size)
  end_le _ := Nat.le_trans (hswept.offset_le _) (Nat.le_of_lt_succ hswept.lt_size)
  target := by
    intro index line operand hline label hlabel
    obtain ⟨piece, hpiece, -, hinstruction⟩ := exists_of_relaid hline
    rw [hinstruction, Instruction.targets_map] at hlabel
    obtain ⟨target, htarget, rfl⟩ := List.mem_map.1 hlabel
    obtain ⟨place, hlt, hat, hplace, hahead⟩ := hswept.exists_place_of_piece hpiece htarget
    rw [marksOf_relaid, length_relaid]
    refine ⟨place, hlt, hplace, fun hrelaxable hnarrow hindex => ?_⟩
    rw [hinstruction, Instruction.isRelaxable_map] at hrelaxable
    have hwide := hformed index piece hpiece hrelaxable target htarget
    rw [if_pos (hahead.1 hindex), hnarrow] at hwide
    have hreaches := (hpieces.readable piece (List.mem_of_getElem? hpiece)).reaches
    rw [hwide] at hreaches
    rw [hat, Pieces.offsetsOf_of_getElem? hpiece]
    exact hreaches.fitsShort hrelaxable htarget

/-- **Code.** Where what pieces are read as fits, it is laid out as the code of the pieces. -/
theorem codeOf_relaid (hswept : IsSwept pool bytecode length labels (pieces.map Piece.found))
    (hpieces : Pieces pool bytecode.code 0 pieces) (hformed : Piece.AreFormed pieces wide)
    {layout : Layout} (hcomplete : Layout.Complete wide (relaid bytecode labels pieces)
      (ofPieces bytecode labels pieces).endLabel
      (offsetsOf bytecode.code.length (pieces.map Piece.found)) layout) :
    Layout.codeOf wide (relaid bytecode labels pieces)
      (ofPieces bytecode labels pieces).marks
      (offsetsOf bytecode.code.length (pieces.map Piece.found)) layout.placement.final
      pieces.length = bytecode.code := by
  have hbytes : (List.range pieces.length).map (Layout.bytesOf wide (relaid bytecode labels pieces)
      (ofPieces bytecode labels pieces).marks
      (offsetsOf bytecode.code.length (pieces.map Piece.found)) layout.placement.final) =
      pieces.map Piece.bytes := by
    refine List.ext_getElem (by simp) fun index hindex hother => ?_
    rw [List.getElem_map, List.getElem_map, List.getElem_range]
    rw [List.length_map] at hother
    refine hswept.bytesOf_relaid hformed (List.getElem?_eq_getElem hother) fun target htarget => ?_
    obtain ⟨place, -, hat, hplace, -⟩ :=
      hswept.exists_place_of_piece (List.getElem?_eq_getElem hother) htarget
    rw [← marksOf_relaid] at hplace
    rw [hcomplete.final_eq hplace, hat, UInt16.ofNat_toNat]
  have hcode := hpieces.drop_eq
  rw [List.drop_zero, List.flatMap_def, ← hbytes, ← List.flatMap_def] at hcode
  exact hcode.symm

end IsSwept

end Code

/-! ### Pieces that are far from what is ahead -/

namespace Piece

def isFarAhead (piece : Piece) : Bool :=
  piece.wide && piece.instruction.targets.any fun target => piece.offset < target.toNat

def farAhead (pieces : List Piece) : Std.HashSet Nat :=
  .ofList ((List.range pieces.length).filter fun index => pieces[index]?.any isFarAhead)

theorem contains_farAhead_iff {pieces : List Piece} {index : Nat} :
    (farAhead pieces).contains index ↔ ∃ piece, pieces[index]? = some piece ∧ piece.isFarAhead := by
  rw [farAhead, Std.HashSet.contains_ofList, List.contains_eq_mem, decide_eq_true_iff,
    List.mem_filter, List.mem_range, Option.any_eq_true]
  refine and_iff_right_of_imp ?_
  rintro ⟨piece, hpiece, -⟩
  exact (List.getElem?_eq_some_iff.1 hpiece).1

theorem contains_farAhead {pieces : List Piece} {index : Nat} {piece : Piece}
    (hpiece : pieces[index]? = some piece) :
    (farAhead pieces).contains index = piece.isFarAhead := by
  rw [Bool.eq_iff_iff, contains_farAhead_iff]
  simp [hpiece]

theorem isFarAhead_eq {piece : Piece} (hrelaxable : piece.instruction.isRelaxable)
    {target : UInt16} (htarget : target ∈ piece.instruction.targets) :
    piece.isFarAhead = (piece.wide && decide (piece.offset < target.toNat)) := by
  unfold isFarAhead
  cases hinstruction : piece.instruction with
  | branch condition other =>
    rw [hinstruction] at htarget
    obtain rfl := List.mem_singleton.1 htarget
    simp [Instruction.targets]
  | jump op other =>
    rw [hinstruction] at htarget
    obtain rfl := List.mem_singleton.1 htarget
    simp [Instruction.targets]
  | _ =>
    rw [hinstruction] at hrelaxable
    cases hrelaxable

/-- Whether pieces have the forms that they are encoded in depends only on those that do not go
ahead. -/
theorem areFormed_farAhead {pieces : List Piece}
    (hbehind : ∀ piece ∈ pieces, piece.instruction.isRelaxable →
      ∀ target ∈ piece.instruction.targets, target.toNat ≤ piece.offset →
        piece.wide = !fitsShort (distance piece.offset target)) :
    AreFormed pieces (farAhead pieces) := by
  intro index piece hpiece hrelaxable target htarget
  split
  · rename_i hahead
    rw [contains_farAhead hpiece, isFarAhead_eq hrelaxable htarget, decide_eq_true hahead,
      Bool.and_true]
  · rename_i hahead
    exact hbehind piece (List.mem_of_getElem? hpiece) hrelaxable target htarget
      (Nat.le_of_not_lt hahead)

theorem AreFormed.congr {pieces : List Piece} {wide other : Std.HashSet Nat}
    (hformed : AreFormed pieces wide)
    (hsame : ∀ index, other.contains index = wide.contains index) : AreFormed pieces other := by
  intro index piece hpiece hrelaxable target htarget
  rw [hsame]
  exact hformed index piece hpiece hrelaxable target htarget

end Piece

end JvmClass
