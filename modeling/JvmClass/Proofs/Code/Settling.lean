import JvmClass.Proofs.Code.Layout

/-!
# Settled layouts

The last attempt to lay out lines is the one whose holes can all be filled. In its code every line
stands at its offset with all targets known, every short branch or jump reaches its target, and
every target is a line.
-/

namespace JvmClass.Layout

variable {wide : Std.HashSet Nat} {lines : List (CodeLine × Operand)} {marks : Marks}
  {endLabel : Option Label} {offsets : Nat → Nat}

/-! ### Filled layouts -/

def bytesOf (wide : Std.HashSet Nat) (lines : List (CodeLine × Operand)) (marks : Marks)
    (offsets : Nat → Nat) (final : Label → UInt16) (index : Nat) : Bytes :=
  match lines[index]? with
  | some (line, operand) => (line.instruction.map final).bytesAt (offsets index)
      ((siteAt wide marks offsets index).takesWide line.instruction) operand
  | none => []

theorem filled_encodedAt {final : Label → UInt16} {index : Nat}
    (hfinal : ∀ label target, marks.offsetOf? offsets (index + 1) label = some target →
      final label = target) :
    Encoded.Filled (Hole.bytesFor final) (offsets index) (encodedAt wide lines marks offsets index)
      (bytesOf wide lines marks offsets final index) := by
  cases hline : lines[index]? with
  | none =>
    simp only [encodedAt, bytesOf, hline]
    exact .ofBytes _ _
  | some line =>
    simp only [encodedAt, bytesOf, hline]
    change Encoded.Filled _ (siteAt wide marks offsets index).offset _ _
    refine Encoded.Filled.encode ?_ line.1.instruction line.2
    exact hfinal

def codeOf (wide : Std.HashSet Nat) (lines : List (CodeLine × Operand)) (marks : Marks)
    (offsets : Nat → Nat) (final : Label → UInt16) (count : Nat) : Bytes :=
  (List.range count).flatMap (bytesOf wide lines marks offsets final)

theorem codeOf_succ (final : Label → UInt16) (count : Nat) :
    codeOf wide lines marks offsets final (count + 1) =
      codeOf wide lines marks offsets final count ++ bytesOf wide lines marks offsets final count := by
  rw [codeOf, codeOf, List.range_succ, List.flatMap_append, List.flatMap_singleton]

section

variable {final : Label → UInt16}

/-- Filled holes leave the code of the lines, and each line starts where the ones before it end. -/
theorem HasOffsets.filled (hoffsets : HasOffsets wide lines marks offsets)
    (hfinal : ∀ count label target, marks.offsetOf? offsets count label = some target →
      final label = target)
    {count : Nat} (hcount : count ≤ lines.length) :
    Encoded.Filled (Hole.bytesFor final) 0
      ⟨(List.range count).flatMap fun index => (encodedAt wide lines marks offsets index).bytes,
        (List.range count).flatMap fun index => (encodedAt wide lines marks offsets index).holes⟩
      (codeOf wide lines marks offsets final count) ∧
    (codeOf wide lines marks offsets final count).length = offsets count := by
  induction count with
  | zero => exact ⟨.ofBytes 0 [], hoffsets.zero.symm⟩
  | succ count ih =>
    obtain ⟨hbefore, hlength⟩ := ih (Nat.le_of_succ_le hcount)
    have hline : Encoded.Filled (Hole.bytesFor final) (offsets count)
        (encodedAt wide lines marks offsets count) (bytesOf wide lines marks offsets final count) :=
      filled_encodedAt (hfinal (count + 1))
    simp only [codeOf_succ, List.range_succ, List.flatMap_append, List.flatMap_singleton]
    refine ⟨hbefore.appendAt (by rw [hlength, Nat.zero_add]) hline rfl, ?_⟩
    rw [List.length_append, hlength, hline.length_eq, hoffsets.succ count hcount]

theorem exists_codeOf_eq_append {count last : Nat} (hcount : count ≤ last) :
    ∃ rest, codeOf wide lines marks offsets final last =
      codeOf wide lines marks offsets final count ++ rest := by
  induction hcount with
  | refl => exact ⟨[], (List.append_nil _).symm⟩
  | @step last _ ih =>
    obtain ⟨rest, hrest⟩ := ih
    refine ⟨rest ++ bytesOf wide lines marks offsets final last, ?_⟩
    rw [codeOf_succ, hrest, List.append_assoc]

theorem HasOffsets.succ_eq (hoffsets : HasOffsets wide lines marks offsets)
    (hfinal : ∀ count label target, marks.offsetOf? offsets count label = some target →
      final label = target)
    {index : Nat} (hindex : index < lines.length) :
    offsets index + (bytesOf wide lines marks offsets final index).length = offsets (index + 1) := by
  rw [← (hoffsets.filled hfinal (Nat.le_of_lt hindex)).2, ← (hoffsets.filled hfinal hindex).2,
    codeOf_succ, List.length_append]

theorem HasOffsets.offsets_le (hoffsets : HasOffsets wide lines marks offsets)
    {first last : Nat} (hfirst : first ≤ last) (hlast : last ≤ lines.length) :
    offsets first ≤ offsets last := by
  induction hfirst with
  | refl => exact Nat.le_refl _
  | @step last _ ih =>
    rw [Nat.succ_eq_add_one, hoffsets.succ last hlast]
    exact Nat.le_add_right_of_le (ih (Nat.le_of_succ_le hlast))

theorem HasOffsets.offsets_lt_of_lt (hoffsets : HasOffsets wide lines marks offsets)
    (hfinal : ∀ count label target, marks.offsetOf? offsets count label = some target →
      final label = target)
    {first last : Nat} (hfirst : first < last) (hlast : last ≤ lines.length) :
    offsets first < offsets last := by
  have hindex : first < lines.length := Nat.lt_of_lt_of_le hfirst hlast
  have hnext := hoffsets.succ_eq hfinal hindex
  have hpos : 0 < (bytesOf wide lines marks offsets final first).length := by
    rw [bytesOf, List.getElem?_eq_getElem hindex]
    exact Instruction.length_bytesAt_pos ..
  have hle : offsets (first + 1) ≤ offsets last := hoffsets.offsets_le hfirst hlast
  omega

theorem HasOffsets.drop_codeOf (hoffsets : HasOffsets wide lines marks offsets)
    (hfinal : ∀ count label target, marks.offsetOf? offsets count label = some target →
      final label = target)
    {index : Nat} (hindex : index < lines.length) :
    (codeOf wide lines marks offsets final lines.length).drop (offsets index) =
      bytesOf wide lines marks offsets final index ++
        (codeOf wide lines marks offsets final lines.length).drop (offsets (index + 1)) := by
  obtain ⟨rest, hrest⟩ : ∃ rest, codeOf wide lines marks offsets final lines.length =
      codeOf wide lines marks offsets final (index + 1) ++ rest := exists_codeOf_eq_append hindex
  have hlength := (hoffsets.filled hfinal (Nat.le_of_lt hindex)).2
  have hnext := (hoffsets.filled hfinal hindex).2
  rw [hrest, ← hnext, List.drop_left, codeOf_succ, ← hlength, List.append_assoc, List.drop_left]

end

theorem Complete.final_eq {layout : Layout} (hcomplete : Complete wide lines endLabel offsets layout)
    {label : Label} {place : Nat} (hplace : (marksOf lines endLabel).placeOf? label = some place) :
    layout.placement.final label = UInt16.ofNat (offsets place) := by
  have hle := le_of_getElem?_marksOf (Marks.getElem?_of_placeOf? hplace)
  rw [Placement.final, hcomplete.placement, Marks.offsetOf?_eq_some_iff.2
    ⟨place, hplace, Nat.lt_succ_of_le hle, rfl⟩, Option.getD_some]

theorem Complete.final_of_offsetOf? {layout : Layout}
    (hcomplete : Complete wide lines endLabel offsets layout) (count : Nat)
    (label : Label) (target : UInt16)
    (htarget : (marksOf lines endLabel).offsetOf? offsets count label = some target) :
    layout.placement.final label = target := by
  obtain ⟨place, hplace, -, rfl⟩ := Marks.offsetOf?_eq_some_iff.1 htarget
  exact hcomplete.final_eq hplace

/-- An attempt that goes well and whose holes can all be filled. -/
structure Settled (wide : Std.HashSet Nat) (lines : List (CodeLine × Operand))
    (endLabel : Option Label) (offsets : Nat → Nat) (layout : Layout) : Prop extends
    Complete wide lines endLabel offsets layout where
  fillable : ∀ hole ∈ layout.holes.toList, hole.IsFillable layout.placement layout.code.size

theorem Complete.toList_fillAll {layout : Layout}
    (hcomplete : Complete wide lines endLabel offsets layout) :
    (fillAll (Hole.bytesFor layout.placement.final) layout.holes.toList layout.code).toList =
      codeOf wide lines (marksOf lines endLabel) offsets layout.placement.final lines.length := by
  obtain ⟨hfilled, -⟩ := hcomplete.hasOffsets.filled hcomplete.final_of_offsetOf? (Nat.le_refl _)
  rw [hcomplete.holes]
  exact hfilled.toList_fillAll_whole hcomplete.code

/-- An attempt is settled if its holes can all be filled. -/
theorem exists_settled_of_fillHoles {layout : Layout} {code : Array UInt8}
    (hlayout : ofLines wide lines endLabel = .ok layout)
    (hfill : fillHoles layout.placement layout.code.size layout.holes.toList layout.code =
      .ok (.filled code)) :
    ∃ offsets, Settled wide lines endLabel offsets layout ∧ code.toList =
      codeOf wide lines (marksOf lines endLabel) offsets layout.placement.final lines.length := by
  obtain ⟨offsets, hoffsets⟩ := exists_hasOffsets wide lines (marksOf lines endLabel)
  have hcomplete := complete_of_ofLines hoffsets hlayout
  obtain ⟨hfillable, rfl⟩ := fillHoles_eq_filled_iff.1 hfill
  exact ⟨offsets, ⟨hcomplete, hfillable⟩, hcomplete.toList_fillAll⟩

/-! ### Targets -/

private theorem holes_ofBytes (bytes : Bytes) : (Encoded.ofBytes bytes).holes = [] := rfl

private theorem holes_append (first second : Encoded) :
    (first ++ second).holes = first.holes ++ second.holes := rfl

private theorem holes_concat (parts : List Encoded) :
    (Encoded.concat parts).holes = parts.flatMap Encoded.holes := rfl

private theorem holes_encodeSwitchTarget (site : EncodingSite) (position : Nat) (label : Label) :
    (site.encodeSwitchTarget position label).holes =
      if site.offsetOf? label = none then [⟨site.index, label, site.offset, position, true⟩]
      else [] := by
  unfold EncodingSite.encodeSwitchTarget
  cases site.offsetOf? label <;> rfl

/-- A target that has no offset yet leaves a hole, and in a branch or jump that may be short a short
one. -/
theorem exists_hole_of_target (site : EncodingSite) (operand : Operand)
    {instruction : Instruction Label} {label : Label} (hlabel : label ∈ instruction.targets)
    (hunknown : site.offsetOf? label = none) :
    ∃ hole ∈ (instruction.encode site operand).holes, hole.label = label ∧
      (instruction.isRelaxable → site.wide = false → hole.wide = false ∧
        hole.base = site.offset) := by
  cases instruction with
  | branch condition target =>
    obtain rfl : label = target := List.mem_singleton.1 hlabel
    simp only [Instruction.encode, EncodingSite.encodeBranch, hunknown]
    cases site.wide <;> simp
  | jump op target =>
    obtain rfl : label = target := List.mem_singleton.1 hlabel
    simp only [Instruction.encode, EncodingSite.encodeJump, hunknown]
    cases site.wide <;> simp
  | tableSwitch otherwise low high targets =>
    simp only [Instruction.encode, EncodingSite.encodeTableSwitch, holes_append, holes_ofBytes,
      holes_concat, List.flatMap_map, holes_encodeSwitchTarget]
    obtain rfl | hlabel := List.mem_cons.1 hlabel
    · simp [hunknown, Instruction.isRelaxable]
    · obtain ⟨index, hindex⟩ := List.getElem?_of_mem hlabel
      have hmem : (label, index) ∈ targets.zipIdx := List.mem_zipIdx_iff_getElem?.2 hindex
      refine ⟨⟨site.index, label, site.offset, site.switchStart + 12 + 4 * index, true⟩, ?_, rfl,
        by simp [Instruction.isRelaxable]⟩
      refine List.mem_append_right _ (List.mem_flatMap.2 ⟨(label, index), hmem, ?_⟩)
      simp [hunknown]
  | lookupSwitch otherwise cases =>
    simp only [Instruction.encode, EncodingSite.encodeLookupSwitch, holes_append, holes_ofBytes,
      holes_concat, List.flatMap_map, holes_encodeSwitchTarget]
    obtain rfl | hlabel := List.mem_cons.1 hlabel
    · simp [hunknown, Instruction.isRelaxable]
    · obtain ⟨⟨key, target⟩, hcase, rfl⟩ := List.mem_map.1 hlabel
      obtain ⟨index, hindex⟩ := List.getElem?_of_mem hcase
      have hmem : ((key, target), index) ∈ cases.zipIdx := List.mem_zipIdx_iff_getElem?.2 hindex
      refine ⟨⟨site.index, target, site.offset, site.switchStart + 8 + 8 * index + 4, true⟩, ?_,
        rfl, by simp [Instruction.isRelaxable]⟩
      refine List.mem_append_right _ (List.mem_flatMap.2 ⟨((key, target), index), hmem, ?_⟩)
      simp [hunknown]
  | _ => exact absurd hlabel List.not_mem_nil

section

variable {layout : Layout} {index : Nat} {line : CodeLine} {operand : Operand}

theorem Complete.offset_le {place : Nat} {label : Label}
    (hcomplete : Complete wide lines endLabel offsets layout)
    (hmark : (marksOf lines endLabel)[place]? = some (some label)) :
    offsets place ≤ CodeAttribute.maxLength := by
  obtain hlt | rfl := Nat.lt_or_eq_of_le (le_of_getElem?_marksOf hmark)
  · exact hcomplete.start_le place hlt
  · rw [getElem?_marksOf_length] at hmark
    exact hcomplete.end_le (by rw [Option.some.inj hmark, Option.isSome_some])

theorem Complete.toNat_final {place : Nat} {label : Label}
    (hcomplete : Complete wide lines endLabel offsets layout)
    (hplace : (marksOf lines endLabel).placeOf? label = some place) :
    (layout.placement.final label).toNat = offsets place := by
  have hle := hcomplete.offset_le (Marks.getElem?_of_placeOf? hplace)
  rw [hcomplete.final_eq hplace, UInt16.toNat_ofNat_of_lt' (Nat.lt_succ_of_le hle)]

theorem Complete.exists_place {label : Label} {offset : UInt16}
    (hcomplete : Complete wide lines endLabel offsets layout)
    (hlabel : layout.placement[label]? = some offset) :
    layout.placement.final label = offset ∧
      ∃ place, (marksOf lines endLabel).placeOf? label = some place := by
  refine ⟨by rw [Placement.final, hlabel, Option.getD_some], ?_⟩
  rw [hcomplete.placement] at hlabel
  obtain ⟨place, hplace, -, -⟩ := Marks.offsetOf?_eq_some_iff.1 hlabel
  exact ⟨place, hplace⟩

theorem Complete.mem_placement_iff {label : Label}
    (hcomplete : Complete wide lines endLabel offsets layout) :
    label ∈ layout.placement ↔ some label ∈ marksOf lines endLabel := by
  rw [Std.HashMap.mem_iff_isSome_getElem?, hcomplete.placement]
  constructor
  · intro hsome
    obtain ⟨offset, hoffset⟩ := Option.isSome_iff_exists.1 hsome
    obtain ⟨place, hplace, -, -⟩ := Marks.offsetOf?_eq_some_iff.1 hoffset
    exact List.mem_of_getElem? (Marks.getElem?_of_placeOf? hplace)
  · intro hmem
    obtain ⟨place, hplace⟩ := List.getElem?_of_mem hmem
    have hlt := Nat.lt_succ_of_le (le_of_getElem?_marksOf hplace)
    rw [Marks.offsetOf?_eq_some_iff.2 ⟨place, hcomplete.distinct place label hplace, hlt, rfl⟩]
    rfl

/-- A target of a line either has an offset by then, or there is a hole for it that can be
filled. -/
theorem Settled.known_or_fillable (hsettled : Settled wide lines endLabel offsets layout)
    (hline : lines[index]? = some (line, operand)) {label : Label}
    (hlabel : label ∈ line.instruction.targets) :
    (∃ place ≤ index, (marksOf lines endLabel).placeOf? label = some place ∧
      (marksOf lines endLabel).offsetOf? offsets (index + 1) label =
        some (layout.placement.final label)) ∨
    (marksOf lines endLabel).offsetOf? offsets (index + 1) label = none ∧
      ∃ hole : Hole, hole.label = label ∧ hole.IsFillable layout.placement layout.code.size ∧
        (line.instruction.isRelaxable → wide.contains index = false →
          hole.wide = false ∧ hole.base = offsets index) := by
  cases hknown : (marksOf lines endLabel).offsetOf? offsets (index + 1) label with
  | some target =>
    obtain ⟨place, hplace, hlt, -⟩ := Marks.offsetOf?_eq_some_iff.1 hknown
    refine .inl ⟨place, Nat.le_of_lt_succ hlt, hplace, ?_⟩
    rw [hsettled.final_of_offsetOf? (index + 1) label target hknown]
  | none =>
    obtain ⟨hole, hhole, hholeLabel, hshort⟩ :=
      exists_hole_of_target (siteAt wide (marksOf lines endLabel) offsets index) operand hlabel
        hknown
    refine .inr ⟨rfl, hole, hholeLabel, hsettled.fillable hole ?_, hshort⟩
    exact hsettled.mem_holes_iff.2 ⟨index, line, operand, hline, hhole⟩

/-- **Targets are lines.** -/
theorem Settled.exists_place_of_target (hsettled : Settled wide lines endLabel offsets layout)
    (hline : lines[index]? = some (line, operand)) {label : Label}
    (hlabel : label ∈ line.instruction.targets) :
    ∃ place < lines.length, (marksOf lines endLabel).placeOf? label = some place := by
  have hindex : index < lines.length := (List.getElem?_eq_some_iff.1 hline).1
  obtain ⟨place, hle, hplace, -⟩ | ⟨-, hole, rfl, ⟨target, htarget, hlt, -⟩, -⟩ :=
    hsettled.known_or_fillable hline hlabel
  · exact ⟨place, by omega, hplace⟩
  · obtain ⟨hfinal, place, hplace⟩ := hsettled.exists_place htarget
    refine ⟨place, ?_, hplace⟩
    rw [← hfinal, hsettled.toNat_final hplace, hsettled.size] at hlt
    refine Nat.lt_of_le_of_ne (le_of_getElem?_marksOf (Marks.getElem?_of_placeOf? hplace)) ?_
    rintro rfl
    exact Nat.lt_irrefl _ hlt

/-- **Short branches and jumps reach their targets.** -/
theorem Settled.reaches (hsettled : Settled wide lines endLabel offsets layout)
    (hline : lines[index]? = some (line, operand)) :
    (line.instruction.map layout.placement.final).ReachesFrom (offsets index)
      ((siteAt wide (marksOf lines endLabel) offsets index).takesWide line.instruction) := by
  have hreaches : ∀ label ∈ line.instruction.targets, line.instruction.isRelaxable →
      (siteAt wide (marksOf lines endLabel) offsets index).isWideTo label = false →
        fitsShort (distance (offsets index) (layout.placement.final label)) := by
    intro label hlabel hrelaxable hshort
    obtain ⟨place, hle, hplace, hknown⟩ |
        ⟨hknown, hole, rfl, ⟨target, htarget, -, hfits⟩, hhole⟩ :=
      hsettled.known_or_fillable hline hlabel
    · simpa only [EncodingSite.isWideTo, siteAt, hknown, Bool.not_eq_eq_eq_not,
        Bool.not_false] using hshort
    · simp only [EncodingSite.isWideTo, siteAt, hknown] at hshort
      obtain ⟨hwide, hbase⟩ := hhole hrelaxable hshort
      rw [(hsettled.exists_place htarget).1, ← hbase]
      exact hfits hwide
  cases hinstruction : line.instruction with
  | branch condition label =>
    rw [hinstruction] at hreaches
    exact fun hshort => hreaches label (List.mem_singleton_self label) rfl hshort
  | jump op label =>
    rw [hinstruction] at hreaches
    exact fun hshort => hreaches label (List.mem_singleton_self label) rfl hshort
  | _ => trivial

end

/-! ### Lines that fit -/

/-- Each hole is for a target that has no offset yet, and only branches and jumps that may be short
have short ones. -/
theorem hole_of_mem_encode {site : EncodingSite} {operand : Operand}
    {instruction : Instruction Label} {hole : Hole}
    (hhole : hole ∈ (instruction.encode site operand).holes) :
    hole.label ∈ instruction.targets ∧ site.offsetOf? hole.label = none ∧
      hole.instruction = site.index ∧
      (hole.wide = false → instruction.isRelaxable ∧ site.wide = false ∧
        hole.base = site.offset) := by
  have htarget : ∀ {position : Nat} {label : Label},
      hole ∈ (site.encodeSwitchTarget position label).holes →
        hole.label = label ∧ site.offsetOf? label = none ∧ hole.instruction = site.index ∧
          hole.wide = true := by
    intro position label hmem
    rw [holes_encodeSwitchTarget] at hmem
    split at hmem
    · rename_i hunknown
      obtain rfl := List.mem_singleton.1 hmem
      exact ⟨rfl, hunknown, rfl, rfl⟩
    · cases hmem
  cases instruction with
  | branch condition label =>
    simp only [Instruction.encode, EncodingSite.encodeBranch] at hhole
    cases hknown : site.offsetOf? label with
    | some target =>
      rw [hknown] at hhole
      simp only at hhole
      split at hhole <;> cases hhole
    | none =>
      rw [hknown] at hhole
      cases hwide : site.wide with
      | true =>
        rw [hwide] at hhole
        obtain rfl := List.mem_singleton.1 hhole
        exact ⟨List.mem_singleton_self label, hknown, rfl, fun hshort => by cases hshort⟩
      | false =>
        rw [hwide] at hhole
        obtain rfl := List.mem_singleton.1 hhole
        exact ⟨List.mem_singleton_self label, hknown, rfl, fun _ => ⟨rfl, rfl, rfl⟩⟩
  | jump op label =>
    simp only [Instruction.encode, EncodingSite.encodeJump] at hhole
    cases hknown : site.offsetOf? label with
    | some target =>
      rw [hknown] at hhole
      simp only at hhole
      split at hhole <;> cases hhole
    | none =>
      rw [hknown] at hhole
      cases hwide : site.wide with
      | true =>
        rw [hwide] at hhole
        obtain rfl := List.mem_singleton.1 hhole
        exact ⟨List.mem_singleton_self label, hknown, rfl, fun hshort => by cases hshort⟩
      | false =>
        rw [hwide] at hhole
        obtain rfl := List.mem_singleton.1 hhole
        exact ⟨List.mem_singleton_self label, hknown, rfl, fun _ => ⟨rfl, rfl, rfl⟩⟩
  | tableSwitch otherwise low high targets =>
    simp only [Instruction.encode, EncodingSite.encodeTableSwitch, holes_append, holes_ofBytes,
      holes_concat, List.flatMap_map, List.nil_append, List.append_nil, List.mem_append,
      List.mem_flatMap] at hhole
    obtain hhole | ⟨⟨label, index⟩, hmem, hhole⟩ := hhole
    · obtain ⟨rfl, hunknown, hindex, hwide⟩ := htarget hhole
      exact ⟨List.mem_cons_self, hunknown, hindex, fun hshort => by cases hwide.symm.trans hshort⟩
    · obtain ⟨rfl, hunknown, hindex, hwide⟩ := htarget hhole
      refine ⟨List.mem_cons_of_mem _ ?_, hunknown, hindex,
        fun hshort => by cases hwide.symm.trans hshort⟩
      exact List.mem_of_getElem? (List.mem_zipIdx_iff_getElem?.1 hmem)
  | lookupSwitch otherwise cases =>
    simp only [Instruction.encode, EncodingSite.encodeLookupSwitch, holes_append, holes_ofBytes,
      holes_concat, List.flatMap_map, List.nil_append, List.append_nil, List.mem_append,
      List.mem_flatMap] at hhole
    obtain hhole | ⟨⟨⟨key, label⟩, index⟩, hmem, hhole⟩ := hhole
    · obtain ⟨rfl, hunknown, hindex, hwide⟩ := htarget hhole
      exact ⟨List.mem_cons_self, hunknown, hindex, fun hshort => by cases hwide.symm.trans hshort⟩
    · obtain ⟨rfl, hunknown, hindex, hwide⟩ := htarget hhole
      refine ⟨List.mem_cons_of_mem _ ?_, hunknown, hindex,
        fun hshort => by cases hwide.symm.trans hshort⟩
      exact List.mem_map.2 ⟨(key, hole.label),
        List.mem_of_getElem? (List.mem_zipIdx_iff_getElem?.1 hmem), rfl⟩
  | _ => cases hhole

/-- An attempt to lay out lines at offsets goes well: no line starts too late, no label is placed
twice, targets are lines, and those ahead are near enough for what may not be wide. -/
structure Fits (wide : Std.HashSet Nat) (lines : List (CodeLine × Operand))
    (endLabel : Option Label) (offsets : Nat → Nat) : Prop where
  hasOffsets : HasOffsets wide lines (marksOf lines endLabel) offsets
  distinct : (marksOf lines endLabel).IsDistinct
  start_le : ∀ index < lines.length, offsets index ≤ CodeAttribute.maxLength
  end_le : endLabel.isSome → offsets lines.length ≤ CodeAttribute.maxLength
  target : ∀ (index : Nat) (line : CodeLine) (operand : Operand),
    lines[index]? = some (line, operand) → ∀ label ∈ line.instruction.targets,
      ∃ place < lines.length, (marksOf lines endLabel).placeOf? label = some place ∧
        (line.instruction.isRelaxable → wide.contains index = false → index < place →
          fitsShort ((offsets place : Int) - offsets index))

/-- **Settling.** Lines that fit are laid out at their offsets. -/
theorem Fits.exists_settle (hfits : Fits wide lines endLabel offsets) :
    ∃ layout code, settle lines endLabel wide = .ok { layout with code := code } ∧
      Settled wide lines endLabel offsets layout ∧
      code.toList =
        codeOf wide lines (marksOf lines endLabel) offsets layout.placement.final lines.length := by
  obtain ⟨layout, hlayout⟩ :=
    exists_ofLines hfits.hasOffsets hfits.distinct hfits.start_le hfits.end_le
  have hcomplete := complete_of_ofLines hfits.hasOffsets hlayout
  have hfillable : ∀ hole ∈ layout.holes.toList,
      hole.IsFillable layout.placement layout.code.size := by
    intro hole hhole
    obtain ⟨index, line, operand, hline, hhole⟩ := hcomplete.mem_holes_iff.1 hhole
    obtain ⟨hlabel, hunknown, -, hshort⟩ := hole_of_mem_encode hhole
    obtain ⟨place, hplace, hplaceOf, hnear⟩ := hfits.target index line operand hline _ hlabel
    have hbehind : index < place := Marks.offsetOf?_eq_none_iff.1 hunknown place hplaceOf
    have hat : (UInt16.ofNat (offsets place)).toNat = offsets place :=
      UInt16.toNat_ofNat_of_lt' (Nat.lt_succ_of_le (hfits.start_le place hplace))
    refine ⟨UInt16.ofNat (offsets place), ?_, ?_, ?_⟩
    · rw [hcomplete.placement]
      exact Marks.offsetOf?_eq_some_iff.2 ⟨place, hplaceOf, Nat.lt_succ_of_lt hplace, rfl⟩
    · have hend := hfits.hasOffsets.offsets_lt_of_lt hcomplete.final_of_offsetOf? hplace
        (Nat.le_refl _)
      rw [hat, hcomplete.size]
      exact hend
    · intro hnarrow
      obtain ⟨hrelaxable, hwide, hbase⟩ := hshort hnarrow
      rw [distance, hat, hbase]
      exact hnear hrelaxable hwide hbehind
  refine ⟨layout, fillAll (Hole.bytesFor layout.placement.final) layout.holes.toList layout.code,
    ?_, ⟨hcomplete, hfillable⟩, hcomplete.toList_fillAll⟩
  rw [settle, hlayout]
  simp only [fillHoles_eq_filled_iff.2 ⟨hfillable, rfl⟩]

end JvmClass.Layout
